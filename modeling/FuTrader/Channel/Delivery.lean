import FuTrader.Channel.Wrap

/- What comes out of the queue: the values of the tickets, in ticket order. -/
namespace Mpsc
variable {T : Type} {B : BufSize} {P : Nat}

def byProducer (i : Fin P) (log : List (Fin P × T)) : List T :=
  log.filterMap fun x => if x.1 = i then some x.2 else none

def Producer.pending {κ : Type} : Producer κ T → List T
  | .loadSeq u _ | .wait u _ _ | .parked u _ _ | .writeData u _ | .storeSeq u _ => [u]
  | _ => []

def Consumer.inHand {κ : Type} : Consumer κ T → Nat
  | .storeSeq _ _ _ | .notifyOne _ _ _ | .storeTail _ _ _ => 1
  | _ => 0

theorem byProducer_append (i : Fin P) (log more : List (Fin P × T)) :
    byProducer i (log ++ more) = byProducer i log ++ byProducer i more := List.filterMap_append

theorem byProducer_prefix {log more : List (Fin P × T)} (i : Fin P) (longer : log <+: more) :
    byProducer i log <+: byProducer i more := by
  obtain ⟨rest, rfl⟩ := longer
  rw [byProducer_append]
  exact List.prefix_append _ _

@[simp] theorem byProducer_self (i : Fin P) (u : T) : byProducer i [(i, u)] = [u] := by
  simp [byProducer]

/-! One step: what it issues, accepts and pops. -/

theorem popped_step {log : List (Fin P × T)} {E : Element T} {s t : State Nat T B P}
    {a : Action T P} (linked : Linked log s) (step : Step B.unbounded E s a t) :
    ((log ++ (ticketOf s a).toList).take t.tail).map Prod.snd =
      (log.take s.tail).map Prod.snd ++ (valueOf s a).toList := by
  have short := linked.tail_le
  cases step with
  | ticket i u curHead curTail pc =>
    simp [ticketOf, valueOf, pc, List.take_append_of_le_length short]
  | advance k pos value pc =>
    have ok := linked.consumer
    rw [pc] at ok
    obtain ⟨rfl, i, entry⟩ := ok
    simp [ticketOf, valueOf, pc, List.take_add_one, entry]
  | _ => simp [ticketOf, valueOf, *]

theorem accepted_step {E : Element T} {s t : State Nat T B P} {a : Action T P}
    (step : Step B.unbounded E s a t) (i : Fin P) :
    byProducer i (acceptOf s a).toList ++ (t.producer i).pending =
      (s.producer i).pending ++ byProducer i (ticketOf s a).toList := by
  have moved : ∀ {j : Fin P} {p : Producer Nat T}, p.pending = (s.producer j).pending →
      (Function.update s.producer j p i).pending = (s.producer i).pending := by
    intro j p same
    by_cases here : i = j
    · subst here
      simpa using same
    · simp [here]
  cases step with
  | ticket j u curHead curTail pc =>
    by_cases here : i = j
    · subst here
      simp [ticketOf, acceptOf, pc, Producer.pending, byProducer]
    · simp [ticketOf, acceptOf, pc, here, Ne.symm here, byProducer]
  | publish j u pos pc =>
    by_cases here : i = j
    · subst here
      simp [ticketOf, acceptOf, pc, Producer.pending, byProducer]
    · simp [ticketOf, acceptOf, pc, here, Ne.symm here, byProducer]
  | pop k pc | empty k pos pc | ready k pos pc | read k pos pc | free k pos pc | nobody k pos pc
  | advance k pos pc => simp [ticketOf, acceptOf, byProducer]
  | wake j k pos value u ticket seqVal pc parked =>
    simp [ticketOf, acceptOf, byProducer, moved (show Producer.pending (.wait u ticket seqVal) = _ by
      rw [parked]; rfl)]
  | push j u pc | refuse j u curHead pc | pass j u curHead pc | turn j u pos pc
  | busy j u pos pc | park j u pos seqVal pc | changed j u pos seqVal pc | write j u pos pc
  | spurious j u pos seqVal pc =>
    simp only [ticketOf, acceptOf, pc, byProducer, Option.toList_none, List.filterMap_nil,
      List.nil_append, List.append_nil, setProducer_producer, setSlot_producer]
    exact moved (by rw [pc]; rfl)

/-! Whole runs on unbounded counters. -/

theorem popped_run {E : Element T} {h : List (State Nat T B P × Action T P)}
    {s : State Nat T B P} (room : Room h) (run : (machine B.unbounded E P).Run h s) :
    popped h = ((issued h).take s.tail).map Prod.snd := by
  induction run with
  | start => rfl
  | next run step ih =>
    have linked := linked_run room.before run
    rw [popped, issued, Machine.log_snoc, Machine.log_snoc, ← popped, ← issued,
      popped_step linked (step_cases step), ih room.before]

theorem accepted_run {E : Element T} {h : List (State Nat T B P × Action T P)}
    {s : State Nat T B P} (run : (machine B.unbounded E P).Run h s) (i : Fin P) :
    byProducer i (issued h) = byProducer i (accepted h) ++ (s.producer i).pending := by
  apply Machine.Run.invariant (M := machine B.unbounded E P)
    (fun h s => byProducer i (issued h) = byProducer i (accepted h) ++ (s.producer i).pending)
    rfl ?_ run
  intro h s a t run known step
  rw [accepted, issued, Machine.log_snoc, Machine.log_snoc, ← accepted, ← issued,
    byProducer_append, byProducer_append, known, List.append_assoc, List.append_assoc,
    accepted_step (step_cases step)]

theorem pending_cases {κ : Type} (p : Producer κ T) :
    p.pending = [] ∨ ∃ u pos, p.pending = [u] ∧ p.ticket = some pos := by
  cases p with
  | idle | loadTail | fetchAdd => exact Or.inl rfl
  | loadSeq u pos | wait u pos seqVal | parked u pos seqVal | writeData u pos | storeSeq u pos =>
    exact Or.inr ⟨u, pos, rfl, rfl⟩

/-- What is popped of one producer was accepted from it: its ticket in hand is younger. -/
theorem popped_accepted {E : Element T} {h : List (State Nat T B P × Action T P)}
    {s : State Nat T B P} (room : Room h) (run : (machine B.unbounded E P).Run h s) (i : Fin P) :
    byProducer i ((issued h).take s.tail) <+: byProducer i (accepted h) := by
  have linked := linked_run room run
  have split := accepted_run run i
  have part := byProducer_prefix i (List.take_prefix s.tail (issued h))
  rcases pending_cases (s.producer i) with none | ⟨u, pos, one, ticket⟩
  · rwa [split, none, List.append_nil] at part
  · obtain ⟨v, entry⟩ := linked.value_of_ticket ticket
    have floor : s.freed ≤ pos := linked.ring.floor ticket
    have old := tail_le_freed s
    have earlier : byProducer i ((issued h).take s.tail) <+: byProducer i ((issued h).take pos) :=
      byProducer_prefix i (List.take_prefix_take_left (by omega))
    have later : byProducer i ((issued h).take (pos + 1)) <+: byProducer i (issued h) :=
      byProducer_prefix i (List.take_prefix _ _)
    rw [List.take_add_one, entry, byProducer_append] at later
    have accepts : byProducer i (accepted h) <+: byProducer i (issued h) := by
      rw [split]
      exact List.prefix_append _ _
    apply List.prefix_of_prefix_length_le part accepts
    have shorter := earlier.length_le
    have fewer := later.length_le
    rw [split, one] at fewer
    simp only [Option.toList_some, byProducer_self, List.length_append,
      List.length_singleton] at fewer
    omega

theorem Linked.value_kept {log : List (Fin P × T)} {s : State Nat T B P} (linked : Linked log s)
    {j : Nat} {i : Fin P} {u : T} (entry : log[j]? = some (i, u))
    (left : s.tail + s.consumer.inHand ≤ j) (returned : (s.producer i).ticket ≠ some j) :
    (s.buffer (TicketRing.slot B.val j)).data = u := by
  have less := (List.getElem?_eq_some_iff.mp entry).1
  have floor : s.freed ≤ j := by
    cases pc : s.consumer <;> simp [State.freed, pc, Consumer.inHand] at left ⊢ <;> omega
  rcases linked.ring.kept j floor less with ⟨i', holds⟩ | ⟨filled, high⟩
  · obtain ⟨v, other⟩ := linked.value_of_ticket holds
    rw [entry] at other
    cases other
    exact absurd holds returned
  · have untaken : ¬ (j = s.freed ∧ s.taken = true) := by
      rintro ⟨rfl, taken⟩
      cases pc : s.consumer with
      | storeSeq k pos value =>
        simp only [State.freed, pc, Consumer.inHand] at left
        omega
      | _ => simp [State.taken, pc] at taken
    obtain ⟨i', stored⟩ := linked.ring.stored j floor high filled untaken
    change log[j]? = some (i', _) at stored
    rw [entry] at stored
    cases stored
    rfl

/-! The same runs on 64-bit counters. -/

theorem acceptOf_image (s : State Nat T B P) (a : Action T P) :
    acceptOf s.image a = acceptOf s a := by
  cases a with
  | producer i => cases pc : s.producer i <;> simp [acceptOf, pc, Producer.image]
  | _ => rfl

theorem valueOf_image (s : State Nat T B P) (a : Action T P) :
    valueOf s.image a = valueOf s a := by
  cases a with
  | consumer => cases pc : s.consumer <;> simp [valueOf, pc, Consumer.image]
  | _ => rfl

section
variable (k : List (State Nat T B P × Action T P))

theorem accepted_image : accepted (k.map (Prod.map State.image id)) = accepted k := by
  rw [accepted, Machine.log_map, accepted]
  simp only [acceptOf_image]

theorem popped_image : popped (k.map (Prod.map State.image id)) = popped k := by
  rw [popped, Machine.log_map, popped]
  simp only [valueOf_image]

end

theorem ticket_image (p : Producer Nat T) : p.image.ticket = p.ticket.map (BitVec.ofNat 64) := by
  cases p <;> rfl

theorem inHand_image (c : Consumer Nat T) : c.image.inHand = c.inHand := by
  cases c <;> rfl

theorem popped_sizeT {E : Element T} {h : List (State SizeT T B P × Action T P)}
    {s : State SizeT T B P} (room : Room h) (run : (machine B.sizeT E P).Run h s) :
    popped h <+: (issued h).map Prod.snd := by
  obtain ⟨k, t, below, rfl, rfl⟩ := sizeT_run room run
  rw [issued_image, popped_image, popped_run ((room_image k).mp room) below, List.map_take]
  exact List.take_prefix _ _

/-- The j-th successful pop returns the value of the j-th ticket. What comes out of a
    producer is what its pushes put in, in their order, and a value that was accepted
    stays in its slot until pop takes it. -/
theorem pop_in_ticket_order {E : Element T} (producers : P < 2 ^ 63)
    {h : List (State SizeT T B P × Action T P)} {s : State SizeT T B P}
    (run : (machine B.sizeT E P).Run h s) :
    popped h <+: (issued h).map Prod.snd ∧
      (∀ i, byProducer i ((issued h).take (popped h).length) <+: byProducer i (accepted h) ∧
        byProducer i (accepted h) <+: byProducer i (issued h)) ∧
      ∀ j i u, (issued h)[j]? = some (i, u) → (popped h).length + s.consumer.inHand ≤ j →
        (s.producer i).ticket ≠ some (BitVec.ofNat 64 j) →
        (s.buffer (B.sizeT.slot (BitVec.ofNat 64 j))).data = u := by
  have fits : B.val + P ≤ 2 ^ 64 := by
    have := B.le_half
    omega
  have inOrder := popped_sizeT (.inl fits) run
  obtain ⟨k, t, below, rfl, rfl⟩ := sizeT_run (.inl fits) run
  have linked := linked_run (.inl fits) below
  have out := popped_run (.inl fits) below
  have count : (popped k).length = t.tail := by
    rw [out, List.length_map, List.length_take]
    exact Nat.min_eq_left linked.tail_le
  refine ⟨inOrder, ?_⟩
  rw [issued_image, accepted_image, popped_image, count]
  refine ⟨fun i => ⟨popped_accepted (.inl fits) below i, ?_⟩, ?_⟩
  · rw [accepted_run below i]
    exact List.prefix_append _ _
  · intro j i u entry left returned
    rw [image_consumer, inHand_image] at left
    rw [image_producer, ticket_image] at returned
    rw [sizeT_slot, image_buffer, image_data]
    refine linked.value_kept entry left fun same => returned ?_
    rw [same]
    rfl

def overtaking : List (Action Nat 2) :=
  [.push 0 5, .producer 0, .push 1 6, .producer 1, .producer 1, .producer 0,
    .producer 0, .producer 0, .producer 0, .producer 1, .producer 1, .producer 1,
    .pop .optional, .consumer, .consumer, .consumer, .consumer, .consumer]

theorem overtaking_in_ticket_order :
    let M := machine twoSlots.sizeT ⟨0, id⟩ 2
    popped (M.steps M.init overtaking) = [6] ∧
      popped (M.steps M.init overtaking) <+:
        (issued (M.steps M.init overtaking)).map Prod.snd :=
  ⟨by decide, (pop_in_ticket_order (by decide) (Machine.run_get (by decide))).1⟩

end Mpsc
