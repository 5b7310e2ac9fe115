import FuTrader.Lib.BoundedQueue
import FuTrader.Channel.Calls
import FuTrader.Channel.Outstanding

/- The queue at rest. When no push and no pop runs, it is the FIFO queue of the values
   whose tickets pop has not passed, whatever the threads did before; and as long as
   each call runs by itself, it stays one. -/
namespace Mpsc
open BoundedQueue (Answer fifo)

inductive Call (T : Type) (P : Nat) where
  | push (i : Fin P) (u : T)
  | pop (k : Overload)
  deriving DecidableEq

variable {T : Type} {B : BufSize} {P : Nat}

def Call.begin : Call T P → Action T P
  | .push i u => .push i u
  | .pop k => .pop k

def Call.next : Call T P → Action T P
  | .push i _ => .producer i
  | .pop _ => .consumer

def Call.queue : Call T P → BoundedQueue.Call T
  | .push _ u => .push u
  | .pop _ => .pop

section
variable {κ : Type} [DecidableEq κ]

def resultOf (C : Counters κ B) (s : State κ T B P) : Call T P → Option (Answer T)
  | .push i _ => (pushResult C s i).map .pushed
  | .pop _ => (popResult C s).map .popped

def finish (C : Counters κ B) (E : Element T) (c : Call T P) :
    Nat → State κ T B P → Option (Answer T × State κ T B P)
  | 0, _ => none
  | n + 1, s => match resultOf C s c with
    | some r => (step C E s c.next).map fun t => (r, t)
    | none => (step C E s c.next).bind (finish C E c n)

/-- A whole call without interruption. A push that is accepted takes its five steps after
    the first only if it does not wait. -/
def alone (C : Counters κ B) (E : Element T) (s : State κ T B P) (c : Call T P) :
    Option (Answer T × State κ T B P) := (step C E s c.begin).bind (finish C E c 5)

theorem alone_push {C : Counters κ B} {E : Element T} {s : State κ T B P} {i : Fin P} (u : T)
    (idle : s.producer i = .idle) (room : C.full s.head s.tail = false)
    (free : (s.buffer (C.slot s.head)).seq = s.head) :
    alone C E s (.push i u) = some (.pushed true, s.pushed C u) := by
  simp [alone, finish, Call.begin, Call.next, resultOf, pushResult, step, pushStep, producerStep,
    idle, room, free, State.setProducer, State.setSlot, State.pushed, update_idle idle]

theorem alone_refused {C : Counters κ B} {E : Element T} {s : State κ T B P} {i : Fin P} (u : T)
    (idle : s.producer i = .idle) (full : C.full s.head s.tail = true) :
    alone C E s (.push i u) = some (.pushed false, s) := by
  simp [alone, finish, Call.begin, Call.next, resultOf, pushResult, step, pushStep, producerStep,
    idle, full, State.setProducer, update_idle idle]

theorem alone_pop {C : Counters κ B} {E : Element T} {s : State κ T B P} (k : Overload)
    (idle : s.consumer = .idle) (filled : (s.buffer (C.slot s.tail)).seq = C.succ s.tail)
    (nobody : ∀ i, ParkedOn C s (C.slot s.tail) i = false) :
    alone C E s (.pop k) =
      some (.popped (some (s.buffer (C.slot s.tail)).data), s.popped C E) := by
  simp only [ParkedOn] at nobody
  simp [alone, finish, Call.begin, Call.next, resultOf, popResult, step, popStep, consumerStep,
    idle, filled, ParkedOn, nobody, State.setConsumer, State.setSlot, State.popped]

theorem alone_empty {C : Counters κ B} {E : Element T} {s : State κ T B P} (k : Overload)
    (idle : s.consumer = .idle) (other : (s.buffer (C.slot s.tail)).seq ≠ C.succ s.tail) :
    alone C E s (.pop k) = some (.popped none, s) := by
  obtain ⟨head, tail, buffer, producer, consumer⟩ := s
  cases idle
  simp [alone, finish, Call.begin, Call.next, resultOf, popResult, step, popStep, consumerStep,
    other, State.setConsumer]

end

/-- No call runs, and the buffer holds `items` from the slot of `first` on; every other slot
    waits for its next ticket. -/
structure Resting (first : Nat) (items : List T) (s : State SizeT T B P) : Prop where
  head : s.head = BitVec.ofNat 64 (first + items.length)
  tail : s.tail = BitVec.ofNat 64 first
  filled : ∀ j (less : j < items.length),
    s.buffer (TicketRing.slot B.val (first + j)) = ⟨BitVec.ofNat 64 (first + j + 1), items[j]⟩
  free : ∀ p, first + items.length ≤ p → p < first + B.val →
    (s.buffer (TicketRing.slot B.val p)).seq = BitVec.ofNat 64 p
  producers : ∀ i, s.producer i = .idle
  consumer : s.consumer = .idle

def Holds (s : State SizeT T B P) (q : BoundedQueue T B.val) : Prop :=
  ∃ tail, Resting tail q.items s

theorem Resting.full_iff {tail : Nat} {items : List T} {s : State SizeT T B P}
    (rest : Resting tail items s) (fits : items.length ≤ B.val) :
    B.sizeT.full s.head s.tail = decide (B.val ≤ items.length) := by
  have half := B.le_half
  rw [rest.head, rest.tail, sizeT_full (by omega) (by omega), Nat.add_sub_cancel_left]

theorem Resting.push {tail : Nat} {items : List T} {s : State SizeT T B P}
    (rest : Resting tail items s) (room : items.length < B.val) (u : T) :
    Resting tail (items ++ [u]) (s.pushed B.sizeT u) := by
  have head := rest.head
  constructor
  · simp [State.pushed, head, Nat.add_assoc]
  · exact rest.tail
  · intro j less
    simp only [State.pushed, setSlot_buffer, head, sizeT_slot, sizeT_succ]
    by_cases old : j < items.length
    · rw [Function.update_of_ne (TicketRing.slot_apart (by omega) (by omega)).symm, rest.filled j old,
        List.getElem_append_left old]
    · have last : j = items.length := by
        simp only [List.length_append, List.length_singleton] at less
        omega
      subst last
      simp
  · intro p high low
    simp only [List.length_append, List.length_singleton] at high
    simp only [State.pushed, setSlot_buffer, head, sizeT_slot, sizeT_succ]
    rw [Function.update_of_ne (TicketRing.slot_apart (by omega) (by omega))]
    exact rest.free p (by omega) low
  · exact rest.producers
  · exact rest.consumer

theorem Resting.pop {tail : Nat} {u : T} {items : List T} {s : State SizeT T B P}
    (rest : Resting tail (u :: items) s) (fits : items.length < B.val) (E : Element T) :
    Resting (tail + 1) items (s.popped B.sizeT E) := by
  have now := rest.tail
  constructor
  · have same : tail + (items.length + 1) = tail + 1 + items.length := by omega
    simpa [State.popped, same] using rest.head
  · simp [State.popped, now]
  · intro j less
    have later := rest.filled (j + 1) (by simpa using less)
    have place : tail + 1 + j = tail + (j + 1) := by omega
    simp only [State.popped, setSlot_buffer, now, sizeT_slot, sizeT_lap]
    rw [Function.update_of_ne (TicketRing.slot_apart (by omega) (by omega)), place]
    simpa using later
  · intro p high low
    simp only [State.popped, setSlot_buffer, now, sizeT_slot, sizeT_lap]
    by_cases lap : p = tail + B.val
    · subst lap
      have same : TicketRing.slot B.val (tail + B.val) = TicketRing.slot B.val tail :=
        TicketRing.slot_eq_iff.mpr (Nat.add_mod_right _ _)
      simp [same]
    · rw [Function.update_of_ne (TicketRing.slot_apart (by omega) (by omega))]
      exact rest.free p (by simp only [List.length_cons]; omega) (by omega)
  · exact rest.producers
  · exact rest.consumer

theorem Holds.serve {E : Element T} {s : State SizeT T B P} {q : BoundedQueue T B.val}
    (holds : Holds s q) (c : Call T P) :
    ∃ t, alone B.sizeT E s c = some (((fifo T B.val).call q c.queue).1, t) ∧
      Holds t ((fifo T B.val).call q c.queue).2 := by
  obtain ⟨first, rest⟩ := holds
  have check := rest.full_iff q.fits
  cases c with
  | push i u =>
    by_cases room : q.items.length < B.val
    · have passes : B.sizeT.full s.head s.tail = false := by
        rw [check]
        exact decide_eq_false (Nat.not_le.mpr room)
      have turn : (s.buffer (B.sizeT.slot s.head)).seq = s.head := by
        rw [rest.head, sizeT_slot]
        exact rest.free _ (Nat.le_refl _) (by omega)
      refine ⟨s.pushed B.sizeT u, ?_, ?_⟩
      · rw [alone_push u (rest.producers i) passes turn, Call.queue, BoundedQueue.fifo_push,
          BoundedQueue.push_room u room]
      · rw [Call.queue, BoundedQueue.fifo_push, BoundedQueue.push_room u room]
        exact ⟨first, rest.push room u⟩
    · have full := Nat.not_lt.mp room
      have refuses : B.sizeT.full s.head s.tail = true := by
        rw [check]
        exact decide_eq_true full
      refine ⟨s, ?_, ?_⟩
      · rw [alone_refused u (rest.producers i) refuses, Call.queue, BoundedQueue.fifo_push,
          BoundedQueue.push_full u full]
      · rw [Call.queue, BoundedQueue.fifo_push, BoundedQueue.push_full u full]
        exact ⟨first, rest⟩
  | pop k =>
    rcases known : q.items with _ | ⟨u, items⟩
    · have other : (s.buffer (B.sizeT.slot s.tail)).seq ≠ B.sizeT.succ s.tail := by
        have two := B.two_le
        have free := rest.free first (by simp [known]) (by omega)
        rw [rest.tail, sizeT_slot, sizeT_succ, free]
        exact mt (Counter.ofNat_eq_iff (by omega) (by omega)).mp (Nat.ne_of_lt (Nat.lt_succ_self _))
      refine ⟨s, ?_, ?_⟩
      · rw [alone_empty k rest.consumer other, Call.queue, BoundedQueue.fifo_pop,
          BoundedQueue.pop_empty known]
      · rw [Call.queue, BoundedQueue.fifo_pop, BoundedQueue.pop_empty known]
        exact ⟨first, rest⟩
    · have fits := q.fits
      rw [known] at rest fits
      have oldest := rest.filled 0 (by simp)
      have filled : (s.buffer (B.sizeT.slot s.tail)).seq = B.sizeT.succ s.tail := by
        rw [rest.tail, sizeT_slot, sizeT_succ, ← Nat.add_zero first, oldest]
      have value : (s.buffer (B.sizeT.slot s.tail)).data = u := by
        rw [rest.tail, sizeT_slot, ← Nat.add_zero first, oldest]
        rfl
      have nobody : ∀ i, ParkedOn B.sizeT s (B.sizeT.slot s.tail) i = false := fun i => by
        simp [ParkedOn, rest.producers i]
      obtain ⟨less, pop⟩ := BoundedQueue.pop_oldest known
      refine ⟨s.popped B.sizeT E, ?_, ?_⟩
      · rw [alone_pop k rest.consumer filled nobody, Call.queue, BoundedQueue.fifo_pop, pop, value]
      · rw [Call.queue, BoundedQueue.fifo_pop, pop]
        exact ⟨first + 1, rest.pop fits E⟩

/-! A run that has come to rest. -/

theorem length_byProducer (log : List (Fin P × T)) :
    ∑ i, (byProducer i log).length = log.length := by
  induction log with
  | nil => simp [byProducer]
  | cons x rest ih =>
    have one : ∀ i, (byProducer i (x :: rest)).length =
        (if x.1 = i then 1 else 0) + (byProducer i rest).length := by
      intro i
      by_cases same : x.1 = i
      · simp [byProducer, same, Nat.add_comm]
      · simp [byProducer, same]
    simp [one, Finset.sum_add_distrib, ih, Nat.add_comm]

theorem accepted_length {E : Element T} {h : List (State Nat T B P × Action T P)}
    {s : State Nat T B P} (run : (machine B.unbounded E P).Run h s)
    (idle : ∀ i, s.producer i = .idle) : (accepted h).length = (issued h).length := by
  rw [← length_byProducer (accepted h), ← length_byProducer (issued h)]
  apply Finset.sum_congr rfl
  intro i _
  rw [accepted_run run i, idle i]
  simp [Producer.pending]

/-- With no push running every slot from `freed` on is filled or waits for a new ticket. -/
theorem Linked.resting {log : List (Fin P × T)} {s : State Nat T B P} (linked : Linked log s)
    (producers : ∀ i, s.producer i = .idle) (consumer : s.consumer = .idle) :
    s.head ≤ s.tail + B.val ∧
      Resting s.tail ((log.drop s.tail).map Prod.snd) s.image := by
  have freed : s.freed = s.tail := by simp [State.freed, consumer]
  have untaken : s.taken = false := by simp [State.taken, consumer]
  have count := linked.count
  have old := linked.tail_le
  have kept : ∀ q, s.tail ≤ q → q < log.length →
      (s.buffer (TicketRing.slot B.val q)).seq = q + 1 ∧ q < s.tail + B.val := by
    intro q low drawn
    rw [← freed] at low ⊢
    rcases linked.ring.kept q low drawn with ⟨i, holds⟩ | filled
    · change (s.producer i).ticket = some q at holds
      simp [producers i, Producer.ticket] at holds
    · exact filled
  have length : s.tail + ((log.drop s.tail).map Prod.snd).length = s.head := by
    rw [List.length_map, List.length_drop]
    omega
  constructor
  · by_contra more
    have := (kept (s.tail + B.val) (by omega) (by omega)).2
    omega
  constructor
  · rw [length]
    rfl
  · rfl
  · intro j less
    rw [List.length_map, List.length_drop] at less
    obtain ⟨filled, near⟩ := kept (s.tail + j) (by omega) (by omega)
    obtain ⟨i, entry⟩ := linked.ring.stored (s.tail + j) (show s.freed ≤ s.tail + j by omega)
      (show s.tail + j < s.freed + B.val by omega) filled
      (fun both => by simp [toRing, untaken] at both)
    change log[s.tail + j]? = some (i, (s.buffer _).data) at entry
    have value : log[s.tail + j] = (i, (s.buffer (TicketRing.slot B.val (s.tail + j))).data) :=
      (List.getElem?_eq_some_iff.mp entry).2
    simp [Slot.image, filled, value]
  · intro p high low
    rw [length] at high
    rcases linked.ring.turns p (show s.freed ≤ p by omega)
      (show p < s.freed + B.val by omega) with waits | ⟨_, less⟩
    · exact congrArg (BitVec.ofNat 64) waits
    · change p < log.length at less
      omega
  · intro i
    rw [image_producer, producers i]
    rfl
  · rw [image_consumer, consumer]
    rfl

theorem idle_of_image {s : State Nat T B P} (producers : ∀ i, s.image.producer i = .idle) :
    ∀ i, s.producer i = .idle := by
  intro i
  have now := producers i
  rw [image_producer] at now
  cases pc : s.producer i <;> simp_all [Producer.image]

/-- At rest the queue is the FIFO queue of the accepted values that are not popped, in the
    order of their tickets. Whole calls after that are those of this queue. -/
theorem quiescent_fifo {E : Element T} {h : List (State SizeT T B P × Action T P)}
    {s : State SizeT T B P} (room : Room h) (run : (machine B.sizeT E P).Run h s)
    (producers : ∀ i, s.producer i = .idle) (consumer : s.consumer = .idle) :
    s.outstanding ≤ B.val ∧ (accepted h).length = (popped h).length + s.outstanding ∧
      ∃ q : BoundedQueue T B.val,
        q.items = ((issued h).drop (popped h).length).map Prod.snd ∧
        ∀ calls : List (Call T P), ∃ t, SeqObject.performAll (alone B.sizeT E) s calls =
          some ((fifo T B.val).answers q (calls.map Call.queue), t) := by
  obtain ⟨k, t, below, rfl, rfl⟩ := sizeT_run room run
  rw [room_image] at room
  have linked := linked_run room below
  have quiet := idle_of_image producers
  have still : t.consumer = .idle := by
    rw [image_consumer] at consumer
    cases pc : t.consumer <;> simp_all [Consumer.image]
  obtain ⟨few, resting⟩ := linked.resting quiet still
  have old := linked.tail_le
  have count := linked.count
  have half := B.le_half
  have out : (popped k).length = t.tail := by
    rw [popped_run room below, List.length_map, List.length_take]
    exact Nat.min_eq_left old
  have occupied : t.image.outstanding = t.head - t.tail :=
    Counter.toNat_sub (by omega) (by omega)
  rw [accepted_image, popped_image, issued_image, occupied, accepted_length below quiet, out]
  have fits : (((issued k).drop t.tail).map Prod.snd).length ≤ B.val := by
    rw [List.length_map, List.length_drop]
    omega
  have holds : Holds t.image ⟨_, fits⟩ := ⟨t.tail, resting⟩
  refine ⟨by omega, by omega, ⟨_, fits⟩, rfl, ?_⟩
  intro calls
  obtain ⟨u, performed, _⟩ := SeqObject.performAll_answers (fifo T B.val) Call.queue Holds
    (fun s q c holds => holds.serve (E := E) c) calls holds
  exact ⟨u, performed⟩

def crossed : List (Action Nat 2) :=
  [.push 0 5, .producer 0, .push 1 6, .producer 1, .producer 1, .producer 0,
    .producer 0, .producer 0, .producer 0, .producer 1, .producer 1, .producer 1]

theorem crossed_fifo :
    let M := machine twoSlots.sizeT ⟨0, id⟩ 2
    ∃ s, M.exec M.init crossed = some s ∧ s.outstanding ≤ 2 ∧
      (accepted (M.steps M.init crossed)).length =
        (popped (M.steps M.init crossed)).length + s.outstanding := by
  intro M
  have ran : (M.exec M.init crossed).isSome = true := by decide
  obtain ⟨few, count, _⟩ := quiescent_fifo (.inl (by decide)) (Machine.run_get ran)
    (by decide +revert) (by decide +revert)
  exact ⟨_, (Option.some_get ran).symm, few, count⟩

end Mpsc
