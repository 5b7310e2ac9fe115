import FuTrader.Channel.Admission
import FuTrader.Channel.Calls

/- notify_one wakes one thread, whichever. Several producers can be parked on one
   slot, and the one woken need not be the one whose turn it is. -/
namespace Mpsc
variable {T : Type} {B : BufSize} {P : Nat}

def noSpurious : Action T P → Bool
  | .spurious _ => false
  | _ => true

/-- A producer is parked on a slot that is at its turn, and no notify_one is due. -/
def LostWakeUp {κ : Type} (C : Counters κ B) (s : State κ T B P) : Prop :=
  (∀ k pos value, s.consumer ≠ .notifyOne k pos value) ∧
    ∃ i u pos old, s.producer i = .parked u pos old ∧ (s.buffer (C.slot pos)).seq = pos

def Due (s : State Nat T B P) : Prop :=
  ∀ i u p old, s.producer i = .parked u p old →
    (s.buffer (TicketRing.slot B.val p)).seq = p →
    ∃ k pos value, s.consumer = .notifyOne k pos value ∧ p = pos + B.val

/-- Few enough producers, or as many as one more than slots with one kept behind. -/
def Few (s : State Nat T B P) : Prop := P ≤ B.val ∨ P = B.val + 1 ∧ Admitted s

theorem Linked.sole_waiter {log : List (Fin P × T)} {s : State Nat T B P}
    (linked : Linked log s) (few : Few s) {k : Overload} {pos : Nat} {value : T}
    (pc : s.consumer = .notifyOne k pos value) {i j : Fin P} {q : Nat}
    (first : (s.producer i).ticket = some (pos + B.val)) (other : (s.producer j).ticket = some q)
    (same : TicketRing.slot B.val q = TicketRing.slot B.val pos) : j = i := by
  have ok := linked.consumer
  rw [pc] at ok
  obtain ⟨rfl, _⟩ := ok
  have freed : s.freed = s.tail + 1 := by simp [State.freed, pc]
  have floor : s.freed ≤ q := linked.ring.floor other
  have less := linked.ticket_lt other
  have lap := Counter.next_lap (show s.tail < q by omega) (TicketRing.slot_eq_iff.mp same).symm
  by_contra apart
  have later : s.tail + B.val < q := by
    by_contra near
    obtain rfl : q = s.tail + B.val := by omega
    exact apart (TicketRing.holder_unique linked.ring other first)
  have again := Counter.next_lap later (by
    rw [Nat.add_mod_right]
    exact (TicketRing.slot_eq_iff.mp same).symm)
  have outside : ∀ {l : Fin P} {v r : Nat}, (s.producer l).Behind v → v ≤ s.tail + B.val →
      (s.producer l).ticket = some r → s.freed + B.val ≤ r → False := by
    intro l v r behind high holds beyond
    have := behind_ticket behind holds
    omega
  have ahead : ∀ {r : Nat}, (s.producer i).ticket = some r → s.freed + B.val ≤ r → False := by
    intro r holds beyond
    obtain rfl := Option.some.inj (first.symm.trans holds)
    omega
  rcases few with fewer | ⟨one, admitted⟩
  · have bound := TicketRing.issued_le linked.ring (Finset.univ.erase i) (by
      intro l r holds beyond
      refine Finset.mem_erase.mpr ⟨?_, Finset.mem_univ l⟩
      rintro rfl
      exact ahead holds beyond)
    rw [Finset.card_erase_of_mem (Finset.mem_univ i), Finset.card_univ, Fintype.card_fin] at bound
    change log.length ≤ s.freed + B.val + (P - 1) at bound
    rw [linked.count] at bound
    have := B.two_le
    omega
  · have size := B.two_le
    obtain ⟨y, behind⟩ := admitted.behind (s.tail + B.val - 1) (by omega) (by omega)
    have distinct : y ≠ i := by
      rintro rfl
      have := behind_ticket behind first
      omega
    have bound := TicketRing.issued_le linked.ring ((Finset.univ.erase i).erase y) (by
      intro l r holds beyond
      refine Finset.mem_erase.mpr ⟨?_, Finset.mem_erase.mpr ⟨?_, Finset.mem_univ l⟩⟩
      · rintro rfl
        exact outside behind (by omega) holds beyond
      · rintro rfl
        exact ahead holds beyond)
    rw [Finset.card_erase_of_mem (Finset.mem_erase.mpr ⟨distinct, Finset.mem_univ y⟩),
      Finset.card_erase_of_mem (Finset.mem_univ i), Finset.card_univ, Fintype.card_fin] at bound
    change log.length ≤ s.freed + B.val + (P - 1 - 1) at bound
    rw [linked.count] at bound
    omega

/-! Each step keeps `Due`. -/

theorem Due.not_due {s : State Nat T B P} (due : Due s)
    (elsewhere : ∀ k pos value, s.consumer ≠ .notifyOne k pos value) {i : Fin P} {u : T}
    {p old : Nat} (parked : s.producer i = .parked u p old) :
    (s.buffer (TicketRing.slot B.val p)).seq ≠ p := by
  intro turn
  obtain ⟨k, pos, value, pc, _⟩ := due i u p old parked turn
  exact elsewhere k pos value pc

theorem Due.setProducer {s : State Nat T B P} (due : Due s) {i : Fin P} {p : Producer Nat T}
    (early : ∀ u q old, p = .parked u q old → (s.buffer (TicketRing.slot B.val q)).seq ≠ q) :
    Due (s.setProducer i p) := by
  intro j u q old parked turn
  by_cases here : j = i
  · subst here
    exact absurd turn (early u q old (by simpa using parked))
  · exact due j u q old (by simpa [here] using parked) turn

theorem Due.setConsumer {s : State Nat T B P} (due : Due s) {c : Consumer Nat T}
    (elsewhere : ∀ k pos value, s.consumer ≠ .notifyOne k pos value) : Due (s.setConsumer c) :=
  fun _ _ _ _ parked turn => absurd turn (due.not_due elsewhere parked)

theorem Due.step {log : List (Fin P × T)} {E : Element T} {s t : State Nat T B P}
    {a : Action T P} (linked : Linked log s) (few : Few s) (due : Due s)
    (step : Step B.unbounded E s a t) : Due t := by
  cases step with
  | push i u pc | refuse i u curHead pc full | pass i u curHead pc room
  | ticket i u curHead curTail pc | turn i u pos pc now | busy i u pos pc other
  | changed i u pos seqVal pc other | spurious i u pos seqVal pc =>
    exact due.setProducer (by rintro _ _ _ ⟨⟩)
  | park i u pos seqVal pc same =>
    apply due.setProducer
    rintro _ _ _ ⟨⟩
    have ok := linked.producers i
    rw [pc] at ok
    change (s.buffer (TicketRing.slot B.val pos)).seq = seqVal at same
    rw [same]
    exact Nat.ne_of_lt ok.2.1
  | write i u pos pc =>
    refine Due.setProducer (s := s.setSlot _ _) ?_ (by rintro _ _ _ ⟨⟩)
    intro j v q old parked turn
    apply due j v q old parked
    by_cases here : TicketRing.slot B.val q = TicketRing.slot B.val pos <;>
      simpa [here] using turn
  | publish i u pos pc =>
    refine Due.setProducer (s := s.setSlot _ _) ?_ (by rintro _ _ _ ⟨⟩)
    intro j v q old parked turn
    by_cases here : TicketRing.slot B.val q = TicketRing.slot B.val pos
    · have next : pos + 1 = q := by simpa [here] using turn
      have apart := Counter.succ_mod_ne B.two_le (n := pos)
      rw [next] at apart
      exact absurd (TicketRing.slot_eq_iff.mp here) apart
    · exact due j v q old parked (by simpa [here] using turn)
  | pop k pc | empty k pos pc other | ready k pos pc filled =>
    exact due.setConsumer (by simp [pc])
  | read k pos pc =>
    intro j v q old parked turn
    refine absurd ?_ (due.not_due (by simp [pc]) parked)
    by_cases here : TicketRing.slot B.val q = TicketRing.slot B.val pos <;>
      simpa [here] using turn
  | free k pos value pc =>
    intro j v q old parked turn
    by_cases here : TicketRing.slot B.val q = TicketRing.slot B.val pos
    · exact ⟨k, pos, value, rfl, by simpa [here, eq_comm] using turn⟩
    · exact absurd (by simpa [here] using turn) (due.not_due (by simp [pc]) parked)
  | nobody k pos value pc none =>
    intro j v q old parked turn
    obtain ⟨k', pos', value', pc', next⟩ := due j v q old parked turn
    rw [pc] at pc'
    cases pc'
    have missed := none j
    rw [setConsumer_producer] at parked
    simp [ParkedOn, parked, next, TicketRing.slot_eq_iff] at missed
  | wake i k pos value u ticket seqVal pc parked same =>
    intro j v q old still turn
    by_cases here : j = i
    · subst here
      simp at still
    · have before : s.producer j = .parked v q old := by simpa [here] using still
      obtain ⟨k', pos', value', pc', next⟩ := due j v q old before turn
      rw [pc] at pc'
      cases pc'
      exact absurd (linked.sole_waiter few pc (by rw [before, ← next]; rfl)
        (by rw [parked]; rfl) same) (Ne.symm here)
  | advance k pos value pc => exact due.setConsumer (by simp [pc])

theorem due_init (E : Element T) : Due (init B.unbounded E P) := by
  intro i u p old parked
  cases parked

theorem few_reachable {E : Element T} (few : P ≤ B.val + 1) (half : P ≤ 2 ^ 63)
    {s : State Nat T B P} (reach : (machine B.unbounded E P).Reachable s) : Few s := by
  by_cases fewer : P ≤ B.val
  · exact Or.inl fewer
  · have room : B.val + P < 2 ^ 64 := by
      obtain ⟨k, less, power⟩ := B.power
      have : B.val < 2 ^ 63 := by omega
      omega
    exact Or.inr ⟨by omega, admitted_reachable room reach⟩

theorem due_reachable {E : Element T} (few : P ≤ B.val + 1) (half : P ≤ 2 ^ 63)
    {s : State Nat T B P} (reach : (machine B.unbounded E P).Reachable s) : Due s := by
  have size := B.le_half
  apply Machine.Reachable.invariant (M := machine B.unbounded E P) Due (due_init E) ?_ reach
  intro s a t ⟨h, run⟩ due step
  exact due.step (linked_run (.inl (by omega)) run) (few_reachable few half run.reachable)
    (step_cases step)

theorem not_lost {E : Element T} (few : P ≤ B.val + 1) (half : P ≤ 2 ^ 63)
    {s : State SizeT T B P} (reach : (machine B.sizeT E P).Reachable s) :
    ¬ LostWakeUp B.sizeT s := by
  have size := B.le_half
  obtain ⟨log, t, below, linked, rfl⟩ := sizeT_reachable (by omega) reach
  have bound := linked.head_le
  rintro ⟨elsewhere, i, u, pos, old, parked, turn⟩
  cases pc : t.producer i with
  | parked v p seqVal =>
    rw [image_producer, pc] at parked
    cases parked
    rw [sizeT_slot, image_buffer, image_seq,
      linked.turn_iff (by omega) (show (t.producer i).ticket = some p by rw [pc]; rfl)] at turn
    obtain ⟨k, q, value, now, _⟩ := due_reachable few half below i _ _ _ pc turn
    exact elsewhere k (BitVec.ofNat 64 q) value (by rw [image_consumer, now]; rfl)
  | _ => simp [pc, Producer.image] at parked

/-! The run that loses a wake-up: the buffer is filled, one more producer than it has
    slots draws tickets, and of the two parked on slot 0 the later one is woken. -/

section
variable (B P) (E : Element T)

abbrev quiet : Machine (State SizeT T B P) (Action T P) := (machine B.sizeT E P).restrict noSpurious

/-- Nothing popped yet: the first `full` slots hold a value. -/
def crowd (head full : Nat) (producer : Fin P → Producer SizeT T) : State SizeT T B P where
  head := BitVec.ofNat 64 head
  tail := BitVec.ofNat 64 0
  buffer k := ⟨BitVec.ofNat 64 (if k.val < full then k.val + 1 else k.val), E.init⟩
  producer := producer
  consumer := .idle

/-- Of the first `m` producers, which all passed the check at once, `j` have drawn a ticket. -/
def crowded (m j : Nat) (i : Fin P) : Producer SizeT T :=
  if i.val < j then .loadSeq E.init (BitVec.ofNat 64 (B.val + i.val))
  else if i.val < m then .fetchAdd E.init 0 0
  else .idle

end

section
variable {E : Element T}

theorem leads_quiet {s t : State SizeT T B P} {as : List (Action T P)}
    (awake : ∀ a ∈ as, noSpurious a = true) (ran : (machine B.sizeT E P).exec s as = some t) :
    (quiet B P E).Leads s t :=
  Machine.Leads.of_exec (by rw [Machine.exec_restrict awake]; exact ran)

theorem init_crowd : init B.sizeT E P = crowd B P E 0 0 (crowded B P E 0 0) := by
  have idle : crowded B P E 0 0 = fun _ => .idle := by
    funext i
    simp [crowded]
  simp [init, crowd, idle, BufSize.sizeT]

theorem crowded_passed {m : Nat} (less : m < P) :
    Function.update (crowded B P E m 0) ⟨m, less⟩ (.fetchAdd E.init 0 0) =
      crowded B P E (m + 1) 0 := by
  funext i
  by_cases here : i = ⟨m, less⟩
  · subst here
    simp [crowded]
  · have other : i.val ≠ m := fun same => here (Fin.ext same)
    rw [Function.update_of_ne here]
    simp only [crowded, Nat.not_lt_zero, if_false]
    congr 1
    exact propext (by omega)

theorem crowded_drawn {m j : Nat} (less : j < P) :
    Function.update (crowded B P E m j) ⟨j, less⟩
        (.loadSeq E.init (BitVec.ofNat 64 (B.val + j))) = crowded B P E m (j + 1) := by
  funext i
  by_cases here : i = ⟨j, less⟩
  · subst here
    simp [crowded]
  · have other : i.val ≠ j := fun same => here (Fin.ext same)
    rw [Function.update_of_ne here]
    simp only [crowded]
    congr 1
    exact propext (by omega)

theorem leads_passed {m : Nat} (le : m ≤ P) :
    (quiet B P E).Leads (init B.sizeT E P) (crowd B P E 0 0 (crowded B P E m 0)) := by
  rw [init_crowd]
  apply Machine.leads_rounds (fun j => crowd B P E 0 0 (crowded B P E j 0)) m
  intro j less
  have slots := B.two_le
  have idle : crowded B P E j 0 ⟨j, by omega⟩ = .idle := by simp [crowded]
  have pass := exec_pass (C := B.sizeT) (E := E) (s := crowd B P E 0 0 (crowded B P E j 0)) E.init
    idle (by
      change B.sizeT.full (BitVec.ofNat 64 0) (BitVec.ofNat 64 0) = false
      rw [sizeT_full (Nat.le_refl 0) (by decide)]
      exact decide_eq_false (by omega))
  rw [← crowded_passed (show j < P by omega)]
  exact leads_quiet (by simp [noSpurious]) pass

theorem leads_filled {producer : Fin P → Producer SizeT T} {w : Fin P}
    (idle : producer w = .idle) :
    (quiet B P E).Leads (crowd B P E 0 0 producer) (crowd B P E B.val B.val producer) := by
  apply Machine.leads_rounds (fun j => crowd B P E j j producer) B.val
  intro j less
  have half := B.le_half
  have place : TicketRing.slot B.val j = ⟨j, less⟩ := Fin.ext (Nat.mod_eq_of_lt less)
  have pushed := exec_whole_push (C := B.sizeT) (E := E) (s := crowd B P E j j producer)
    (i := w) E.init idle
    (by
      change B.sizeT.full (BitVec.ofNat 64 j) (BitVec.ofNat 64 0) = false
      rw [sizeT_full (by omega) (by omega)]
      exact decide_eq_false (by omega))
    (by simp [crowd, place])
  have next : (crowd B P E j j producer).pushed B.sizeT E.init =
      crowd B P E (j + 1) (j + 1) producer := by
    have buffer : Function.update (crowd B P E j j producer).buffer ⟨j, less⟩
        ⟨BitVec.ofNat 64 (j + 1), E.init⟩ = (crowd B P E (j + 1) (j + 1) producer).buffer := by
      funext k
      by_cases here : k = ⟨j, less⟩
      · subst here
        simp [crowd]
      · have other : k.val ≠ j := fun same => here (Fin.ext same)
        rw [Function.update_of_ne here]
        simp only [crowd]
        congr 3
        exact propext (by omega)
    change { (crowd B P E j j producer).setSlot (B.sizeT.slot (BitVec.ofNat 64 j))
      ⟨B.sizeT.succ (BitVec.ofNat 64 j), E.init⟩ with
        head := B.sizeT.succ (BitVec.ofNat 64 j) } = crowd B P E (j + 1) (j + 1) producer
    rw [sizeT_slot, sizeT_succ, place, State.setSlot, buffer]
    rfl
  rw [next] at pushed
  exact leads_quiet (by simp [wholePush, noSpurious]) pushed

theorem leads_ticket {producer : Fin P → Producer SizeT T} {head : Nat} {i : Fin P} {u : T}
    {curHead curTail : SizeT} (pc : producer i = .fetchAdd u curHead curTail) :
    (quiet B P E).Leads (crowd B P E head B.val producer)
      (crowd B P E (head + 1) B.val
        (Function.update producer i (.loadSeq u (BitVec.ofNat 64 head)))) := by
  have awake : ∀ a ∈ [(Action.producer i : Action T P)], noSpurious a = true := by simp [noSpurious]
  apply leads_quiet (E := E) awake
  simp only [Machine.exec, machine, step, producerStep, crowd, pc, Option.bind_some, sizeT_succ]
  rfl

theorem leads_crowded {m : Nat} (all : B.val ≤ m) (le : m ≤ P) :
    (quiet B P E).Leads (crowd B P E B.val B.val (crowded B P E m 0))
      (crowd B P E (B.val + B.val) B.val (crowded B P E m B.val)) := by
  refine Machine.leads_rounds
    (fun j => crowd B P E (B.val + j) B.val (crowded B P E m j)) B.val fun j less => ?_
  have pc : crowded B P E m j ⟨j, by omega⟩ = .fetchAdd E.init 0 0 := by
    simp [crowded]
    omega
  have drawn : (quiet B P E).Leads (crowd B P E (B.val + j) B.val _) _ := leads_ticket pc
  rwa [crowded_drawn (show j < P by omega)] at drawn

/-- Two producers wait for the oldest slot, the second not for this turn, and the second
    is woken. -/
theorem lost_of_waiting {s : State SizeT T B P} (idle : s.consumer = .idle)
    (filled : (s.buffer (B.sizeT.slot s.tail)).seq = B.sizeT.succ s.tail) {x y : Fin P} {u v : T}
    {q : SizeT} (distinct : y ≠ x) (first : s.producer x = .loadSeq u (B.sizeT.lap s.tail))
    (later : s.producer y = .loadSeq v q)
    (lap : B.sizeT.slot (B.sizeT.lap s.tail) = B.sizeT.slot s.tail)
    (same : B.sizeT.slot q = B.sizeT.slot s.tail)
    (early : B.sizeT.succ s.tail ≠ B.sizeT.lap s.tail) (earlier : B.sizeT.succ s.tail ≠ q) :
    ∃ t, (quiet B P E).Leads s t ∧ LostWakeUp B.sizeT t := by
  have parkx := exec_park (C := B.sizeT) (E := E) first (by rw [lap, filled]; exact early)
  rw [lap, filled] at parkx
  have parky := exec_park (C := B.sizeT) (E := E)
    (s := s.setProducer x (.parked u (B.sizeT.lap s.tail) (B.sizeT.succ s.tail))) (i := y)
    (by simpa [distinct] using later) (by rw [same, setProducer_buffer, filled]; exact earlier)
  rw [same, setProducer_buffer, filled] at parky
  have woken := exec_pop_wake (C := B.sizeT) (E := E)
    (s := (s.setProducer x (.parked u (B.sizeT.lap s.tail) (B.sizeT.succ s.tail))).setProducer y
      (.parked v q (B.sizeT.succ s.tail)))
    (i := y) (u := v) .optional idle filled (Function.update_self _ _ _) same
  refine ⟨_, ((leads_quiet (by simp [noSpurious]) parkx).trans
    (leads_quiet (by simp [noSpurious]) parky)).trans (leads_quiet (by simp [noSpurious]) woken),
    ?_, x, u, B.sizeT.lap s.tail, B.sizeT.succ s.tail, ?_, ?_⟩
  · simp
  · simp [distinct.symm]
  · simp [lap]

theorem crowd_lost {m : Nat} {y : Fin P} {curHead curTail : SizeT} (last : B.val ≤ y.val)
    (passed : (quiet B P E).Leads (crowd B P E (B.val + B.val) B.val (crowded B P E m B.val))
      (crowd B P E (B.val + B.val) B.val
        (Function.update (crowded B P E m B.val) y (.fetchAdd E.init curHead curTail)))) :
    ∃ t, (quiet B P E).Leads (crowd B P E (B.val + B.val) B.val (crowded B P E m B.val)) t ∧
      LostWakeUp B.sizeT t := by
  have slots := B.two_le
  have half := B.le_half
  have drawn := passed.trans (leads_ticket (Function.update_self _ _ _))
  rw [Function.update_idem] at drawn
  have slot0 : TicketRing.slot B.val 0 = 0 := Fin.ext (Nat.zero_mod _)
  have slot1 : TicketRing.slot B.val B.val = 0 := Fin.ext (by simp [TicketRing.slot])
  have slot2 : TicketRing.slot B.val (B.val + B.val) = 0 := Fin.ext (by simp [TicketRing.slot])
  have some : 0 < B.val := by omega
  have distinct : y ≠ ⟨0, by omega⟩ := fun same => by
    rw [same] at last
    exact absurd last (Nat.not_le_of_lt some)
  obtain ⟨t, path, lost⟩ := lost_of_waiting (E := E) (s := crowd B P E (B.val + B.val + 1) B.val
      (Function.update (crowded B P E m B.val) y (.loadSeq E.init (BitVec.ofNat 64 (B.val + B.val)))))
    (x := ⟨0, by omega⟩) (y := y) (u := E.init) (v := E.init) rfl
    (by simp [crowd, slot0]) distinct (by simp [crowd, distinct.symm, crowded, some])
    (Function.update_self _ _ _)
    (by simp [crowd, slot0, slot1]) (by simp [crowd, slot0, slot2])
    (by
      simp only [crowd, sizeT_succ, sizeT_lap]
      rw [Ne, Counter.ofNat_eq_iff (by omega) (by omega)]
      omega)
    (by
      simp only [crowd, sizeT_succ]
      rw [Ne, Counter.ofNat_eq_iff (by omega) (by omega)]
      omega)
  exact ⟨t, drawn.trans path, lost⟩

/-- With two producers more than slots, or beyond 2^63 of them, a wake-up is lost. -/
theorem lost_of_many (E : Element T) (many : B.val + 1 < P ∨ 2 ^ 63 < P) :
    ∃ s, (quiet B P E).Reachable s ∧ LostWakeUp B.sizeT s := by
  have slots := B.two_le
  have half := B.le_half
  have reach : ∀ (m : Nat) (w : Fin P), B.val ≤ m → m ≤ w.val → (quiet B P E).Reachable
      (crowd B P E (B.val + B.val) B.val (crowded B P E m B.val)) := by
    intro m w all outside
    have below := w.isLt
    have idle : crowded B P E m 0 w = .idle := by
      simp [crowded]
      omega
    exact (((quiet B P E).reachable_init.leads (leads_passed (m := m) (by omega))).leads
      (leads_filled idle)).leads (leads_crowded all (by omega))
  by_cases two : B.val + 1 < P
  · have inside : B.val < P := by omega
    have stays : Function.update (crowded B P E (B.val + 1) B.val) ⟨B.val, inside⟩
        (.fetchAdd E.init 0 0) = crowded B P E (B.val + 1) B.val :=
      Function.update_eq_self_iff.mpr (by simp [crowded])
    obtain ⟨t, path, lost⟩ := crowd_lost (P := P) (E := E) (m := B.val + 1) (y := ⟨B.val, inside⟩)
      (Nat.le_refl _) (by rw [stays]; exact .refl)
    exact ⟨t, (reach (B.val + 1) ⟨B.val + 1, two⟩ (by omega) (Nat.le_refl _)).leads path, lost⟩
  · have whole : B.val + B.val = 2 ^ 64 := by omega
    -- after 2^64 tickets the check of one more producer sees an empty queue
    have pass := exec_pass (C := B.sizeT) (E := E) (i := ⟨B.val, by omega⟩)
      (s := crowd B P E (B.val + B.val) B.val (crowded B P E B.val B.val)) E.init
      (by simp [crowd, crowded]) (by
        rw [whole]
        change B.sizeT.full (BitVec.ofNat 64 0) (BitVec.ofNat 64 0) = false
        rw [sizeT_full (Nat.le_refl 0) (by decide)]
        exact decide_eq_false (by omega))
    obtain ⟨t, path, lost⟩ := crowd_lost (E := E) (m := B.val) (y := ⟨B.val, by omega⟩)
      (Nat.le_refl _) (leads_quiet (by simp [noSpurious]) pass)
    exact ⟨t, (reach B.val ⟨B.val, by omega⟩ (Nat.le_refl _) (Nat.le_refl _)).leads path, lost⟩

end

/-- No wake-up is lost, in any run without spurious ones, exactly when there is at most
    one producer more than slots; at 2^63 slots the wrap costs that one more. -/
theorem no_lost_wakeUp_iff (E : Element T) :
    (∀ s, ((machine B.sizeT E P).restrict noSpurious).Reachable s → ¬ LostWakeUp B.sizeT s) ↔
      P ≤ B.val + 1 ∧ P ≤ 2 ^ 63 := by
  constructor
  · intro never
    by_contra bound
    obtain ⟨s, reach, lost⟩ := lost_of_many (B := B) (P := P) E (by omega)
    exact never s reach lost
  · intro ⟨few, half⟩ s reach
    exact not_lost few half reach.of_restrict

theorem four_lose_wakeUp : ¬ ∀ s,
    ((machine twoSlots.sizeT (⟨0, id⟩ : Element Nat) 4).restrict noSpurious).Reachable s →
      ¬ LostWakeUp twoSlots.sizeT s := by
  intro never
  obtain ⟨s, reach, lost⟩ :=
    lost_of_many (B := twoSlots) (P := 4) (⟨0, id⟩ : Element Nat) (Or.inl (by decide))
  exact never s reach lost

end Mpsc
