import FuTrader.Channel.Delivery
import FuTrader.Channel.Wakeup
import FuTrader.Lib.Fair

/- With no more producers than one more than slots, every value that has a ticket is popped and
   every push returns, if the consumer goes on popping and no thread is held up for ever. The
   thread to wait for is the one with the oldest ticket, and then the consumer. -/
namespace Mpsc
variable {T : Type} {B : BufSize} {P : Nat}

/- Whose step it is. Nobody has to call push, and nobody has to wake up without reason. -/
inductive Thread (P : Nat) where
  | producer (i : Fin P)
  | consumer
  | outside

def Action.thread : Action T P → Thread P
  | .producer i => .producer i
  | .pop _ | .consumer | .wake _ => .consumer
  | .push _ _ | .spurious _ => .outside

def Unpublished (s : State Nat T B P) : Prop :=
  (s.buffer (TicketRing.slot B.val s.tail)).seq = s.tail

instance (s : State Nat T B P) : Decidable (Unpublished s) :=
  inferInstanceAs (Decidable ((s.buffer (TicketRing.slot B.val s.tail)).seq = s.tail))

def State.holder (s : State Nat T B P) : Option (Fin P) :=
  (List.finRange P).find? fun i => (s.producer i).ticket = some s.tail

def Producer.phase {κ : Type} : Producer κ T → Nat
  | .wait _ _ _ => 5
  | .loadSeq _ _ => 4
  | .writeData _ _ => 3
  | .storeSeq _ _ => 2
  | _ => 0

def Consumer.phase {κ : Type} : Consumer κ T → Nat
  | .idle => 6
  | .loadSeq _ _ => 5
  | .readData _ _ => 4
  | .storeSeq _ _ _ => 3
  | .notifyOne _ _ _ => 2
  | .storeTail _ _ _ => 1

def helpful (s : State Nat T B P) : Thread P :=
  if Unpublished s then (s.holder.map Thread.producer).getD .consumer else .consumer

def stepsLeft (s : State Nat T B P) : Nat :=
  if Unpublished s then 10 + (s.holder.map fun i => (s.producer i).phase).getD 0
  else s.consumer.phase

/-- The values still to be popped before `n` are out count first. -/
def rank (n : Nat) (s : State Nat T B P) : Nat := 20 * (n - s.tail) + stepsLeft s

section
variable {log more : List (Fin P × T)} {s t : State Nat T B P} {a : Action T P} {i : Fin P}

theorem Linked.holder (linked : Linked log s) (holds : (s.producer i).ticket = some s.tail) :
    s.holder = some i := by
  cases found : s.holder with
  | none =>
    have nobody := List.find?_eq_none.mp found i (List.mem_finRange i)
    simp [holds] at nobody
  | some j =>
    have other := List.find?_some found
    rw [TicketRing.holder_unique linked.ring (show (s.producer j).ticket = some s.tail by
      simpa using other) holds]

theorem Linked.helpful_producer (linked : Linked log s) (unpublished : Unpublished s)
    (holds : (s.producer i).ticket = some s.tail) :
    helpful s = .producer i ∧ stepsLeft s = 10 + (s.producer i).phase := by
  simp [helpful, stepsLeft, unpublished, linked.holder holds]

theorem helpful_consumer (published : ¬ Unpublished s) :
    helpful s = .consumer ∧ stepsLeft s = s.consumer.phase := by
  simp [helpful, stepsLeft, published]

theorem Linked.unpublished (linked : Linked log s) (unpublished : Unpublished s) :
    s.consumer = .idle ∨ ∃ k, s.consumer = .loadSeq k s.tail := by
  have ok := linked.consumer
  have past : s.freed ≠ s.tail + 1 := by
    intro freed
    have size := B.two_le
    have turn := linked.ring.turns (s.tail + B.val)
      (by change s.freed ≤ _; omega) (by change _ < s.freed + B.val; omega)
    have same : TicketRing.slot B.val (s.tail + B.val) = TicketRing.slot B.val s.tail :=
      TicketRing.slot_eq_iff.mpr (Nat.add_mod_right _ _)
    have seq : (s.buffer (TicketRing.slot B.val s.tail)).seq = s.tail := unpublished
    rcases turn with waits | ⟨filled, _⟩
    · have waits : (s.buffer (TicketRing.slot B.val (s.tail + B.val))).seq = s.tail + B.val := waits
      rw [same] at waits
      omega
    · have filled : (s.buffer (TicketRing.slot B.val (s.tail + B.val))).seq =
        s.tail + B.val + 1 := filled
      rw [same] at filled
      omega
  unfold Unpublished at unpublished
  cases pc : s.consumer with
  | idle => exact .inl rfl
  | loadSeq k pos =>
    rw [pc] at ok
    obtain rfl : pos = s.tail := ok
    exact .inr ⟨k, rfl⟩
  | readData k pos =>
    rw [pc] at ok
    obtain ⟨_, filled⟩ := ok
    omega
  | storeSeq k pos value =>
    rw [pc] at ok
    obtain ⟨_, filled, _⟩ := ok
    omega
  | notifyOne k pos value | storeTail k pos value => simp [State.freed, pc] at past

theorem Linked.unfreed (linked : Linked log s) (unpublished : Unpublished s) :
    s.freed = s.tail := by
  rcases linked.unpublished unpublished with pc | ⟨k, pc⟩ <;> simp [State.freed, pc]

theorem Linked.held (linked : Linked log s) (unpublished : Unpublished s) (some : s.tail < s.head) :
    ∃ i, (s.producer i).ticket = Option.some s.tail := by
  have freed := linked.unfreed unpublished
  rcases linked.ring.kept s.tail (Nat.le_of_eq freed) (by
    change s.tail < log.length
    rwa [linked.count]) with held | ⟨filled, _⟩
  · exact held
  · exact absurd unpublished (TicketRing.not_waits_of_filled filled)

/-! What a step does to the rank. -/

/-- Nearer to the next value, or as near as before with the same thread to wait for. -/
def Nearer (n : Nat) (s : State Nat T B P) (a : Action T P) (t : State Nat T B P) : Prop :=
  rank n t < rank n s ∨ rank n t = rank n s ∧ helpful t = helpful s ∧ a.thread ≠ helpful s

theorem Producer.phase_le {κ : Type} (p : Producer κ T) : p.phase ≤ 5 := by
  cases p <;> simp [Producer.phase]

theorem Consumer.phase_le {κ : Type} (c : Consumer κ T) : c.phase ≤ 6 := by
  cases c <;> simp [Consumer.phase]

theorem helpful_inside (s : State Nat T B P) : helpful s ≠ .outside := by
  unfold helpful
  split
  · cases s.holder <;> simp
  · simp

theorem stepsLeft_lt (s : State Nat T B P) : stepsLeft s < 16 := by
  unfold stepsLeft
  split
  · cases s.holder with
    | none => simp
    | some i =>
      have most := (s.producer i).phase_le
      simp only [Option.map_some, Option.getD_some]
      omega
  · have most := s.consumer.phase_le
    omega

section
variable {n : Nat}

theorem nearer_of_less (tail : t.tail = s.tail) (less : stepsLeft t < stepsLeft s) :
    Nearer n s a t := by
  left
  rw [rank, rank, tail]
  omega

theorem Linked.nearer_holder (linked : Linked log s) (next : Linked more t)
    (unpublished : Unpublished s) (holds : (s.producer i).ticket = some s.tail)
    (tail : t.tail = s.tail) (still : Unpublished t) (kept : (t.producer i).ticket = some s.tail)
    (less : (t.producer i).phase < (s.producer i).phase) : Nearer n s a t := by
  apply nearer_of_less tail
  rw [(linked.helpful_producer unpublished holds).2,
    (next.helpful_producer still (by rw [tail]; exact kept)).2]
  omega

theorem Linked.nearer_other (linked : Linked log s) (next : Linked more t)
    (unpublished : Unpublished s) (holds : (s.producer i).ticket = some s.tail)
    (other : a.thread ≠ .producer i) (tail : t.tail = s.tail)
    (seq : (t.buffer (TicketRing.slot B.val s.tail)).seq =
      (s.buffer (TicketRing.slot B.val s.tail)).seq)
    (kept : t.producer i = s.producer i) : Nearer n s a t := by
  have still : Unpublished t := by
    unfold Unpublished at *
    rw [tail, seq, unpublished]
  obtain ⟨helps, steps⟩ := linked.helpful_producer unpublished holds
  obtain ⟨helps', steps'⟩ := next.helpful_producer still (by rw [kept, tail]; exact holds)
  right
  rw [rank, rank, tail, steps, steps', helps, helps', kept]
  exact ⟨rfl, rfl, other⟩

theorem nearer_published (published : ¬ Unpublished s) (still : ¬ Unpublished t)
    (other : a.thread ≠ .consumer) (tail : t.tail = s.tail) (kept : t.consumer = s.consumer) :
    Nearer n s a t := by
  obtain ⟨helps, steps⟩ := helpful_consumer published
  obtain ⟨helps', steps'⟩ := helpful_consumer still
  right
  rw [rank, rank, tail, steps, steps', helps, helps', kept]
  exact ⟨rfl, rfl, other⟩

theorem nearer_consumer (published : ¬ Unpublished s) (still : ¬ Unpublished t)
    (tail : t.tail = s.tail) (less : t.consumer.phase < s.consumer.phase) : Nearer n s a t := by
  apply nearer_of_less tail
  rw [(helpful_consumer published).2, (helpful_consumer still).2]
  exact less

theorem Linked.turn_oldest (linked : Linked log s) (unpublished : Unpublished s)
    (holds : (s.producer i).ticket = some s.tail) {j : Fin P} {pos : Nat}
    (owns : (s.producer j).owned = some pos)
    (same : TicketRing.slot B.val pos = TicketRing.slot B.val s.tail) : j = i := by
  obtain ⟨ticket, turn⟩ := linked.owned_turn owns
  exact TicketRing.turn_exclusive linked.ring ticket turn holds unpublished same

theorem Linked.nearer_elsewhere (linked : Linked log s) {j : Fin P} {p : Producer Nat T}
    (next : Linked more (s.setProducer j p)) (unpublished : Unpublished s)
    (holds : (s.producer i).ticket = some s.tail) (other : j ≠ i)
    (thread : a.thread = .producer j ∨ a.thread = .outside) :
    Nearer n s a (s.setProducer j p) := by
  refine linked.nearer_other next unpublished holds ?_ rfl rfl (by simp [other.symm])
  rcases thread with same | same <;> simp [same, other]

theorem Linked.step_unpublished {E : Element T} (linked : Linked log s) (next : Linked more t)
    (due : Due s) (some : s.tail < s.head) (unpublished : Unpublished s)
    (step : Step B.unbounded E s a t) : Nearer n s a t := by
  obtain ⟨i, holds⟩ := linked.held unpublished some
  have seq : (s.buffer (TicketRing.slot B.val s.tail)).seq = s.tail := unpublished
  have waiting := linked.unpublished unpublished
  have oldest : ∀ {pos}, (s.producer i).ticket = Option.some pos → pos = s.tail :=
    fun ticket => Option.some.inj (ticket.symm.trans holds)
  cases step with
  | push j u pc | refuse j u curHead pc full | pass j u curHead pc room =>
    refine linked.nearer_elsewhere next unpublished holds ?_ (by simp [Action.thread])
    rintro rfl
    simp [pc, Producer.ticket] at holds
  | ticket j u curHead curTail pc =>
    have other : i ≠ j := by
      rintro rfl
      simp [pc, Producer.ticket] at holds
    exact linked.nearer_other next unpublished holds (by simp [Action.thread, other.symm])
      rfl rfl (by simp [other])
  | turn j u pos pc now =>
    by_cases other : j = i
    · subst other
      obtain rfl := oldest (by rw [pc]; rfl)
      exact linked.nearer_holder next unpublished holds rfl unpublished (by simp [Producer.ticket])
        (by simp [pc, Producer.phase])
    · exact linked.nearer_elsewhere next unpublished holds other (.inl rfl)
  | busy j u pos pc changed =>
    by_cases other : j = i
    · subst other
      obtain rfl := oldest (by rw [pc]; rfl)
      exact absurd seq changed
    · exact linked.nearer_elsewhere next unpublished holds other (.inl rfl)
  | park j u pos seqVal pc same =>
    by_cases other : j = i
    · subst other
      obtain rfl := oldest (by rw [pc]; rfl)
      -- it has loaded an older seq than its turn
      have ok := linked.producers j
      rw [pc] at ok
      obtain ⟨_, older, _⟩ := ok
      have same : (s.buffer (TicketRing.slot B.val s.tail)).seq = seqVal := same
      omega
    · exact linked.nearer_elsewhere next unpublished holds other (.inl rfl)
  | changed j u pos seqVal pc changed =>
    by_cases other : j = i
    · subst other
      obtain rfl := oldest (by rw [pc]; rfl)
      exact linked.nearer_holder next unpublished holds rfl unpublished (by simp [Producer.ticket])
        (by simp [pc, Producer.phase])
    · exact linked.nearer_elsewhere next unpublished holds other (.inl rfl)
  | spurious j u pos seqVal pc =>
    by_cases other : j = i
    · subst other
      obtain rfl := oldest (by rw [pc]; rfl)
      obtain ⟨k, pos, value, at_pc, _⟩ := due j u _ seqVal pc seq
      rcases waiting with idle | ⟨k, loads⟩
      · simp [idle] at at_pc
      · simp [loads] at at_pc
    · exact linked.nearer_elsewhere next unpublished holds other (.inr rfl)
  | write j u pos pc =>
    by_cases other : j = i
    · subst other
      obtain rfl := oldest (by rw [pc]; rfl)
      exact linked.nearer_holder next unpublished holds rfl (by simpa [Unpublished] using seq)
        (by simp [Producer.ticket]) (by simp [pc, Producer.phase])
    · refine linked.nearer_other next unpublished holds (by simp [Action.thread, other]) rfl ?_
        (by simp [Ne.symm other])
      by_cases same : TicketRing.slot B.val s.tail = TicketRing.slot B.val pos <;> simp [same]
  | publish j u pos pc =>
    by_cases other : j = i
    · subst other
      obtain rfl := oldest (by rw [pc]; rfl)
      refine nearer_of_less (s := s) rfl ?_
      have out : ¬ Unpublished ((s.setSlot (B.unbounded.slot s.tail)
          { s.buffer (B.unbounded.slot s.tail) with seq := B.unbounded.succ s.tail }).setProducer j
          .idle) := by
        simp [Unpublished]
      have most := s.consumer.phase_le
      rw [(helpful_consumer out).2, (linked.helpful_producer unpublished holds).2]
      change s.consumer.phase < _
      omega
    · refine linked.nearer_other next unpublished holds (by simp [Action.thread, other]) rfl ?_
        (by simp [Ne.symm other])
      have apart : TicketRing.slot B.val s.tail ≠ TicketRing.slot B.val pos := by
        intro same
        exact other (linked.turn_oldest unpublished holds (by rw [pc]; rfl) same.symm)
      simp [apart]
  | pop k pc | empty k pos pc other =>
    exact linked.nearer_other next unpublished holds (by simp [Action.thread]) rfl rfl rfl
  | ready k pos pc filled =>
    rcases waiting with idle | ⟨k', loads⟩
    · simp [idle] at pc
    · rw [loads] at pc
      cases pc
      rw [unbounded_slot, unbounded_succ, seq] at filled
      omega
  | read k pos pc | free k pos value pc | nobody k pos value pc none
  | wake j k pos value u ticket seqVal pc parked same | advance k pos value pc =>
    rcases waiting with idle | ⟨k', loads⟩
    · simp [idle] at pc
    · simp [loads] at pc

theorem Linked.stays_published {E : Element T} (linked : Linked log s)
    (published : ¬ Unpublished s) (step : Step B.unbounded E s a t)
    (other : a.thread ≠ .consumer) :
    ¬ Unpublished t ∧ t.tail = s.tail ∧ t.consumer = s.consumer := by
  unfold Unpublished at *
  cases step with
  | push j u pc | refuse j u curHead pc full | pass j u curHead pc room
  | ticket j u curHead curTail pc | turn j u pos pc now | busy j u pos pc changed
  | park j u pos seqVal pc same | changed j u pos seqVal pc changed | spurious j u pos seqVal pc =>
    exact ⟨published, rfl, rfl⟩
  | write j u pos pc =>
    refine ⟨?_, rfl, rfl⟩
    by_cases same : TicketRing.slot B.val s.tail = TicketRing.slot B.val pos <;>
      simpa [same] using published
  | publish j u pos pc =>
    refine ⟨?_, rfl, rfl⟩
    have floor : s.freed ≤ pos := linked.ring.floor (i := j) (by simp [toRing, pc, Producer.ticket])
    have older := tail_le_freed s
    by_cases same : TicketRing.slot B.val s.tail = TicketRing.slot B.val pos
    · simp only [setProducer_buffer, setSlot_buffer, setProducer_tail, setSlot_tail, unbounded_slot,
        unbounded_succ, same, Function.update_self]
      omega
    · simpa [same] using published
  | _ => exact absurd rfl other

theorem Linked.step_published {E : Element T} (linked : Linked log s) (some : s.tail < n)
    (published : ¬ Unpublished s) (step : Step B.unbounded E s a t) : Nearer n s a t := by
  by_cases consumer : a.thread = .consumer
  · have ok := linked.consumer
    have size := B.two_le
    cases step with
    | pop k pc =>
      exact nearer_consumer published published rfl (by simp [pc, Consumer.phase])
    | empty k pos pc other =>
      rw [pc] at ok
      obtain rfl : pos = s.tail := ok
      have freed : s.freed = s.tail := by simp [State.freed, pc]
      rcases linked.ring.turns s.tail (Nat.le_of_eq freed)
        (by change _ < s.freed + B.val; omega) with waits | ⟨filled, _⟩
      · exact absurd waits published
      · exact absurd filled other
    | ready k pos pc filled =>
      exact nearer_consumer published published rfl (by simp [pc, Consumer.phase])
    | read k pos pc =>
      refine nearer_consumer published ?_ rfl (by simp [pc, Consumer.phase])
      unfold Unpublished at *
      by_cases same : TicketRing.slot B.val s.tail = TicketRing.slot B.val pos <;>
        simpa [same] using published
    | free k pos value pc =>
      rw [pc] at ok
      obtain ⟨rfl, _⟩ := ok
      refine nearer_consumer published ?_ rfl (by simp [pc, Consumer.phase])
      simp only [Unpublished, setConsumer_buffer, setConsumer_tail, setSlot_buffer, setSlot_tail,
        unbounded_slot, unbounded_lap, Function.update_self]
      omega
    | nobody k pos value pc none =>
      exact nearer_consumer published published rfl (by simp [pc, Consumer.phase])
    | wake j k pos value u ticket seqVal pc parked same =>
      exact nearer_consumer published published rfl (by simp [pc, Consumer.phase])
    | advance k pos value pc =>
      rw [pc] at ok
      obtain ⟨rfl, _⟩ := ok
      have fewer := stepsLeft_lt ({ s with tail := s.tail + 1 }.setConsumer .idle)
      left
      change 20 * (n - (s.tail + 1)) + _ < 20 * (n - s.tail) + stepsLeft s
      change stepsLeft ({ s with tail := B.unbounded.succ s.tail }.setConsumer .idle) < 16 at fewer
      omega
    | _ => cases consumer
  · obtain ⟨still, tail, kept⟩ := linked.stays_published published step consumer
    exact nearer_published published still consumer tail kept

/-- A producer with the oldest ticket is not parked: it would be at its turn. -/
theorem Linked.holder_able (linked : Linked log s) (due : Due s) (unpublished : Unpublished s)
    (holds : (s.producer i).ticket = some s.tail) : (producerStep B.unbounded s i).isSome := by
  cases pc : s.producer i with
  | parked u pos seqVal =>
    rw [pc] at holds
    obtain rfl : pos = s.tail := Option.some.inj holds
    obtain ⟨k, pos, value, notifies, _⟩ := due i u _ seqVal pc unpublished
    rcases linked.unpublished unpublished with idle | ⟨k, loads⟩
    · simp [idle] at notifies
    · simp [loads] at notifies
  | loadSeq u pos | wait u pos seqVal =>
    simp only [producerStep, pc]
    split <;> rfl
  | writeData u pos | storeSeq u pos => simp [producerStep, pc]
  | _ => simp [pc, Producer.ticket] at holds

theorem wake_able {κ : Type} [DecidableEq κ] {C : Counters κ B} {s : State κ T B P}
    (E : Element T) {k : Overload} {pos : κ} {value : T} (pc : s.consumer = .notifyOne k pos value)
    {i : Fin P} (on : ParkedOn C s (C.slot pos) i = true) : (step C E s (.wake i)).isSome := by
  simp only [step, wakeStep, pc, on, if_true]
  cases parked : s.producer i <;> simp [ParkedOn, parked] at on
  simp [unpark, parked]

def woken {κ : Type} [DecidableEq κ] (C : Counters κ B) (s : State κ T B P) : Option (Fin P) :=
  match s.consumer with
  | .notifyOne _ pos _ => (List.finRange P).find? (ParkedOn C s (C.slot pos))
  | _ => none

section
variable {κ : Type} [DecidableEq κ] {C : Counters κ B} {s : State κ T B P} {i : Fin P}

theorem woken_able (E : Element T) (found : woken C s = some i) :
    (step C E s (.wake i)).isSome := by
  cases pc : s.consumer with
  | notifyOne k pos value =>
    rw [woken, pc] at found
    exact wake_able E pc (List.find?_some found)
  | _ => simp [woken, pc] at found

theorem woken_none (E : Element T) (nobody : woken C s = none) (i : Fin P) :
    step C E s (.wake i) = none := by
  cases pc : s.consumer with
  | notifyOne k pos value =>
    rw [woken, pc] at nobody
    have other := List.find?_eq_none.mp nobody i (List.mem_finRange i)
    simp [step, wakeStep, pc, other]
  | _ => simp [step, wakeStep, pc]

theorem pop_able (E : Element T) (runs : s.consumer ≠ .idle) (nobody : woken C s = none) :
    (step C E s .consumer).isSome := by
  cases pc : s.consumer with
  | idle => exact absurd pc runs
  | loadSeq k pos =>
    simp only [step, consumerStep, pc]
    split <;> rfl
  | notifyOne k pos value =>
    rw [woken, pc] at nobody
    have out : ¬ ∃ i, ParkedOn C s (C.slot pos) i = true := by
      rintro ⟨i, on⟩
      exact List.find?_eq_none.mp nobody i (List.mem_finRange i) on
    simp only [step, consumerStep, pc]
    rw [if_neg out]
    rfl
  | _ => simp [step, consumerStep, pc]

end

theorem consumer_able {κ : Type} [DecidableEq κ] (C : Counters κ B) (E : Element T)
    (s : State κ T B P) : ∃ a : Action T P, a.thread = .consumer ∧ (step C E s a).isSome := by
  by_cases idle : s.consumer = .idle
  · exact ⟨.pop .optional, rfl, by simp [step, popStep, idle]⟩
  · cases found : woken C s with
    | none => exact ⟨.consumer, rfl, pop_able E idle found⟩
    | some i => exact ⟨.wake i, rfl, woken_able E found⟩

theorem Linked.able {E : Element T} (linked : Linked log s) (due : Due s) (some : s.tail < s.head) :
    Machine.Forever.Enabled (machine B.unbounded E P) Action.thread s (helpful s) := by
  by_cases unpublished : Unpublished s
  · obtain ⟨i, holds⟩ := linked.held unpublished some
    rw [(linked.helpful_producer unpublished holds).1]
    exact ⟨.producer i, rfl, linked.holder_able due unpublished holds⟩
  · rw [(helpful_consumer unpublished).1]
    exact consumer_able B.unbounded E s

end

/-! Runs without end. -/

def Served (n : Nat) (s : State Nat T B P) : Prop := s.head < n ∨ n ≤ s.tail

theorem tail_reaches {E : Element T} (few : P ≤ B.val + 1) (half : P ≤ 2 ^ 63)
    (w : (machine B.unbounded E P).Forever) (fair : ∀ i, w.FairTo Action.thread (.producer i))
    (pops : w.FairTo Action.thread .consumer) (n : Nat) :
    ∃ m, n ≤ m ∧ (w.state n).head ≤ (w.state m).tail := by
  have size := B.le_half
  obtain ⟨m, later, served⟩ := w.reaches (Served (w.state n).head) (rank (w.state n).head) helpful
    (fun s => by
      have inside := helpful_inside s
      cases helps : helpful s with
      | producer i => exact fair i
      | consumer => exact pops
      | outside => exact absurd helps inside)
    (fun s reach short => by
      obtain ⟨h, run⟩ := reach
      have linked := linked_run (.inl (by omega)) run
      obtain ⟨enough, left⟩ := not_or.mp short
      exact linked.able (due_reachable few half run.reachable) (by omega))
    (fun s a t reach short step => by
      obtain ⟨h, run⟩ := reach
      have linked := linked_run (.inl (by omega)) run
      have next := linked_run (.inl (by omega)) (run.next step)
      have due := due_reachable few half run.reachable
      obtain ⟨enough, left⟩ := not_or.mp short
      right
      by_cases unpublished : Unpublished s
      · exact linked.step_unpublished next due (by omega) unpublished (step_cases step)
      · exact linked.step_published (by omega) unpublished (step_cases step)) n
  have count := (linked_run (.inl (by omega)) (w.run n)).count
  have count' := (linked_run (.inl (by omega)) (w.run m)).count
  have more : issued (w.history n) <+: issued (w.history m) := (w.history_prefix later).filterMap _
  exact ⟨m, later, served.resolve_left (by have := more.length_le; omega)⟩

theorem sizeT_sim {E : Element T} (fits : B.val + P ≤ 2 ^ 64) (s : State Nat T B P)
    (a : Action T P) (reach : (machine B.unbounded E P).Reachable s) :
    (machine B.sizeT E P).step s.image a =
      ((machine B.unbounded E P).step s a).map State.image := by
  obtain ⟨h, run⟩ := reach
  have linked := linked_run (.inl fits) run
  exact step_image linked (linked.near (.inl fits)) E a

theorem popped_reaches {E : Element T} (few : P ≤ B.val + 1) (half : P ≤ 2 ^ 63)
    (w : (machine B.sizeT E P).Forever) (fair : ∀ i, w.FairTo Action.thread (.producer i))
    (pops : w.FairTo Action.thread .consumer) (n : Nat) : ∃ m, n ≤ m ∧
      (issued (w.history n)).length ≤ (popped (w.history m)).length := by
  have size := B.le_half
  have sim := sizeT_sim (T := T) (B := B) (P := P) (E := E) (by omega)
  let v := w.lift (image_init E) sim
  obtain ⟨m, later, out⟩ := tail_reaches few half v (fun i => (fair i).lift) pops.lift n
  have same : ∀ k, w.history k = (v.history k).map (Prod.map State.image id) :=
    Machine.Forever.lift_history
  have count := (linked_run (.inl (by omega)) (v.run n)).count
  have more : issued (v.history n) <+: issued (v.history m) := (v.history_prefix later).filterMap _
  have enough : (issued (v.history n)).length ≤ (v.state m).tail := by omega
  refine ⟨m, later, ?_⟩
  rw [same n, same m, issued_image, popped_image, popped_run (.inl (by omega)) (v.run m),
    List.length_map, List.length_take]
  exact Nat.le_min.mpr ⟨enough, more.length_le⟩

/-! A push comes to its end. -/

def Producer.toTicket {κ : Type} : Producer κ T → Nat
  | .loadTail _ _ => 2
  | .fetchAdd _ _ _ => 1
  | _ => 0

def Drawn {κ : Type} (i : Fin P) (s : State κ T B P) : Prop :=
  s.producer i = .idle ∨ (s.producer i).ticket ≠ none

theorem Step.toTicket {κ : Type} [DecidableEq κ] {C : Counters κ B} {E : Element T}
    {s t : State κ T B P} {a : Action T P} (step : Step C E s a t) {i : Fin P}
    (short : ¬ Drawn i s) :
    Drawn i t ∨ (t.producer i).toTicket < (s.producer i).toTicket ∨
      (t.producer i).toTicket = (s.producer i).toTicket ∧ a.thread ≠ .producer i := by
  unfold Drawn at *
  cases step with
  | refuse j u curHead pc full | pass j u curHead pc room | ticket j u curHead curTail pc =>
    by_cases here : j = i
    · subst here
      simp [pc, Producer.toTicket, Producer.ticket]
    · simp [Ne.symm here, here, Action.thread]
  | push j u pc | turn j u pos pc now | busy j u pos pc changed
  | park j u pos seqVal pc same | changed j u pos seqVal pc changed | spurious j u pos seqVal pc
  | write j u pos pc | publish j u pos pc =>
    have other : j ≠ i := by
      rintro rfl
      simp [pc, Producer.ticket] at short
    simp [other.symm, other, Action.thread]
  | wake j k pos value u ticket seqVal pc parked same =>
    have other : j ≠ i := by
      rintro rfl
      simp [parked, Producer.ticket] at short
    simp [other.symm, Action.thread]
  | _ => simp [Action.thread]

theorem Step.keeps_ticket {E : Element T} {s t : State Nat T B P} {a : Action T P}
    (step : Step B.unbounded E s a t) {i : Fin P} {p : Nat}
    (holds : (s.producer i).ticket = some p) :
    t.producer i = .idle ∨ (t.producer i).ticket = some p := by
  cases step with
  | push j u pc | refuse j u curHead pc full | pass j u curHead pc room
  | ticket j u curHead curTail pc =>
    have other : j ≠ i := by
      rintro rfl
      simp [pc, Producer.ticket] at holds
    simp [other.symm, holds]
  | turn j u pos pc now | busy j u pos pc changed | park j u pos seqVal pc same
  | changed j u pos seqVal pc changed | spurious j u pos seqVal pc | write j u pos pc =>
    by_cases here : j = i
    · subst here
      rw [pc] at holds
      exact .inr (by simpa [Producer.ticket] using holds)
    · simp [Ne.symm here, holds]
  | publish j u pos pc =>
    by_cases here : j = i
    · simp [here]
    · simp [Ne.symm here, holds]
  | wake j k pos value u ticket seqVal pc parked same =>
    by_cases here : j = i
    · subst here
      rw [parked] at holds
      exact .inr (by simpa [Producer.ticket] using holds)
    · simp [Ne.symm here, holds]
  | _ => exact .inr holds

theorem drawn_able {κ : Type} [DecidableEq κ] {C : Counters κ B} {s : State κ T B P} {i : Fin P}
    (short : ¬ Drawn i s) : (producerStep C s i).isSome := by
  cases pc : s.producer i with
  | loadTail u curHead =>
    simp only [producerStep, pc]
    split <;> rfl
  | fetchAdd u curHead curTail => simp [producerStep, pc]
  | _ => simp [Drawn, pc, Producer.ticket] at short

theorem push_ends {E : Element T} (few : P ≤ B.val + 1) (half : P ≤ 2 ^ 63)
    (w : (machine B.unbounded E P).Forever) (fair : ∀ i, w.FairTo Action.thread (.producer i))
    (pops : w.FairTo Action.thread .consumer) (i : Fin P) (n : Nat) :
    ∃ m, n ≤ m ∧ (w.state m).producer i = .idle := by
  have size := B.le_half
  by_contra never
  obtain ⟨m, later, drawn⟩ := w.reaches (Drawn i) (fun s => (s.producer i).toTicket)
    (fun _ => Thread.producer i) (fun _ => fair i)
    (fun s _ short => ⟨.producer i, rfl, drawn_able short⟩)
    (fun s a t _ short step => by
      rcases (step_cases step).toTicket short with now | less | ⟨same, other⟩
      · exact .inl now
      · exact .inr (.inl less)
      · exact .inr (.inr ⟨same, rfl, other⟩)) n
  have inside : ∀ k, m ≤ k → (w.state k).producer i ≠ .idle :=
    fun k after idle => never ⟨k, Nat.le_trans later after, idle⟩
  obtain ⟨p, holds⟩ := Option.ne_none_iff_exists'.mp (drawn.resolve_left (inside m (Nat.le_refl m)))
  have kept : ∀ k, m ≤ k → ((w.state k).producer i).ticket = some p := by
    intro k after
    induction after with
    | refl => exact holds
    | @step k after ih =>
      cases taken : w.action k with
      | none => rwa [w.rests k taken]
      | some a =>
        have moved := step_cases (w.moves k a taken)
        exact (moved.keeps_ticket ih).resolve_left (inside (k + 1) (Nat.le_succ_of_le after))
  -- its value is popped while it still has the ticket
  obtain ⟨k, after, out⟩ := tail_reaches few half w fair pops m
  have issued := (linked_run (.inl (by omega)) (w.run m)).ticket_lt holds
  have floor : (w.state k).freed ≤ p :=
    (linked_run (.inl (by omega)) (w.run k)).ring.floor (i := i) (kept k after)
  have older := tail_le_freed (w.state k)
  omega

theorem push_reaches {E : Element T} (few : P ≤ B.val + 1) (half : P ≤ 2 ^ 63)
    (w : (machine B.sizeT E P).Forever) (fair : ∀ i, w.FairTo Action.thread (.producer i))
    (pops : w.FairTo Action.thread .consumer) (i : Fin P) (n : Nat) :
    ∃ m, n ≤ m ∧ (w.state m).producer i = .idle := by
  have size := B.le_half
  have sim := sizeT_sim (T := T) (B := B) (P := P) (E := E) (by omega)
  obtain ⟨m, later, idle⟩ := push_ends few half (w.lift (image_init E) sim)
    (fun i => (fair i).lift) pops.lift i n
  have same := (Machine.Forever.lifted_run (image_init E) sim w m).2
  refine ⟨m, later, ?_⟩
  rw [same, image_producer]
  exact congrArg Producer.image idle

/-- Every value that has got a ticket is popped in the end, in the order of the tickets, and
    every push returns. -/
theorem no_push_starves {E : Element T} (few : P ≤ B.val + 1) (half : P ≤ 2 ^ 63)
    (w : (machine B.sizeT E P).Forever) (fair : ∀ i, w.FairTo Action.thread (.producer i))
    (pops : w.FairTo Action.thread .consumer) (n : Nat) :
    (∃ m, n ≤ m ∧ (issued (w.history n)).map Prod.snd <+: popped (w.history m)) ∧
      ∀ i, ∃ m, n ≤ m ∧ (w.state m).producer i = .idle := by
  have size := B.le_half
  obtain ⟨m, later, enough⟩ := popped_reaches few half w fair pops n
  have more : issued (w.history n) <+: issued (w.history m) := (w.history_prefix later).filterMap _
  have first := popped_sizeT (.inl (by omega)) (w.run m)
  constructor
  · exact ⟨m, later, List.prefix_of_prefix_length_le (more.map _) first (by simpa using enough)⟩
  · exact fun i => push_reaches few half w fair pops i n

/-! Two producers and the consumer take turns, and all of them go on for ever. -/

def consumerTurn (s : State SizeT Nat twoSlots 2) : Action Nat 2 :=
  if s.consumer = .idle then .pop .optional
  else (woken twoSlots.sizeT s).elim .consumer .wake

abbrev busyQueue : Machine (State SizeT Nat twoSlots 2) (Action Nat 2) :=
  machine twoSlots.sizeT ⟨0, id⟩ 2

def busyRun : busyQueue.Forever := Machine.Forever.ofSchedule busyQueue fun n s =>
  if n % 5 = 0 then .push 0 n
  else if n % 5 = 1 then .push 1 n
  else if n % 5 = 2 then .producer 0
  else if n % 5 = 3 then .producer 1
  else consumerTurn s

theorem busyRun_fair (i : Fin 2) : busyRun.FairTo Action.thread (.producer i) := by
  unfold busyRun
  refine Machine.Forever.ofSchedule_fairTo_only (a := .producer i) rfl ?_ ?_
  · intro b acts
    cases b <;> cases acts
    rfl
  · intro n
    match i with
    | 0 => exact ⟨5 * n + 2, by omega, fun s => by simp [show (5 * n + 2) % 5 = 2 by omega]⟩
    | 1 => exact ⟨5 * n + 3, by omega, fun s => by simp [show (5 * n + 3) % 5 = 3 by omega]⟩

theorem consumerTurn_able (s : State SizeT Nat twoSlots 2) :
    (consumerTurn s).thread = .consumer ∧ (busyQueue.step s (consumerTurn s)).isSome := by
  unfold consumerTurn
  change _ ∧ (step twoSlots.sizeT ⟨0, id⟩ s _).isSome
  by_cases idle : s.consumer = .idle
  · simp [idle, Action.thread, step, popStep]
  · rw [if_neg idle]
    cases found : woken twoSlots.sizeT s with
    | none => exact ⟨rfl, pop_able _ idle found⟩
    | some i => exact ⟨rfl, woken_able _ found⟩

theorem busyRun_pops : busyRun.FairTo Action.thread .consumer := by
  apply Machine.Forever.ofSchedule_fairTo
  intro n
  refine ⟨5 * n + 4, by omega, fun s => ?_⟩
  have turn : ∀ (x y z u : Action Nat 2), (if (5 * n + 4) % 5 = 0 then x
      else if (5 * n + 4) % 5 = 1 then y else if (5 * n + 4) % 5 = 2 then z
      else if (5 * n + 4) % 5 = 3 then u else consumerTurn s) = consumerTurn s := by
    intro x y z u
    simp [show (5 * n + 4) % 5 = 4 by omega]
  rw [turn]
  exact ⟨(consumerTurn_able s).1, fun _ => (consumerTurn_able s).2⟩

theorem busy_starves_nobody :
    (issued (busyRun.history 20)).map Prod.snd = [0, 1] ∧
      (∃ m, 20 ≤ m ∧ (issued (busyRun.history 20)).map Prod.snd <+: popped (busyRun.history m)) ∧
        ∀ i, ∃ m, 20 ≤ m ∧ (busyRun.state m).producer i = .idle :=
  ⟨by decide +kernel,
    no_push_starves (by decide) (by decide) busyRun busyRun_fair busyRun_pops 20⟩

end
end Mpsc
