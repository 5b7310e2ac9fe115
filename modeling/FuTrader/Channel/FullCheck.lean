import FuTrader.Channel.Calls
import FuTrader.Channel.Wrap

/- push answers "full" from a _head it loaded earlier. Pops may move _tail past
   that snapshot, and the unsigned difference is then huge. -/
namespace Mpsc
variable {T : Type} {B : BufSize} {P : Nat}

def Refuses (s : State SizeT T B P) (a : Action T P) : Prop :=
  ∃ i u curHead, a = .producer i ∧ s.producer i = .loadTail u curHead ∧
    B.sizeT.full curHead s.tail = true

/-- `_head - _tail >= BufSize` for the current values. -/
def Full (s : State SizeT T B P) : Prop := B.val ≤ (s.head - s.tail).toNat

/-- A load of _tail finds its cur_head between _tail and _head. -/
def Current (s : State SizeT T B P) (a : Action T P) : Prop :=
  ∀ i u curHead, a = .producer i → s.producer i = .loadTail u curHead →
    (curHead - s.tail).toNat ≤ (s.head - s.tail).toNat

theorem full_of_current {s : State SizeT T B P} {a : Action T P} (current : Current s a)
    (refuses : Refuses s a) : Full s := by
  obtain ⟨i, u, curHead, rfl, pc, full⟩ := refuses
  have bound : B.val ≤ (curHead - s.tail).toNat := by simpa [BufSize.sizeT] using full
  exact bound.trans (current i u curHead rfl pc)

theorem snapshot_of_one {E : Element T} (one : P ≤ 1) {s : State SizeT T B P}
    (reach : (machine B.sizeT E P).Reachable s) :
    ∀ i u curHead, s.producer i = .loadTail u curHead → curHead = s.head := by
  apply Machine.Reachable.invariant (M := machine B.sizeT E P)
    (fun s => ∀ i u curHead, s.producer i = .loadTail u curHead → curHead = s.head) ?_ ?_ reach
  · intro i u curHead pc
    cases pc
  intro s a t _ known step i u curHead now
  have alone : ∀ j : Fin P, j = i := fun j => Fin.ext (by omega)
  cases step_cases step with
  | push j v pc | refuse j v h pc | pass j v h pc | turn j v pos pc | busy j v pos pc
  | park j v pos seqVal pc | changed j v pos seqVal pc | write j v pos pc | publish j v pos pc
  | spurious j v pos seqVal pc | ticket j v h c pc | wake j n pos value v q seqVal pc =>
    obtain rfl := alone j
    simp at now
    try exact now.2.symm
  | pop k pc | empty k pos pc | ready k pos pc | read k pos pc | free k pos value pc
  | nobody k pos value pc | advance k pos value pc => exact known i u curHead now

theorem current_of_one {E : Element T} (one : P ≤ 1) {h : List (State SizeT T B P × Action T P)}
    {s : State SizeT T B P} (run : (machine B.sizeT E P).Run h s) :
    ∀ x ∈ h, Current x.1 x.2 := by
  intro x member i u curHead _ pc
  rw [snapshot_of_one one (run.before member) i u curHead pc]

theorem sizeT_slot_zero : B.sizeT.slot 0#64 = (0 : Fin B.val) := by
  rw [sizeT_slot]
  exact Fin.ext (Nat.zero_mod _)

theorem sizeT_room : B.sizeT.full 0#64 0#64 = false := by
  have two := B.two_le
  simp [BufSize.sizeT]
  omega

/-- One producer loads _head; another pushes a value and the consumer pops it; the
    first then loads a _tail that is one ahead of its cur_head. -/
theorem stale_refusal (E : Element T) {i j : Fin P} (ne : j ≠ i) :
    ∃ h s, (machine B.sizeT E P).Run h s ∧ ∃ x ∈ h, Refuses x.1 x.2 ∧ ¬ Full x.1 := by
  have two := B.two_le
  have half := B.le_half
  let start := init B.sizeT E P
  let loaded := start.setProducer i (.loadTail E.init 0#64)
  have load : (machine B.sizeT E P).exec start [.push i E.init] = some loaded := rfl
  have push := exec_whole_push (C := B.sizeT) (E := E) (s := loaded) (i := j) E.init
    (by simp [loaded, ne, start, init]) sizeT_room
    (by change ((init B.sizeT E P).buffer (B.sizeT.slot 0#64)).seq = 0#64
        rw [sizeT_slot_zero]
        rfl)
  let full := loaded.pushed B.sizeT E.init
  have pop := exec_whole_pop (C := B.sizeT) (E := E) (s := full) .optional rfl
    (by simp [full, State.pushed, loaded, start, init, BufSize.sizeT])
    (by intro k
        by_cases here : k = i <;>
          simp [ParkedOn, full, State.pushed, loaded, here, start, init])
  let after := full.popped B.sizeT E
  have ran : (machine B.sizeT E P).exec start
      ([.push i E.init] ++ (wholePush j E.init ++ wholePop P .optional)) = some after := by
    rw [Machine.exec_append load, Machine.exec_append push, pop]
  have pc : after.producer i = .loadTail E.init 0#64 := by
    simp [after, full, State.popped, State.pushed, loaded]
  have head : after.head = 1#64 := rfl
  have tail : after.tail = 1#64 := rfl
  have answer : B.sizeT.full 0#64 after.tail = true := by
    rw [tail]
    simp [BufSize.sizeT]
    omega
  have last : (machine B.sizeT E P).step after (.producer i) =
      some (after.setProducer i .idle) := by
    simp [machine, step, producerStep, pc, answer]
  refine ⟨_, _, (Machine.run_exec ran).next last, (after, .producer i), by simp,
    ⟨i, E.init, 0#64, rfl, pc, answer⟩, ?_⟩
  simp only [Full, head, tail]
  simp
  omega

/-- Where each load of _tail finds its snapshot between _tail and _head, push returns
    false only when the queue is full; over all runs that is so for one producer only. -/
theorem refused_when_full (E : Element T) :
    (∀ h s, (machine B.sizeT E P).Run h s → (∀ x ∈ h, Current x.1 x.2) →
      ∀ x ∈ h, Refuses x.1 x.2 → Full x.1) ∧
    ((∀ h s, (machine B.sizeT E P).Run h s → ∀ x ∈ h, Refuses x.1 x.2 → Full x.1) ↔
      P ≤ 1) := by
  constructor
  · intro h s _ current x member refuses
    exact full_of_current (current x member) refuses
  constructor
  · intro always
    by_contra more
    have distinct : (⟨1, by omega⟩ : Fin P) ≠ ⟨0, by omega⟩ := by simp
    obtain ⟨h, s, run, x, member, refuses, room⟩ := stale_refusal (B := B) E distinct
    exact room (always h s run x member refuses)
  · intro one h s run x member refuses
    exact full_of_current (current_of_one one run x member) refuses

theorem refused_on_empty :
    ¬ ∀ h s, (machine twoSlots.sizeT (⟨0, id⟩ : Element Nat) 2).Run h s →
      ∀ x ∈ h, Refuses x.1 x.2 → Full x.1 := by
  intro always
  obtain ⟨h, s, run, x, member, refuses, room⟩ :=
    stale_refusal (B := twoSlots) (⟨0, id⟩ : Element Nat) (show (1 : Fin 2) ≠ 0 by decide)
  exact room (always h s run x member refuses)

end Mpsc
