import FuTrader.Channel.Mpsc

/- Calls that run without interruption, on any counters. -/
namespace Mpsc
variable {κ T : Type} {B : BufSize} {P : Nat} [DecidableEq κ]

def wholePush (i : Fin P) (u : T) : List (Action T P) :=
  [.push i u, .producer i, .producer i, .producer i, .producer i, .producer i]

def wholePop (P : Nat) (k : Overload) : List (Action T P) :=
  [.pop k, .consumer, .consumer, .consumer, .consumer, .consumer]

def State.pushed (C : Counters κ B) (s : State κ T B P) (u : T) : State κ T B P :=
  { s.setSlot (C.slot s.head) ⟨C.succ s.head, u⟩ with head := C.succ s.head }

def State.popped (C : Counters κ B) (E : Element T) (s : State κ T B P) : State κ T B P :=
  { s.setSlot (C.slot s.tail) ⟨C.lap s.tail, E.moved (s.buffer (C.slot s.tail)).data⟩ with
    tail := C.succ s.tail }

omit [DecidableEq κ] in
theorem update_idle {s : State κ T B P} {i : Fin P} (idle : s.producer i = .idle) :
    Function.update s.producer i .idle = s.producer := by
  rw [← idle]
  exact Function.update_eq_self i s.producer

theorem exec_whole_push {C : Counters κ B} {E : Element T} {s : State κ T B P} {i : Fin P} (u : T)
    (idle : s.producer i = .idle) (room : C.full s.head s.tail = false)
    (free : (s.buffer (C.slot s.head)).seq = s.head) :
    (machine C E P).exec s (wholePush i u) = some (s.pushed C u) := by
  simp [wholePush, Machine.exec, machine, step, pushStep, producerStep, idle, room, free,
    State.setProducer, State.setSlot, State.pushed, update_idle idle]

theorem exec_whole_pop {C : Counters κ B} {E : Element T} {s : State κ T B P} (k : Overload)
    (idle : s.consumer = .idle) (filled : (s.buffer (C.slot s.tail)).seq = C.succ s.tail)
    (nobody : ∀ i, ParkedOn C s (C.slot s.tail) i = false) :
    (machine C E P).exec s (wholePop P k) = some (s.popped C E) := by
  simp only [ParkedOn] at nobody
  simp [wholePop, Machine.exec, machine, step, popStep, consumerStep, idle, filled,
    State.setConsumer, State.setSlot, State.popped, ParkedOn, nobody]

theorem exec_pass {C : Counters κ B} {E : Element T} {s : State κ T B P} {i : Fin P} (u : T)
    (idle : s.producer i = .idle) (room : C.full s.head s.tail = false) :
    (machine C E P).exec s [.push i u, .producer i] =
      some (s.setProducer i (.fetchAdd u s.head s.tail)) := by
  simp [Machine.exec, machine, step, pushStep, producerStep, idle, room, State.setProducer]

theorem exec_park {C : Counters κ B} {E : Element T} {s : State κ T B P} {i : Fin P} {u : T}
    {pos : κ} (pc : s.producer i = .loadSeq u pos) (early : (s.buffer (C.slot pos)).seq ≠ pos) :
    (machine C E P).exec s [.producer i, .producer i] =
      some (s.setProducer i (.parked u pos (s.buffer (C.slot pos)).seq)) := by
  simp [Machine.exec, machine, step, producerStep, pc, early, State.setProducer]

theorem exec_pop_wake {C : Counters κ B} {E : Element T} {s : State κ T B P} (k : Overload)
    (idle : s.consumer = .idle) (filled : (s.buffer (C.slot s.tail)).seq = C.succ s.tail)
    {i : Fin P} {u : T} {pos seqVal : κ} (parked : s.producer i = .parked u pos seqVal)
    (same : C.slot pos = C.slot s.tail) :
    (machine C E P).exec s [.pop k, .consumer, .consumer, .consumer, .wake i] =
      some (((s.setSlot (C.slot s.tail)
          ⟨C.lap s.tail, E.moved (s.buffer (C.slot s.tail)).data⟩).setConsumer
        (.storeTail k s.tail (s.buffer (C.slot s.tail)).data)).setProducer i
          (.wait u pos seqVal)) := by
  simp [Machine.exec, machine, step, popStep, consumerStep, wakeStep, unpark, ParkedOn, idle,
    filled, parked, same, State.setConsumer, State.setSlot, State.setProducer]

end Mpsc
