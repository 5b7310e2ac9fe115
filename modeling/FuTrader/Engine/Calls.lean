import FuTrader.Channel.Calls
import FuTrader.Engine.CtaEngine

/- What the threads of the engine do when they run without interruption. -/
namespace CtaEngine
open FuTrader
variable {F S : Type} {W : ThreadNum} (onTick : S → TickData F → S × Option Order)
  (added : List (Symbol × S)) {s : State F S W} {w : Fin W.val} {tick : TickData F} {j : Nat}

theorem exec_onTick {stg : S} {order : Order} (pc : s.worker w = .visit tick j)
    (present : s.strategy (key tick, j) = some stg) (emits : (onTick stg tick).2 = some order) :
    (machine onTick W added).exec s [.worker w, .worker w] =
      some ((s.setStrategy (key tick, j) (onTick stg tick).1).setWorker w (.push tick j order)) := by
  have call : (machine onTick W added).step s (.worker w) =
      some (s.setWorker w (.onTick tick j)) := by
    simp [machine, step, workerStep, pc, present]
  rw [Machine.exec_cons _ call]
  simp only [Machine.exec, machine, step, workerStep, setWorker_worker, Function.update_self,
    setWorker_strategy, present, emits, Option.map_some, Option.bind_some]
  simp [State.setWorker, State.setStrategy]

theorem exec_push {order : Order} (pc : s.worker w = .push tick j order)
    (idle : s.channel.producer w = .idle)
    (room : channelSize.sizeT.full s.channel.head s.channel.tail = false)
    (free : (s.channel.buffer (channelSize.sizeT.slot s.channel.head)).seq = s.channel.head) :
    (machine onTick W added).exec s (List.replicate 6 (.worker w)) =
      some ({ s with channel := s.channel.pushed channelSize.sizeT order }.setWorker w
        (.visit tick (j + 1))) := by
  have back : Function.update s.channel.producer w .idle = s.channel.producer := by
    rw [← idle]
    exact Function.update_eq_self w s.channel.producer
  simp [List.replicate, Machine.exec, machine, step, workerStep, channelStep, pc, Mpsc.step,
    Mpsc.pushStep, Mpsc.producerStep, Mpsc.pushResult, idle, room, free, back, State.setWorker,
    Mpsc.State.setProducer, Mpsc.State.setSlot, Mpsc.State.pushed]

theorem exec_visit {stg : S} {order : Order} (pc : s.worker w = .visit tick j)
    (present : s.strategy (key tick, j) = some stg) (emits : (onTick stg tick).2 = some order)
    (idle : s.channel.producer w = .idle)
    (room : channelSize.sizeT.full s.channel.head s.channel.tail = false)
    (free : (s.channel.buffer (channelSize.sizeT.slot s.channel.head)).seq = s.channel.head) :
    (machine onTick W added).exec s ([.worker w, .worker w] ++ List.replicate 6 (.worker w)) =
      some (({ s with channel := s.channel.pushed channelSize.sizeT order }.setStrategy
        (key tick, j) (onTick stg tick).1).setWorker w (.visit tick (j + 1))) := by
  have pushed := exec_push onTick added
    (s := (s.setStrategy (key tick, j) (onTick stg tick).1).setWorker w (.push tick j order))
    (Function.update_self _ _ _) idle room free
  rw [Machine.exec_append (exec_onTick onTick added pc present emits), pushed]
  simp [State.setWorker, State.setStrategy]

theorem exec_pass {stg : S} {order : Order} (pc : s.worker w = .visit tick j)
    (present : s.strategy (key tick, j) = some stg) (emits : (onTick stg tick).2 = some order)
    (idle : s.channel.producer w = .idle)
    (room : channelSize.sizeT.full s.channel.head s.channel.tail = false) :
    (machine onTick W added).exec s ([.worker w, .worker w] ++ [.worker w, .worker w]) =
      some (({ s with
        channel := s.channel.setProducer w (.fetchAdd order s.channel.head s.channel.tail)
        }.setStrategy (key tick, j) (onTick stg tick).1).setWorker w (.pushing tick j order)) := by
  rw [Machine.exec_append (exec_onTick onTick added pc present emits)]
  simp [Machine.exec, machine, step, workerStep, channelStep, Mpsc.step, Mpsc.pushStep,
    Mpsc.producerStep, Mpsc.pushResult, idle, room, State.setWorker, State.setStrategy,
    Mpsc.State.setProducer]

theorem exec_draw {order : Order} {curHead curTail : Mpsc.SizeT}
    (pc : s.worker w = .pushing tick j order)
    (passed : s.channel.producer w = .fetchAdd order curHead curTail) :
    (machine onTick W added).exec s [.worker w] =
      some { s with channel := { s.channel with
        head := s.channel.head + 1 }.setProducer w (.loadSeq order s.channel.head) } := by
  simp [Machine.exec, machine, step, workerStep, channelStep, pc, Mpsc.step, Mpsc.producerStep,
    Mpsc.pushResult, passed]
  rfl

theorem exec_find {k : Nat} (idle : s.worker w = .idle) (task : s.pending[k]? = some tick)
    (present : (s.strategy (key tick, 0)).isSome = true) :
    (machine onTick W added).exec s [.run w k, .worker w] =
      some ({ s with pending := s.pending.eraseIdx k }.setWorker w (.visit tick 0)) := by
  obtain ⟨stgs, found⟩ : ∃ stgs, s.stgMap (key tick) = some stgs := by
    cases found : s.stgMap (key tick) with
    | none => simp [State.strategy, found] at present
    | some stgs => exact ⟨stgs, rfl⟩
  simp [Machine.exec, machine, step, runStep, workerStep, idle, task, found, State.setWorker]

theorem exec_leave (check : s.pusher = .check) :
    (machine onTick W added).exec s [.stop, .pusher] =
      some { s with running := false, pusher := .exited } := by
  simp [Machine.exec, machine, step, pusherStep, check]

theorem exec_receive (main : s.main = .start) (running : s.running = true)
    (pending : s.pending = []) (a b : TickData F) :
    (machine onTick W added).exec s [.main, .main, .recv (some a), .main, .recv (some b)] =
      some { s with pusher := .check, main := .check, pending := [a, b] } := by
  simp [Machine.exec, machine, step, mainStep, recvStep, main, running, pending]

end CtaEngine
