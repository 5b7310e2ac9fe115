import FuTrader.Channel.SingleProducer
import FuTrader.Engine.Positions

/- The engine with one worker does what a plain loop over the ticks does: it leaves the
   strategies in the same states and has the same orders in the same sequence. -/
namespace CtaEngine
open FuTrader
variable {F S : Type}

def oneWorker : ThreadNum := ⟨1, by decide⟩

def sole : Fin oneWorker.val := ⟨0, by decide⟩

theorem eq_sole (w : Fin oneWorker.val) : w = sole := Fin.ext (Nat.lt_one_iff.mp w.isLt)

/-! The loop. -/

section loop
variable (onTick : S → TickData F → S × Option Order)

def visitAll (tick : TickData F) : List S → List S × List Order
  | [] => ([], [])
  | stg :: stgs => ((onTick stg tick).1 :: (visitAll tick stgs).1,
      (onTick stg tick).2.toList ++ (visitAll tick stgs).2)

def visitFrom (stgMap : Symbol → Option (List S)) (tick : TickData F) (j : Nat) :
    (Symbol → Option (List S)) × List Order :=
  match stgMap (key tick) with
  | none => (stgMap, [])
  | some stgs =>
    (Function.update stgMap (key tick)
      (some (stgs.take j ++ (visitAll onTick tick (stgs.drop j)).1)),
      (visitAll onTick tick (stgs.drop j)).2)

def processAll (stgMap : Symbol → Option (List S)) :
    List (TickData F) → (Symbol → Option (List S)) × List Order
  | [] => (stgMap, [])
  | tick :: ticks =>
    ((processAll (visitFrom onTick stgMap tick 0).1 ticks).1,
      (visitFrom onTick stgMap tick 0).2 ++
        (processAll (visitFrom onTick stgMap tick 0).1 ticks).2)

end loop

variable {onTick : S → TickData F → S × Option Order}

theorem processAll_snoc (stgMap : Symbol → Option (List S)) (ticks : List (TickData F))
    (tick : TickData F) :
    processAll onTick stgMap (ticks ++ [tick]) =
      ((visitFrom onTick (processAll onTick stgMap ticks).1 tick 0).1,
        (processAll onTick stgMap ticks).2 ++
          (visitFrom onTick (processAll onTick stgMap ticks).1 tick 0).2) := by
  induction ticks generalizing stgMap with
  | nil => simp [processAll]
  | cons first rest ih => simp [processAll, ih]

theorem visitFrom_last {stgMap : Symbol → Option (List S)} {tick : TickData F} {j : Nat}
    (last : (stgMap (key tick)).bind (·[j]?) = none) :
    visitFrom onTick stgMap tick j = (stgMap, []) := by
  unfold visitFrom
  cases found : stgMap (key tick) with
  | none => rfl
  | some stgs =>
    have past : stgs.length ≤ j := by simpa [found] using last
    simp [List.drop_eq_nil_of_le past, List.take_of_length_le past, visitAll, ← found]

theorem visitFrom_call (onTick : S → TickData F → S × Option Order)
    {stgMap : Symbol → Option (List S)} {tick : TickData F} {j : Nat} {stg : S}
    (present : (stgMap (key tick)).bind (·[j]?) = some stg) :
    visitFrom onTick stgMap tick j =
      ((visitFrom onTick (Function.update stgMap (key tick)
          ((stgMap (key tick)).map (·.set j (onTick stg tick).1))) tick (j + 1)).1,
        (onTick stg tick).2.toList ++
          (visitFrom onTick (Function.update stgMap (key tick)
            ((stgMap (key tick)).map (·.set j (onTick stg tick).1))) tick (j + 1)).2) := by
  cases found : stgMap (key tick) with
  | none => simp [found] at present
  | some stgs =>
    obtain ⟨inside, here⟩ := List.getElem?_eq_some_iff.mp
      (show stgs[j]? = some stg by simpa [found] using present)
    have now : stgs.drop j = stg :: stgs.drop (j + 1) := by
      rw [← here]
      exact List.drop_eq_getElem_cons inside
    have kept : (stgs.set j (onTick stg tick).1).take (j + 1) =
        stgs.take j ++ [(onTick stg tick).1] := by
      rw [List.take_succ_eq_append_getElem (by simpa using inside), List.take_set_of_le (by omega)]
      simp
    have later : (stgs.set j (onTick stg tick).1).drop (j + 1) = stgs.drop (j + 1) :=
      List.drop_set_of_lt (Nat.lt_succ_self j)
    simp only [visitFrom, found, Option.map_some, Function.update_self, Function.update_idem, now,
      visitAll, kept, later, List.append_assoc, List.singleton_append]

/-! What the worker has still to do with its tick. -/

def remaining (onTick : S → TickData F → S × Option Order)
    (stgMap : Symbol → Option (List S)) : Worker F → (Symbol → Option (List S)) × List Order
  | .idle => (stgMap, [])
  | .find tick => visitFrom onTick stgMap tick 0
  | .visit tick j | .onTick tick j => visitFrom onTick stgMap tick j
  | .push tick j _ | .pushing tick j _ => visitFrom onTick stgMap tick (j + 1)

theorem Step.remaining {s t : State F S oneWorker} {a : Action F oneWorker}
    (step : Step onTick s a t) (none : startOf s a = none) :
    (remaining onTick s.stgMap (s.worker sole)).1 = (remaining onTick t.stgMap (t.worker sole)).1 ∧
      (remaining onTick s.stgMap (s.worker sole)).2 =
        (emitOf onTick s a).toList.map Prod.snd ++
          (remaining onTick t.stgMap (t.worker sole)).2 := by
  cases step with
  | run w k tick free task => simp [startOf, task] at none
  | missing w tick pc absent =>
    obtain rfl := eq_sole w
    have last : visitFrom onTick s.stgMap tick 0 = (s.stgMap, []) :=
      visitFrom_last (by simp [absent])
    simp [CtaEngine.remaining, pc, last, emitOf]
  | last w tick j pc absent =>
    obtain rfl := eq_sole w
    have last : visitFrom onTick s.stgMap tick j = (s.stgMap, []) := visitFrom_last absent
    simp [CtaEngine.remaining, pc, last, emitOf]
  | found w tick stgs pc present | call w tick j stg pc present =>
    obtain rfl := eq_sole w
    simp [CtaEngine.remaining, pc, emitOf]
  | silent w tick j stg pc present silent =>
    obtain rfl := eq_sole w
    have call := visitFrom_call onTick present
    rw [silent] at call
    simp [CtaEngine.remaining, pc, emitOf, present, silent, call, State.setStrategy]
  | emit w tick j stg order pc present some =>
    obtain rfl := eq_sole w
    have call := visitFrom_call onTick present
    rw [some] at call
    simp [CtaEngine.remaining, pc, emitOf, present, some, call, State.setStrategy]
  | push w tick j order c pc moves | pushed w tick j order c result pc moves returns =>
    obtain rfl := eq_sole w
    simp [CtaEngine.remaining, pc, emitOf]
  | pushing w tick j order c pc moves inside =>
    obtain rfl := eq_sole w
    simp [emitOf, pc]
  | _ => simp [emitOf]

def started (h : List (State F S oneWorker × Action F oneWorker)) : List (TickData F) :=
  Machine.log startOf h

/-- Once the worker is through with its tick, the engine is where the loop is. -/
structure Sequential (onTick : S → TickData F → S × Option Order)
    (stgMap : Symbol → Option (List S)) (h : List (State F S oneWorker × Action F oneWorker))
    (s : State F S oneWorker) : Prop where
  states : (remaining onTick s.stgMap (s.worker sole)).1 = (processAll onTick stgMap (started h)).1
  sequence : orders onTick h ++ (remaining onTick s.stgMap (s.worker sole)).2 =
    (processAll onTick stgMap (started h)).2

theorem Sequential.step {stgMap : Symbol → Option (List S)}
    {h : List (State F S oneWorker × Action F oneWorker)} {s t : State F S oneWorker}
    {a : Action F oneWorker} (known : Sequential onTick stgMap h s) (step : Step onTick s a t) :
    Sequential onTick stgMap (h ++ [(s, a)]) t := by
  obtain ⟨states, same⟩ := known
  cases given : startOf s a with
  | none =>
    obtain ⟨kept, moved⟩ := step.remaining given
    constructor
    · rw [started, Machine.log_snoc, given, Option.toList_none, List.append_nil, ← started,
        ← states, kept]
    · rw [started, Machine.log_snoc, given, Option.toList_none, List.append_nil, ← started,
        ← same, moved, orders, emitted, Machine.log_snoc, List.map_append, List.append_assoc]
      rfl
  | some tick =>
    cases step with
    | run w k tick' free task =>
      obtain rfl := eq_sole w
      rw [startOf, task] at given
      cases given
      rw [free] at states same
      have begun : started (h ++ [(s, Action.run sole k)]) = started h ++ [tick] := by
        simp [started, Machine.log_snoc, startOf, task]
      have quiet : orders onTick (h ++ [(s, Action.run sole k)]) = orders onTick h := by
        simp [orders, emitted, Machine.log_snoc, emitOf]
      constructor
      · simp [begun, processAll_snoc, ← states, remaining]
      · simp [begun, quiet, processAll_snoc, ← states, ← same, remaining]
    | _ => simp [startOf] at given

theorem sequential_run {added : List (Symbol × S)}
    {h : List (State F S oneWorker × Action F oneWorker)} {s : State F S oneWorker}
    (run : (machine onTick oneWorker added).Run h s) :
    Sequential onTick (init oneWorker added : State F S oneWorker).stgMap h s := by
  apply Machine.Run.invariant (M := machine onTick oneWorker added)
    (Sequential onTick (init oneWorker added : State F S oneWorker).stgMap) ⟨rfl, rfl⟩ ?_ run
  intro h s a t _ known step
  exact known.step (step_cases step)

/-! What became of the orders: their pushes ended with true or false, one after the other. -/

def resultOf (s : State F S oneWorker) : Action F oneWorker → Option (Order × Bool)
  | .worker w => match s.worker w with
    | .pushing _ _ order =>
      (Mpsc.pushResult channelSize.sizeT s.channel w).map fun ok => (order, ok)
    | _ => none
  | _ => none

def results (h : List (State F S oneWorker × Action F oneWorker)) : List (Order × Bool) :=
  Machine.log resultOf h

def Worker.inHand : Worker F → List Order
  | .push _ _ order | .pushing _ _ order => [order]
  | _ => []

theorem Step.inHand {s t : State F S oneWorker} {a : Action F oneWorker}
    (step : Step onTick s a t) :
    (s.worker sole).inHand ++ (emitOf onTick s a).toList.map Prod.snd =
      (resultOf s a).toList.map Prod.fst ++ (t.worker sole).inHand := by
  cases step with
  | run w k tick free task =>
    obtain rfl := eq_sole w
    simp [free, Worker.inHand, emitOf, resultOf]
  | missing w tick pc absent | found w tick stgs pc present | last w tick j pc absent
  | call w tick j stg pc present | silent w tick j stg pc present none
  | emit w tick j stg order pc present some | push w tick j order c pc moves
  | pushing w tick j order c pc moves inside | pushed w tick j order c result pc moves returns =>
    obtain rfl := eq_sole w
    simp [Worker.inHand, emitOf, resultOf, *]
  | _ => simp [emitOf, resultOf]

theorem results_run {added : List (Symbol × S)}
    {h : List (State F S oneWorker × Action F oneWorker)} {s : State F S oneWorker}
    (run : (machine onTick oneWorker added).Run h s) :
    orders onTick h = (results h).map Prod.fst ++ (s.worker sole).inHand := by
  apply Machine.Run.invariant (M := machine onTick oneWorker added)
    (fun h s => orders onTick h = (results h).map Prod.fst ++ (s.worker sole).inHand) rfl ?_ run
  intro h s a t _ known step
  have moved := (step_cases step).inHand
  simp only [orders, emitted, results, Machine.log_snoc, List.map_append] at known ⊢
  rw [known, List.append_assoc, moved, List.append_assoc]

def kept (x : Order × Bool) : Option Order := if x.2 then some x.1 else none
def lost (x : Order × Bool) : Option Order := if x.2 then none else some x.1

theorem result_values {s : State F S oneWorker} (aligned : Aligned s) (a : Action F oneWorker) :
    ((channelAct s a).bind (Mpsc.acceptOf s.channel)).map Prod.snd = (resultOf s a).bind kept ∧
      (channelAct s a).bind (Mpsc.refuseOf channelSize.sizeT s.channel) =
        (resultOf s a).bind lost := by
  cases a with
  | worker w =>
    have held := aligned.producers w
    cases pc : s.worker w with
    | push tick j order => simp [channelAct, resultOf, pc, Mpsc.acceptOf, Mpsc.refuseOf]
    | pushing tick j order =>
      rw [pc] at held
      cases at_pc : s.channel.producer w with
      | loadTail u curHead =>
        rw [at_pc] at held
        obtain rfl : u = order := by simpa [Mpsc.Producer.held, Worker.inPush] using held
        by_cases full : channelSize.sizeT.full curHead s.channel.tail <;>
          simp [channelAct, resultOf, pc, Mpsc.acceptOf, Mpsc.refuseOf, Mpsc.pushResult, at_pc,
            full, kept, lost]
      | storeSeq u pos =>
        rw [at_pc] at held
        obtain rfl : u = order := by simpa [Mpsc.Producer.held, Worker.inPush] using held
        simp [channelAct, resultOf, pc, Mpsc.acceptOf, Mpsc.refuseOf, Mpsc.pushResult, at_pc,
          kept, lost]
      | _ =>
        simp [channelAct, resultOf, pc, Mpsc.acceptOf, Mpsc.refuseOf, Mpsc.pushResult, at_pc]
    | _ => simp [channelAct, resultOf, pc]
  | pusher => cases pc : s.pusher <;> simp [channelAct, resultOf, pc, Mpsc.acceptOf, Mpsc.refuseOf]
  | _ => simp [channelAct, resultOf, Mpsc.acceptOf, Mpsc.refuseOf]

theorem values_run {added : List (Symbol × S)}
    {h : List (State F S oneWorker × Action F oneWorker)} {s : State F S oneWorker}
    (run : (machine onTick oneWorker added).Run h s) :
    accepted h = (results h).filterMap kept ∧ dropped h = (results h).filterMap lost := by
  have values := fun x member => result_values (aligned_reachable (run.before (x := x) member)) x.2
  constructor
  · rw [accepted, Mpsc.acceptedValues, Mpsc.accepted, channelPart, Machine.log_partOf, results,
      Machine.log_map_value, Machine.log_filterMap]
    exact Machine.log_congr fun x member => (values x member).1
  · rw [dropped, Mpsc.refused, channelPart, Machine.log_partOf, results, Machine.log_filterMap]
    exact Machine.log_congr fun x member => (values x member).2

theorem kept_sublist (l : List (Order × Bool)) : (l.filterMap kept).Sublist (l.map Prod.fst) := by
  induction l with
  | nil => exact .slnil
  | cons x l ih =>
    obtain ⟨order, ok⟩ := x
    cases ok with
    | false => exact ih.cons order
    | true => exact ih.cons_cons order

theorem kept_all {l : List (Order × Bool)} (none : l.filterMap lost = []) :
    l.filterMap kept = l.map Prod.fst := by
  rw [List.filterMap_eq_nil_iff] at none
  rw [← List.filterMap_eq_map]
  apply List.filterMap_congr
  rintro ⟨order, ok⟩ member
  cases ok with
  | false => cases none _ member
  | true => rfl

theorem started_run {added : List (Symbol × S)}
    {h : List (State F S oneWorker × Action F oneWorker)} {s : State F S oneWorker}
    (run : (machine onTick oneWorker added).Run h s) :
    (started h ++ s.pending).Perm (Machine.log recvOf h) := by
  apply Machine.Run.invariant (M := machine onTick oneWorker added)
    (fun h s => (started h ++ s.pending).Perm (Machine.log recvOf h)) .nil ?_ run
  intro h s a t _ known step
  rw [started, Machine.log_snoc, Machine.log_snoc, ← started]
  cases step_cases step with
  | run w k tick free task =>
    obtain ⟨inside, rfl⟩ := List.getElem?_eq_some_iff.mp task
    simp only [startOf, task, recvOf, Option.toList_some, Option.toList_none, List.append_nil,
      setWorker_pending, List.append_assoc, List.singleton_append]
    exact (List.Perm.append_left _ (List.getElem_cons_eraseIdx_perm inside)).trans known
  | recv tick pc =>
    simp only [startOf, recvOf, Option.toList_none, List.append_nil]
    rw [← List.append_assoc]
    exact known.append_right _
  | _ => simpa [startOf, recvOf] using known

/-- What the engine sends with one worker are the orders of the loop over its ticks, in the
    same sequence, but for those that the channel has refused; and while the worker has no
    tick the strategies are in the states in which the loop has left them. -/
theorem one_worker_sequential {added : List (Symbol × S)}
    {h : List (State F S oneWorker × Action F oneWorker)} {s : State F S oneWorker}
    (run : (machine onTick oneWorker added).Run h s) :
    let loop := processAll onTick (init oneWorker added : State F S oneWorker).stgMap (started h)
    (started h ++ s.pending).Perm (Machine.log recvOf h) ∧
      (∃ q, Mpsc.Single.Holds s.channel q ∧ accepted h = sent h ++ s.pusher.hand ++ q.items) ∧
      (accepted h).Sublist loop.2 ∧ (dropped h = [] → accepted h <+: loop.2) ∧
      (s.worker sole = .idle → s.stgMap = loop.1 ∧ orders onTick h = loop.2) := by
  intro loop
  obtain ⟨states, sequence⟩ := sequential_run run
  obtain ⟨accepts, drops⟩ := values_run run
  have pushed := results_run run
  have ahead : orders onTick h <+: loop.2 := ⟨_, sequence⟩
  have given : (results h).map Prod.fst <+: orders onTick h := ⟨_, pushed.symm⟩
  refine ⟨started_run run, ?_, ?_, ?_, ?_⟩
  · obtain ⟨q, holds, same⟩ := Mpsc.Single.values_run (B := channelSize) (channel_run run)
    exact ⟨q, holds, same.trans (congrArg (· ++ q.items) (popped_run run))⟩
  · rw [accepts]
    exact (kept_sublist _).trans (given.trans ahead).sublist
  · intro none
    rw [accepts, kept_all (drops ▸ none)]
    exact given.trans ahead
  · intro idle
    rw [idle] at states sequence
    exact ⟨states, by simpa [remaining] using sequence⟩

abbrev threeOnOne :
    Machine (State Price (CtaStrategy Price) oneWorker) (Action Price oneWorker) :=
  machine CtaStrategy.onTick oneWorker threeStrategies

def bothTicks : List (Action Price oneWorker) :=
  [.main, .main, .recv (some (priceTick [97] 10)), .main, .recv (some (priceTick [97] 5)), .main,
    .run sole 0] ++ List.replicate 12 (.worker sole) ++ List.replicate 8 .pusher ++
    [.run sole 0] ++ List.replicate 12 (.worker sole) ++ List.replicate 8 .pusher

theorem bothTicks_sequential :
    let h := threeOnOne.steps threeOnOne.init bothTicks
    (sent h).map Order.offset = [.OPEN, .CLOSE] ∧ dropped h = [] ∧
      (dropped h = [] →
        accepted h <+: (processAll CtaStrategy.onTick threeOnOne.init.stgMap (started h)).2) :=
  ⟨by decide +kernel, by decide +kernel,
    (one_worker_sequential (Machine.run_get (by decide +kernel))).2.2.2.1⟩

end CtaEngine
