import FuTrader.Engine.Serial
import FuTrader.StraCta.CtaStrategy

/- A strategy object in the engine goes through the states, and returns the orders, that it
   would by itself when given the ticks of its returned calls one after the other. As in all
   that follows from it, the calls of onTick are atomic. -/
namespace CtaEngine
open FuTrader
variable {F S : Type} {W : ThreadNum}

def returnOf (s : State F S W) : Action F W → Option (Object × TickData F)
  | .worker w => match s.worker w with
    | .onTick tick j => (s.strategy (key tick, j)).map fun _ => ((key tick, j), tick)
    | _ => none
  | _ => none

/-- The ticks whose onTick on `o` has returned, in the order of the returns. -/
def returnedOn (o : Object) (h : List (State F S W × Action F W)) : List (TickData F) :=
  (Machine.log returnOf h).filterMap fun x => if x.1 = o then some x.2 else none

def ticksOf (o : Object) (x : Option (Object × TickData F)) : List (TickData F) :=
  x.toList.filterMap fun x => if x.1 = o then some x.2 else none

theorem returnedOn_snoc (o : Object) (h : List (State F S W × Action F W)) (s : State F S W)
    (a : Action F W) :
    returnedOn o (h ++ [(s, a)]) = returnedOn o h ++ ticksOf o (returnOf s a) := by
  rw [returnedOn, Machine.log_snoc, List.filterMap_append, ← returnedOn]
  rfl

theorem strategy_setStrategy_self (s : State F S W) (o : Object) {old : S}
    (present : s.strategy o = some old) (stg : S) :
    (s.setStrategy o stg).strategy o = some stg := by
  obtain ⟨stgs, found, place⟩ := Option.bind_eq_some_iff.mp present
  have inside := (List.getElem?_eq_some_iff.mp place).1
  simp [State.strategy, State.setStrategy, found, inside]

inductive Turns (onTick : S → TickData F → S × Option Order) (o : Object) (s t : State F S W)
    (a : Action F W) : Prop where
  | rest (same : t.strategy o = s.strategy o) (quiet : ∀ tick, returnOf s a ≠ some (o, tick))
      (silent : ∀ order, emitOf onTick s a ≠ some (o, order))
  | tick (stg : S) (tick : TickData F) (before : s.strategy o = some stg)
      (after : t.strategy o = some (onTick stg tick).1) (returns : returnOf s a = some (o, tick))
      (emits : emitOf onTick s a = (onTick stg tick).2.map fun order => (o, order))

theorem turns_of_onTick {onTick : S → TickData F → S × Option Order} {s t : State F S W}
    {w : Fin W.val} {tick : TickData F} {j : Nat} {stg : S} (o : Object)
    (pc : s.worker w = .onTick tick j) (present : s.strategy (key tick, j) = some stg)
    (after : ∀ p, t.strategy p = (s.setStrategy (key tick, j) (onTick stg tick).1).strategy p) :
    Turns onTick o s t (.worker w) := by
  have returns : returnOf s (.worker w) = some ((key tick, j), tick) := by
    simp [returnOf, pc, present]
  have emits : emitOf onTick s (.worker w) =
      (onTick stg tick).2.map fun order => ((key tick, j), order) := by
    simp [emitOf, pc, present]
  by_cases mine : o = (key tick, j)
  · subst mine
    refine .tick stg tick present ?_ returns emits
    rw [after, strategy_setStrategy_self s _ present]
  · refine .rest ?_ ?_ ?_
    · rw [after, strategy_setStrategy mine]
    · intro tick' same
      rw [returns] at same
      cases same
      exact mine rfl
    · intro order same
      rw [emits] at same
      obtain ⟨_, _, same⟩ := Option.map_eq_some_iff.mp same
      cases same
      exact mine rfl

theorem Step.turns {onTick : S → TickData F → S × Option Order} {s t : State F S W}
    {a : Action F W} (step : Step onTick s a t) (o : Object) : Turns onTick o s t a := by
  cases step with
  | silent w tick j stg pc present none => exact turns_of_onTick o pc present fun _ => rfl
  | emit w tick j stg order pc present some => exact turns_of_onTick o pc present fun _ => rfl
  | _ => exact .rest rfl (by simp [returnOf, *]) (by simp [emitOf, *])

theorem orders_snoc (onTick : S → TickData F → S × Option Order) (stg : S)
    (ticks : List (TickData F)) (tick : TickData F) :
    FuTrader.orders onTick stg (ticks ++ [tick]) =
      FuTrader.orders onTick stg ticks ++ (onTick (after onTick stg ticks) tick).2.toList := by
  rw [FuTrader.orders, returned_snoc, List.reduceOption_append, List.reduceOption_singleton,
    ← FuTrader.orders]

theorem byObject_own (o : Object) (given : Option Order) :
    byObject o (given.map fun order => (o, order)).toList = given.toList := by
  cases given <;> simp [byObject]

structure Alone (onTick : S → TickData F → S × Option Order) (stg : S) (o : Object)
    (h : List (State F S W × Action F W)) (s : State F S W) : Prop where
  state : s.strategy o = some (after onTick stg (returnedOn o h))
  orders : emittedBy onTick o h = FuTrader.orders onTick stg (returnedOn o h)

theorem alone_run {onTick : S → TickData F → S × Option Order} {added : List (Symbol × S)}
    {o : Object} {stg : S} (present : (init W added : State F S W).strategy o = some stg)
    {h : List (State F S W × Action F W)} {s : State F S W}
    (run : (machine onTick W added).Run h s) : Alone onTick stg o h s := by
  apply Machine.Run.invariant (M := machine onTick W added) (Alone onTick stg o) ?_ ?_ run
  · exact ⟨present, rfl⟩
  intro h s a t _ known step
  obtain ⟨state, orders⟩ := known
  cases (step_cases step).turns o with
  | rest same quiet silent =>
    have still : returnedOn o (h ++ [(s, a)]) = returnedOn o h := by
      rw [returnedOn_snoc]
      cases returns : returnOf s a with
      | none => simp [ticksOf]
      | some x =>
        have other : x.1 ≠ o := fun mine => quiet x.2 (by rw [returns, ← mine])
        simp [ticksOf, other]
    constructor
    · rw [still, same, state]
    · rw [still, emittedBy_snoc, byObject_other silent, List.append_nil, orders]
  | tick now tick before after returns emits =>
    have next : returnedOn o (h ++ [(s, a)]) = returnedOn o h ++ [tick] := by
      rw [returnedOn_snoc, returns]
      simp [ticksOf]
    rw [state] at before
    cases before
    constructor
    · rw [next, after_snoc, after]
    · rw [next, emittedBy_snoc, orders, emits, byObject_own, orders_snoc]

/-! The ticks of the returned calls are among those received. -/

def Worker.calling (o : Object) : Worker F → Multiset (TickData F)
  | .onTick tick j => if (key tick, j) = o then {tick} else 0
  | _ => 0

def State.calling (s : State F S W) (o : Object) : Multiset (TickData F) :=
  ∑ w, (s.worker w).calling o

theorem calling_update (s : State F S W) (o : Object) (w : Fin W.val) (x : Worker F) :
    (s.setWorker w x).calling o + (s.worker w).calling o = s.calling o + x.calling o := by
  have moved : (fun v => (Function.update s.worker w x v).calling o) =
      Function.update (fun v => (s.worker v).calling o) w (x.calling o) :=
    Function.comp_update (Worker.calling o) s.worker w x
  rw [State.calling, setWorker_worker, moved]
  exact Tally.sum_update (fun v => (s.worker v).calling o) w (x.calling o)

theorem calling_same {s : State F S W} {o : Object} {w : Fin W.val} {x : Worker F}
    (before : (s.worker w).calling o = 0) (after : x.calling o = 0) :
    (s.setWorker w x).calling o = s.calling o := by
  have moved := calling_update s o w x
  rwa [before, after, add_zero, add_zero] at moved

theorem ticksOf_some (o : Object) (tick : TickData F) (j : Nat) :
    (ticksOf o (some ((key tick, j), tick)) : Multiset (TickData F)) =
      if (key tick, j) = o then {tick} else 0 := by
  by_cases mine : (key tick, j) = o <;> simp [ticksOf, mine]

@[simp] theorem ticksOf_none (o : Object) : ticksOf o (none : Option (Object × TickData F)) = [] :=
  rfl

theorem Step.calling {onTick : S → TickData F → S × Option Order} {s t : State F S W}
    {a : Action F W} (step : Step onTick s a t) (o : Object) :
    (ticksOf o (returnOf s a) : Multiset (TickData F)) + t.calling o =
      s.calling o + ticksOf o (callOf s a) := by
  cases step with
  | call w tick j stg pc present =>
    have moved := calling_update s o w (.onTick tick j)
    simp only [pc, Worker.calling, add_zero] at moved
    have calls : callOf s (.worker w) = some ((key tick, j), tick) := by
      simp [callOf, pc, present]
    simp [returnOf, pc, calls, ticksOf_some, moved]
  | silent w tick j stg pc present none =>
    have moved := calling_update (s.setStrategy (key tick, j) (onTick stg tick).1) o w
      (.visit tick (j + 1))
    simp only [setStrategy_worker, pc, Worker.calling, add_zero] at moved
    have returns : returnOf s (.worker w) = some ((key tick, j), tick) := by
      simp [returnOf, pc, present]
    rw [returns, ticksOf_some, add_comm, moved]
    simp [State.calling, callOf, pc]
  | emit w tick j stg order pc present emits =>
    have moved := calling_update (s.setStrategy (key tick, j) (onTick stg tick).1) o w
      (.push tick j order)
    simp only [setStrategy_worker, pc, Worker.calling, add_zero] at moved
    have returns : returnOf s (.worker w) = some ((key tick, j), tick) := by
      simp [returnOf, pc, present]
    rw [returns, ticksOf_some, add_comm, moved]
    simp [State.calling, callOf, pc]
  | run w k tick free task =>
    rw [calling_same (by simp [free, Worker.calling]) rfl]
    simp [returnOf, callOf, State.calling]
  | missing w tick pc | found w tick stgs pc | last w tick j pc =>
    rw [calling_same (by simp [pc, Worker.calling]) rfl]
    simp [returnOf, callOf, *]
  | push w tick j order c pc | pushed w tick j order c result pc =>
    rw [calling_same (by simp [pc, Worker.calling]) rfl]
    simp [returnOf, callOf, State.calling, pc]
  | _ => simp [returnOf, callOf, State.calling, *]

theorem returned_called {onTick : S → TickData F → S × Option Order} {added : List (Symbol × S)}
    (o : Object) {h : List (State F S W × Action F W)} {s : State F S W}
    (run : (machine onTick W added).Run h s) :
    (returnedOn o h : Multiset (TickData F)) + s.calling o = calledOn o h := by
  apply Machine.Run.invariant (M := machine onTick W added)
    (fun h s => (returnedOn o h : Multiset (TickData F)) + s.calling o = calledOn o h) ?_ ?_ run
  · have none : (init W added : State F S W).calling o = 0 := Finset.sum_eq_zero fun w _ => rfl
    change 0 + (init W added : State F S W).calling o = 0
    rw [none, add_zero]
  intro h s a t _ known step
  have moved := (step_cases step).calling o
  rw [returnedOn_snoc, calledOn_snoc, ← ticksOf, ← Multiset.coe_add, ← Multiset.coe_add, ← known,
    add_assoc, moved, add_assoc]

theorem returned_received {onTick : S → TickData F → S × Option Order} {added : List (Symbol × S)}
    (o : Object) {h : List (State F S W × Action F W)} {s : State F S W}
    (run : (machine onTick W added).Run h s) :
    (returnedOn o h : Multiset (TickData F)) ≤ receivedBy o.1 h := by
  have once := called_once o run
  rw [← returned_called o run, add_assoc, add_assoc] at once
  exact (Multiset.le_add_right _ _).trans once

/-- With an atomic onTick every object acts as if it were alone with the ticks that its
    returned calls were given, in the order of the returns; and each tick received for its
    symbol is given to it once at most. -/
theorem strategy_alone {onTick : S → TickData F → S × Option Order} {added : List (Symbol × S)}
    {h : List (State F S W × Action F W)} {s : State F S W}
    (run : (machine onTick W added).Run h s) (o : Object) (stg : S)
    (present : (init W added : State F S W).strategy o = some stg) :
    s.strategy o = some (after onTick stg (returnedOn o h)) ∧
      emittedBy onTick o h = FuTrader.orders onTick stg (returnedOn o h) ∧
      (returnedOn o h : Multiset (TickData F)) ≤ receivedBy o.1 h := by
  obtain ⟨state, orders⟩ := alone_run present run
  exact ⟨state, orders, returned_received o run⟩

theorem closeFirst_alone :
    let h := oneStrategy.steps oneStrategy.init closeFirst
    (returnedOn ([97], 0) h).map TickData.last = [10, 5] ∧
      emittedBy DualThrust.onTick ([97], 0) h =
        FuTrader.orders DualThrust.onTick .fresh (returnedOn ([97], 0) h) :=
  ⟨by decide +kernel,
    (strategy_alone (@Machine.run_get _ _ oneStrategy closeFirst (by decide +kernel)) ([97], 0)
      DualThrust.fresh rfl).2.1⟩

theorem mem_added {added : List (Symbol × S)} {o : Object} {stg : S}
    (present : (init W added : State F S W).strategy o = some stg) : (o.1, stg) ∈ added := by
  rw [strategy_init] at present
  obtain ⟨x, among, rfl⟩ := List.mem_map.mp (List.mem_of_getElem? present)
  obtain ⟨there, symbol⟩ := List.mem_filter.mp among
  rw [← of_decide_eq_true symbol]
  exact there

theorem strategies_keep {onTick : S → TickData F → S × Option Order} {added : List (Symbol × S)}
    (I : S → Prop) (base : ∀ x ∈ added, I x.2) (keep : ∀ stg tick, I stg → I (onTick stg tick).1)
    {s : State F S W} (reach : (machine onTick W added).Reachable s) {o : Object} {stg : S}
    (present : s.strategy o = some stg) : I stg := by
  apply Machine.Reachable.invariant (M := machine onTick W added)
    (fun s => ∀ stg, s.strategy o = some stg → I stg) ?_ ?_ reach stg present
  · intro stg present
    exact base _ (mem_added present)
  · intro s a t _ known step stg present
    cases (step_cases step).turns o with
    | rest same => exact known stg (by rw [← same, present])
    | tick old tick before after =>
      rw [after] at present
      cases present
      exact keep old tick (known old before)

end CtaEngine
