import FuTrader.Ctp.Ticks
import FuTrader.Engine.Serial

/- From a depth market data record to the strategies: its tick is published as the raw
   struct, filtered by the subscriptions of the engine and looked up by its symbol. -/
namespace CtaEngine
open FuTrader
variable {F S : Type} {W : ThreadNum}

/-- The bytes of a tick, `symbol` first; `rest` gives those of the other fields. -/
def message (rest : TickData F → List UInt8) (tick : TickData F) : List UInt8 :=
  tick.symbol.toList ++ rest tick

/-- A message goes to a SUB socket if it begins with a subscription; addStrategy subscribes
    to the symbol. -/
def subscribed (added : List (Symbol × S)) (msg : List UInt8) : Bool :=
  added.any fun x => x.1.isPrefixOf msg

def passes (rest : TickData F → List UInt8) (added : List (Symbol × S)) : Action F W → Bool
  | .recv (some tick) => subscribed added (message rest tick)
  | _ => true

def filtered (rest : TickData F → List UInt8) (onTick : S → TickData F → S × Option Order)
    (W : ThreadNum) (added : List (Symbol × S)) : Machine (State F S W) (Action F W) :=
  (machine onTick W added).restrict (passes rest added)

def registered (added : List (Symbol × S)) (symbol : Symbol) : List Nat :=
  (added.zipIdx.filter fun x => x.1.1 = symbol).map Prod.snd

def registration (added : List (Symbol × S)) (o : Object) : Option Nat :=
  (registered added o.1)[o.2]?

theorem strategy_registration (added : List (Symbol × S)) (o : Object) :
    (init W added : State F S W).strategy o =
      (registration added o).bind fun i => added[i]?.map Prod.snd := by
  have calls : added.filter (fun x => x.1 = o.1) =
      (added.zipIdx.filter fun x => x.1.1 = o.1).map Prod.fst := by
    conv_lhs => rw [← List.zipIdx_map_fst 0 added, List.filter_map]
    rfl
  rw [strategy_init, calls, registration, registered, List.map_map, List.getElem?_map,
    List.getElem?_map, Option.bind_map]
  cases found : (added.zipIdx.filter fun x => x.1.1 = o.1)[o.2]? with
  | none => rfl
  | some x =>
    have among := (List.mem_filter.mp (List.mem_of_getElem? found)).1
    rw [Option.map_some, Option.bind_some, Function.comp_apply, Function.comp_apply,
      List.mem_zipIdx_iff_getElem?.mp among]
    rfl

theorem registration_present {added : List (Symbol × S)} {o : Object} {i : Nat}
    (call : registration added o = some i) : (added[i]?).isSome = true := by
  obtain ⟨x, among, rfl⟩ := List.mem_map.mp (List.mem_of_getElem? call)
  rw [List.mem_zipIdx_iff_getElem?.mp (List.mem_filter.mp among).1]
  rfl

theorem present_reachable {onTick : S → TickData F → S × Option Order}
    {added : List (Symbol × S)} {s : State F S W} (reach : (machine onTick W added).Reachable s)
    (o : Object) : (s.strategy o).isSome = (registration added o).isSome := by
  apply Machine.Reachable.invariant (M := machine onTick W added)
    (fun s => (s.strategy o).isSome = (registration added o).isSome) ?_ ?_ reach
  · change ((init W added : State F S W).strategy o).isSome = _
    rw [strategy_registration]
    cases call : registration added o with
    | none => rfl
    | some i => simpa using registration_present call
  · intro s a t _ known step
    rw [(step_cases step).present o, known]

def places (symbol : Symbol) (n : Nat) : List Object := (List.range n).map fun j => (symbol, j)

theorem places_succ (symbol : Symbol) (n : Nat) :
    places symbol (n + 1) = places symbol n ++ [(symbol, n)] := by
  simp [places, List.range_succ]

theorem places_registered (added : List (Symbol × S)) (symbol : Symbol) :
    (places symbol (registered added symbol).length).map (registration added) =
      (registered added symbol).map some := by
  apply List.ext_getElem
  · simp [places]
  · intro j _ inside
    have within : j < (registered added symbol).length := by simpa using inside
    simp [places, registration, within]

def Action.starts (w : Fin W.val) : Action F W → Bool
  | .run v _ => v = w
  | _ => false

def callBy (w : Fin W.val) (s : State F S W) : Action F W → Option Object
  | .worker v => if v = w then (callOf s (.worker v)).map Prod.fst else none
  | _ => none

def calledBy (w : Fin W.val) (h : List (State F S W × Action F W)) : List Object :=
  Machine.log (callBy w) h

/-- A worker in the task of `tick`, or behind it, with the strategies it has called; the
    symbol of the tick has `n` of them. -/
def Worker.InTask (tick : TickData F) (n : Nat) (calls : List Object) : Worker F → Prop
  | .idle => calls = places (key tick) n
  | .find t => t = tick ∧ calls = []
  | .visit t j => t = tick ∧ j ≤ n ∧ calls = places (key tick) j
  | .onTick t j | .push t j _ | .pushing t j _ =>
    t = tick ∧ j < n ∧ calls = places (key tick) (j + 1)

theorem Step.elsewhere {onTick : S → TickData F → S × Option Order} {s t : State F S W}
    {a : Action F W} (step : Step onTick s a t) {w : Fin W.val} (mine : a ≠ .worker w)
    (start : a.starts w = false) : t.worker w = s.worker w := by
  cases step with
  | run v k =>
    have apart : v ≠ w := of_decide_eq_false start
    simp [Ne.symm apart]
  | missing v | found v | last v | call v | silent v | emit v | push v | pushed v =>
    have apart : w ≠ v := fun same => mine (by rw [same])
    simp [apart]
  | _ => rfl

theorem callBy_elsewhere {s : State F S W} {a : Action F W} {w : Fin W.val}
    (mine : a ≠ .worker w) : callBy w s a = none := by
  cases a with
  | worker v =>
    have apart : v ≠ w := fun same => mine (by rw [same])
    simp [callBy, apart]
  | _ => rfl

theorem Step.inTask {onTick : S → TickData F → S × Option Order} {s t : State F S W}
    {a : Action F W} (step : Step onTick s a t) {w : Fin W.val} {tick : TickData F} {n : Nat}
    (has : ∀ j, (s.strategy (key tick, j)).isSome = true ↔ j < n) {calls : List Object}
    (inTask : (s.worker w).InTask tick n calls) (start : a.starts w = false) :
    (t.worker w).InTask tick n (calls ++ (callBy w s a).toList) := by
  by_cases mine : a = .worker w
  · subst mine
    cases step with
    | missing _ tick' pc absent =>
      rw [pc] at inTask
      obtain ⟨rfl, rfl⟩ := inTask
      have zero : n = 0 := by
        by_contra some
        have first := (has 0).mpr (by omega)
        simp [State.strategy, absent] at first
      simp [callBy, callOf, pc, Worker.InTask, zero, places]
    | found _ tick' stgs pc present =>
      rw [pc] at inTask
      obtain ⟨rfl, rfl⟩ := inTask
      simp [callBy, callOf, pc, Worker.InTask, places]
    | last _ tick' j pc absent =>
      rw [pc] at inTask
      obtain ⟨rfl, most, rfl⟩ := inTask
      have least : ¬ j < n := by simp [← has, absent]
      obtain rfl : j = n := by omega
      simp [callBy, callOf, pc, absent, Worker.InTask]
    | call _ tick' j stg pc present =>
      rw [pc] at inTask
      obtain ⟨rfl, most, rfl⟩ := inTask
      have less : j < n := (has j).mp (by rw [present]; rfl)
      simp [callBy, callOf, pc, present, Worker.InTask, less, places_succ]
    | silent _ tick' j stg pc present =>
      rw [pc] at inTask
      obtain ⟨rfl, less, rfl⟩ := inTask
      simp [callBy, callOf, pc, Worker.InTask, Nat.succ_le_of_lt less]
    | emit _ tick' j stg order pc present =>
      rw [pc] at inTask
      simpa [callBy, callOf, pc, Worker.InTask] using inTask
    | push _ tick' j order c pc =>
      rw [pc] at inTask
      simpa [callBy, callOf, pc, Worker.InTask] using inTask
    | pushing _ tick' j order c pc =>
      simpa [callBy, callOf, pc] using inTask
    | pushed _ tick' j order c result pc =>
      rw [pc] at inTask
      obtain ⟨rfl, less, rfl⟩ := inTask
      simp [callBy, callOf, pc, Worker.InTask, Nat.succ_le_of_lt less]
  · rw [step.elsewhere mine start, callBy_elsewhere mine, Option.toList_none, List.append_nil]
    exact inTask

/-- A worker given a task calls the strategies of its symbol, each once and in the order in
    which they were added, before it is idle again. -/
theorem task_calls {onTick : S → TickData F → S × Option Order} {added : List (Symbol × S)}
    {earlier later : List (State F S W × Action F W)} {u s : State F S W} {w : Fin W.val}
    {k : Nat} {tick : TickData F}
    (run : (machine onTick W added).Run (earlier ++ (u, .run w k) :: later) s)
    (task : u.pending[k]? = some tick) (same : ∀ x ∈ later, x.2.starts w = false) :
    (s.worker w).InTask tick (registered added (key tick)).length (calledBy w later) := by
  have always := Machine.Run.since
    (fun later s => (∀ x ∈ later, x.2.starts w = false) →
      (s.worker w).InTask tick (registered added (key tick)).length (calledBy w later)) ?_ ?_ run
  · exact always same
  · intro t step _
    have given : Step onTick u (.run w k) t := step_cases step
    cases given with
    | run _ _ tick' free there =>
      rw [task] at there
      cases there
      simp [Worker.InTask, calledBy]
  · intro later s a t reach known step same
    rw [calledBy, Machine.log_snoc]
    refine (step_cases step).inTask (fun j => ?_) (known fun x member => same x (by simp [member]))
      (same (s, a) (by simp))
    rw [present_reachable reach, registration, Option.isSome_iff_ne_none, Ne,
      List.getElem?_eq_none_iff, not_le]

theorem received_started {onTick : S → TickData F → S × Option Order}
    {added : List (Symbol × S)} (symbol : Symbol) {h : List (State F S W × Action F W)}
    {s : State F S W} (run : (machine onTick W added).Run h s) :
    (startedBy symbol h ++ bySymbol symbol s.pending).Perm (receivedBy symbol h) := by
  apply Machine.Run.invariant (M := machine onTick W added)
    (fun h s => (startedBy symbol h ++ bySymbol symbol s.pending).Perm (receivedBy symbol h))
    ?_ ?_ run
  · exact .refl _
  · intro h s a t _ known step
    have queue := ((step_cases step).pending symbol).1
    rw [startedBy_snoc (symbol, 0), receivedBy_snoc (symbol, 0), List.append_assoc]
    have queued := queue.append_left (startedBy symbol h)
    rw [← List.append_assoc (startedBy symbol h) (bySymbol symbol s.pending)] at queued
    exact queued.trans (known.append_right _)

theorem subscribed_of_registered {rest : TickData F → List UInt8} {added : List (Symbol × S)}
    {tick : TickData F} (some : registered added (key tick) ≠ []) :
    subscribed added (message rest tick) = true := by
  obtain ⟨i, member⟩ := List.exists_mem_of_ne_nil _ some
  obtain ⟨x, among, _⟩ := List.mem_map.mp member
  obtain ⟨present, symbol⟩ := List.mem_filter.mp among
  refine List.any_eq_true.mpr ⟨x.1, ?_, ?_⟩
  · exact List.mem_of_getElem? (List.mem_zipIdx_iff_getElem?.mp present)
  · rw [of_decide_eq_true symbol, List.isPrefixOf_iff_prefix]
    exact (List.takeWhile_prefix _).trans (List.prefix_append _ _)

/-- The tick of a record passes the filter if some strategy was added under the string of its
    InstrumentID, cut after 15 bytes; every one received becomes a task; and a task calls
    these strategies, each once, in the order in which they were added, and no others. -/
theorem routed_by_symbol (one : F) (days : Int → UInt32 → UInt32 → Int)
    (c : TickParser.TimeStampCalculator) (r : CtpMd.DepthMarketData F)
    (rest : TickData F → List UInt8) (onTick : S → TickData F → S × Option Order)
    (added : List (Symbol × S)) :
    let tick := (CtpMd.onRtnDepthMarketData one days c r).1
    let symbol := (CtpMd.instrument r).take 15
    ((CtpMd.instrument r).length ≤ 15 → symbol = CtpMd.instrument r) ∧
      (registered added symbol ≠ [] → subscribed added (message rest tick) = true) ∧
      (∀ h s, (filtered rest onTick W added).Run h s →
        (startedBy symbol h ++ bySymbol symbol s.pending).Perm (receivedBy symbol h)) ∧
      ∀ earlier u w k later s, (filtered rest onTick W added).Run
          (earlier ++ (u, .run w k) :: later) s →
        u.pending[k]? = some tick → (∀ x ∈ later, x.2.starts w = false) → s.worker w = .idle →
          (calledBy w later).map (registration added) = (registered added symbol).map some := by
  intro tick symbol
  have same : key tick = symbol := CtpMd.cString_symbol r
  refine ⟨List.take_of_length_le, fun some => ?_, fun h s run => ?_, ?_⟩
  · rw [← same] at some
    exact subscribed_of_registered some
  · exact received_started symbol run.of_restrict
  · intro earlier u w k later s run task one idle
    have calls := task_calls run.of_restrict task one
    rw [idle] at calls
    rw [← same, ← places_registered, show calledBy w later = _ from calls]

/-! A spread whose InstrumentID has 16 bytes. -/

def spread : List UInt8 := [83, 80, 32, 108, 99, 50, 52, 48, 57, 38, 108, 99, 50, 53, 48, 49]

def recordOf (instrumentID : List UInt8) : CtpMd.DepthMarketData ℚ :=
  ⟨⟨charArray 81 instrumentID, charArray 9 [], charArray 9 [], 0, 0, 0, 0, 0⟩,
    0, 0, 0, 0, 0, 0, 0, 0, 0, 0, 0, 0, 0, 0, 0, 0, 0, 0, 0, 0, 0,
    0, 0, 0, 0, 0, 0, 0, 0, 0, 0⟩

def spreadTick : TickData ℚ :=
  (CtpMd.onRtnDepthMarketData 1 (fun _ _ _ => 0) .new (recordOf spread)).1

abbrev spreadAdded : List (Symbol × Unit) := [(spread.take 15, ()), (spread, ())]

abbrev spreadEngine : Machine (State ℚ Unit twoWorkers) (Action ℚ twoWorkers) :=
  filtered (fun _ => []) (fun s _ => (s, none)) twoWorkers spreadAdded

def upToTask : List (Action ℚ twoWorkers) := [.main, .main, .recv (some spreadTick)]

def afterTask : List (Action ℚ twoWorkers) := [.worker 0, .worker 0, .worker 0, .worker 0]

theorem spread_task : ∃ earlier u later s,
    spreadEngine.Run (earlier ++ (u, .run 0 0) :: later) s ∧ u.pending[0]? = some spreadTick ∧
      (∀ x ∈ later, x.2.starts 0 = false) ∧ s.worker 0 = .idle ∧
      calledBy 0 later = [(spread.take 15, 0)] := by
  have run := @Machine.run_around _ _ spreadEngine upToTask afterTask (.run 0 0)
    (by decide +kernel) (by decide +kernel) (by decide +kernel)
  exact ⟨_, _, _, _, run, rfl, by decide +kernel, rfl, by decide +kernel⟩

theorem spread_calls_prefix :
    subscribed spreadAdded (message (fun _ => []) spreadTick) = true ∧
      ∃ earlier u later s, spreadEngine.Run (earlier ++ (u, .run 0 0) :: later) s ∧
        (calledBy 0 later).map (registration spreadAdded) = [some 0] := by
  have routed := routed_by_symbol (W := twoWorkers) 1 (fun _ _ _ => 0) .new (recordOf spread)
    (fun _ => []) (fun s _ => (s, none)) spreadAdded
  obtain ⟨earlier, u, later, s, run, task, same, idle, _⟩ := spread_task
  constructor
  · exact routed.2.1 (by decide +kernel)
  · refine ⟨earlier, u, later, s, run, ?_⟩
    rw [routed.2.2.2 earlier u 0 0 later s run task same idle]
    decide +kernel

/-- The strategy of the first 15 bytes runs on the tick of the spread, and that of the
    spread does not. -/
theorem spread_misrouted :
    ¬ ∀ (r : CtpMd.DepthMarketData ℚ) earlier u w k later s,
      spreadEngine.Run (earlier ++ (u, .run w k) :: later) s →
      u.pending[k]? = some (CtpMd.onRtnDepthMarketData 1 (fun _ _ _ => 0) .new r).1 →
      (∀ x ∈ later, x.2.starts w = false) → s.worker w = .idle →
      (calledBy w later).map (registration spreadAdded) =
        (registered spreadAdded (CtpMd.instrument r)).map some := by
  intro always
  obtain ⟨earlier, u, later, s, run, task, same, idle, called⟩ := spread_task
  have calls := always (recordOf spread) earlier u 0 0 later s run task same idle
  rw [called] at calls
  revert calls
  decide +kernel

end CtaEngine
