import FuTrader.Channel.Accounting
import FuTrader.Common.Data

/- CtaEngine: the poll loop of start(), the tick tasks on the workers of the executor,
   the order-push thread, and stop() at any moment. A strategy is any state with an
   onTick. A call of it is taken as atomic: it reads and writes the object in one step, at
   its return. The source takes no lock, and what two calls do that overlap on one object
   (Serial has such a run) is not said here. -/
namespace CtaEngine
open FuTrader

/-- `lockfree::MPSC<Order, 1024> _channel{}`. -/
def channelSize : Mpsc.BufSize := ⟨1024, by decide, by decide, by decide⟩

/-- An Order is copied where it is moved from. -/
def orderElement : Mpsc.Element Order where
  init := ⟨Vector.replicate 32 0, Vector.replicate 16 0, 0, 0, .BUY, .OPEN⟩
  moved := id

/-- `thread_num`; the executor keeps a vector with one object for each worker. -/
structure ThreadNum where
  val : Nat
  lt : val < 2 ^ 63

abbrev Symbol := List UInt8

/-- `tick.symbol` as the std::string that is looked up. -/
def key {F : Type} (tick : TickData F) : Symbol := cString tick.symbol.toList

inductive Main where
  | start
  | check
  | poll
  | waitAll
  | store
  | returned
  deriving DecidableEq

/- Where a worker is; `j` is the place of the strategy in the vector of its symbol. -/
inductive Worker (F : Type) where
  | idle
  | find (tick : TickData F)
  | visit (tick : TickData F) (j : Nat)
  | onTick (tick : TickData F) (j : Nat)
  | push (tick : TickData F) (j : Nat) (order : Order)
  | pushing (tick : TickData F) (j : Nat) (order : Order)

def Worker.isIdle {F : Type} : Worker F → Bool
  | .idle => true
  | _ => false

inductive Pusher where
  | notStarted
  | check
  | pop
  | popping
  | send (order : Order)
  | sleep
  | exited
  deriving DecidableEq

structure State (F S : Type) (W : ThreadNum) where
  channel : Mpsc.State Mpsc.SizeT Order channelSize W.val
  stgMap : Symbol → Option (List S)
  running : Bool
  main : Main
  pending : List (TickData F)
  worker : Fin W.val → Worker F
  pusher : Pusher

/- `run w k`: the executor gives worker `w` the task at place `k` of those submitted and
   not yet started. `notify w`: notify_one wakes `w`. -/
inductive Action (F : Type) (W : ThreadNum) where
  | main
  | recv (tick : Option (TickData F))
  | stop
  | run (w : Fin W.val) (k : Nat)
  | worker (w : Fin W.val)
  | spurious (w : Fin W.val)
  | pusher
  | notify (w : Fin W.val)

section
variable {F S : Type} {W : ThreadNum}

def State.setWorker (s : State F S W) (w : Fin W.val) (x : Worker F) : State F S W :=
  { s with worker := Function.update s.worker w x }

/-- A strategy object: its symbol and its place in the vector. -/
abbrev Object := Symbol × Nat

def State.strategy (s : State F S W) (o : Object) : Option S := (s.stgMap o.1).bind (·[o.2]?)

def State.setStrategy (s : State F S W) (o : Object) (stg : S) : State F S W :=
  { s with stgMap := Function.update s.stgMap o.1 ((s.stgMap o.1).map (·.set o.2 stg)) }

section fields
variable (s : State F S W) (w : Fin W.val) (x : Worker F) (o : Object) (stg : S)

@[simp] theorem setWorker_channel : (s.setWorker w x).channel = s.channel := rfl
@[simp] theorem setWorker_stgMap : (s.setWorker w x).stgMap = s.stgMap := rfl
@[simp] theorem setWorker_running : (s.setWorker w x).running = s.running := rfl
@[simp] theorem setWorker_main : (s.setWorker w x).main = s.main := rfl
@[simp] theorem setWorker_pending : (s.setWorker w x).pending = s.pending := rfl
@[simp] theorem setWorker_pusher : (s.setWorker w x).pusher = s.pusher := rfl
@[simp] theorem setWorker_worker :
    (s.setWorker w x).worker = Function.update s.worker w x := rfl
@[simp] theorem setWorker_strategy : (s.setWorker w x).strategy o = s.strategy o := rfl
@[simp] theorem setStrategy_channel : (s.setStrategy o stg).channel = s.channel := rfl
@[simp] theorem setStrategy_running : (s.setStrategy o stg).running = s.running := rfl
@[simp] theorem setStrategy_main : (s.setStrategy o stg).main = s.main := rfl
@[simp] theorem setStrategy_pending : (s.setStrategy o stg).pending = s.pending := rfl
@[simp] theorem setStrategy_worker : (s.setStrategy o stg).worker = s.worker := rfl
@[simp] theorem setStrategy_pusher : (s.setStrategy o stg).pusher = s.pusher := rfl
end fields

/-- `_stg_map[symbol].emplace_back(std::move(strategy))`. -/
def addStrategy (stgMap : Symbol → Option (List S)) (symbol : Symbol) (strategy : S) :
    Symbol → Option (List S) :=
  Function.update stgMap symbol (some ((stgMap symbol).getD [] ++ [strategy]))

def init (W : ThreadNum) (added : List (Symbol × S)) : State F S W where
  channel := Mpsc.init channelSize.sizeT orderElement W.val
  stgMap := added.foldl (fun m x => addStrategy m x.1 x.2) fun _ => none
  running := true
  main := .start
  pending := []
  worker _ := .idle
  pusher := .notStarted

theorem strategy_setStrategy {s : State F S W} {o p : Object} (other : o ≠ p) (stg : S) :
    (s.setStrategy p stg).strategy o = s.strategy o := by
  by_cases symbol : o.1 = p.1
  · have place : p.2 ≠ o.2 := fun same => other (Prod.ext symbol same.symm)
    cases found : s.stgMap p.1 <;>
      simp [State.strategy, State.setStrategy, symbol, found, place]
  · simp [State.strategy, State.setStrategy, symbol]

theorem addStrategy_all (symbol : Symbol) (added : List (Symbol × S))
    (stgMap : Symbol → Option (List S)) :
    (added.foldl (fun m x => addStrategy m x.1 x.2) stgMap symbol).getD [] =
      (stgMap symbol).getD [] ++ (added.filter fun x => x.1 = symbol).map Prod.snd := by
  induction added generalizing stgMap with
  | nil => simp
  | cons x rest ih =>
    rw [List.foldl_cons, ih]
    by_cases same : x.1 = symbol
    · subst same
      simp [addStrategy]
    · simp [addStrategy, same, Ne.symm same]

theorem strategy_init (added : List (Symbol × S)) (o : Object) :
    (init W added : State F S W).strategy o =
      ((added.filter fun x => x.1 = o.1).map Prod.snd)[o.2]? := by
  have all := addStrategy_all o.1 added fun _ => none
  rw [Option.getD_none, List.nil_append] at all
  rw [← all]
  change ((init W added : State F S W).stgMap o.1).bind _ =
    (((init W added : State F S W).stgMap o.1).getD [])[o.2]?
  cases (init W added : State F S W).stgMap o.1 <;> rfl

def mainStep (s : State F S W) : Option (State F S W) :=
  match s.main with
  | .start => some { s with pusher := .check, main := .check }
  | .check => some { s with main := if s.running then .poll else .waitAll }
  | .poll => none
  | .waitAll =>                                                    -- wait_for_all
    if s.pending.isEmpty ∧ ∀ w, (s.worker w).isIdle then some { s with main := .store } else none
  | .store => some { s with running := false, main := .returned }
  | .returned => none

/-- zmq_poll and zmq_recv: a tick for a new task, or none in 100 ms. -/
def recvStep (s : State F S W) (tick : Option (TickData F)) : Option (State F S W) :=
  match s.main with
  | .poll => some { s with pending := s.pending ++ tick.toList, main := .check }
  | _ => none

def runStep (s : State F S W) (w : Fin W.val) (k : Nat) : Option (State F S W) :=
  match s.worker w with
  | .idle => (s.pending[k]?).map fun tick =>
    { s with pending := s.pending.eraseIdx k }.setWorker w (.find tick)
  | _ => none

def channelStep (s : State F S W) (b : Mpsc.Action Order W.val) : Option (State F S W) :=
  (Mpsc.step channelSize.sizeT orderElement s.channel b).map fun c => { s with channel := c }

def workerStep (onTick : S → TickData F → S × Option Order) (s : State F S W) (w : Fin W.val) :
    Option (State F S W) :=
  match s.worker w with
  | .idle => none
  | .find tick =>
    match s.stgMap (key tick) with
    | none => some (s.setWorker w .idle)
    | some _ => some (s.setWorker w (.visit tick 0))
  | .visit tick j =>
    match s.strategy (key tick, j) with
    | none => some (s.setWorker w .idle)                           -- end of the vector
    | some _ => some (s.setWorker w (.onTick tick j))
  | .onTick tick j =>                                              -- atomic
    (s.strategy (key tick, j)).map fun stg =>
      let t := s.setStrategy (key tick, j) (onTick stg tick).1
      match (onTick stg tick).2 with
      | none => t.setWorker w (.visit tick (j + 1))
      | some order => t.setWorker w (.push tick j order)
  | .push tick j order =>
    (channelStep s (.push w order)).map (·.setWorker w (.pushing tick j order))
  | .pushing tick j _ =>
    match Mpsc.pushResult channelSize.sizeT s.channel w with
    | none => channelStep s (.producer w)
    | some _ =>                                                    -- the result is not used
      (channelStep s (.producer w)).map (·.setWorker w (.visit tick (j + 1)))

def pusherStep (s : State F S W) : Option (State F S W) :=
  match s.pusher with
  | .notStarted => none
  | .check => some { s with pusher := if s.running then .pop else .exited }
  | .pop => (channelStep s (.pop .optional)).map ({ · with pusher := .popping })
  | .popping =>
    match Mpsc.popResult channelSize.sizeT s.channel with
    | none => channelStep s .consumer
    | some none => (channelStep s .consumer).map ({ · with pusher := .sleep })
    | some (some order) => (channelStep s .consumer).map ({ · with pusher := .send order })
  | .send _ => some { s with pusher := .check }                    -- zmq_send
  | .sleep => some { s with pusher := .check }
  | .exited => none

def step (onTick : S → TickData F → S × Option Order) (s : State F S W) :
    Action F W → Option (State F S W)
  | .main => mainStep s
  | .recv tick => recvStep s tick
  | .stop => some { s with running := false }
  | .run w k => runStep s w k
  | .worker w => workerStep onTick s w
  | .spurious w => channelStep s (.spurious w)
  | .pusher => pusherStep s
  | .notify w => channelStep s (.wake w)

def machine (onTick : S → TickData F → S × Option Order) (W : ThreadNum)
    (added : List (Symbol × S)) : Machine (State F S W) (Action F W) where
  init := init W added
  step := step onTick

abbrev Moves (s : State F S W) (b : Mpsc.Action Order W.val)
    (c : Mpsc.State Mpsc.SizeT Order channelSize W.val) : Prop :=
  Mpsc.step channelSize.sizeT orderElement s.channel b = some c

inductive Step (onTick : S → TickData F → S × Option Order) (s : State F S W) :
    Action F W → State F S W → Prop where
  | launch (pc : s.main = .start) :
      Step onTick s .main { s with pusher := .check, main := .check }
  | loop (pc : s.main = .check) :
      Step onTick s .main { s with main := if s.running then .poll else .waitAll }
  | drained (pc : s.main = .waitAll) (none : s.pending = [])
      (idle : ∀ w, s.worker w = .idle) : Step onTick s .main { s with main := .store }
  | finish (pc : s.main = .store) :
      Step onTick s .main { s with running := false, main := .returned }
  | recv (tick : Option (TickData F)) (pc : s.main = .poll) :
      Step onTick s (.recv tick) { s with pending := s.pending ++ tick.toList, main := .check }
  | stop : Step onTick s .stop { s with running := false }
  | run (w : Fin W.val) (k : Nat) (tick : TickData F) (free : s.worker w = .idle)
      (task : s.pending[k]? = some tick) :
      Step onTick s (.run w k)
        ({ s with pending := s.pending.eraseIdx k }.setWorker w (.find tick))
  | missing (w : Fin W.val) (tick : TickData F) (pc : s.worker w = .find tick)
      (absent : s.stgMap (key tick) = none) : Step onTick s (.worker w) (s.setWorker w .idle)
  | found (w : Fin W.val) (tick : TickData F) (stgs : List S) (pc : s.worker w = .find tick)
      (present : s.stgMap (key tick) = some stgs) :
      Step onTick s (.worker w) (s.setWorker w (.visit tick 0))
  | last (w : Fin W.val) (tick : TickData F) (j : Nat) (pc : s.worker w = .visit tick j)
      (absent : s.strategy (key tick, j) = none) :
      Step onTick s (.worker w) (s.setWorker w .idle)
  | call (w : Fin W.val) (tick : TickData F) (j : Nat) (stg : S)
      (pc : s.worker w = .visit tick j) (present : s.strategy (key tick, j) = some stg) :
      Step onTick s (.worker w) (s.setWorker w (.onTick tick j))
  | silent (w : Fin W.val) (tick : TickData F) (j : Nat) (stg : S)
      (pc : s.worker w = .onTick tick j) (present : s.strategy (key tick, j) = some stg)
      (none : (onTick stg tick).2 = none) :
      Step onTick s (.worker w)
        ((s.setStrategy (key tick, j) (onTick stg tick).1).setWorker w (.visit tick (j + 1)))
  | emit (w : Fin W.val) (tick : TickData F) (j : Nat) (stg : S) (order : Order)
      (pc : s.worker w = .onTick tick j) (present : s.strategy (key tick, j) = some stg)
      (some : (onTick stg tick).2 = some order) :
      Step onTick s (.worker w)
        ((s.setStrategy (key tick, j) (onTick stg tick).1).setWorker w (.push tick j order))
  | push (w : Fin W.val) (tick : TickData F) (j : Nat) (order : Order)
      (c : Mpsc.State Mpsc.SizeT Order channelSize W.val) (pc : s.worker w = .push tick j order)
      (moves : Moves s (.push w order) c) :
      Step onTick s (.worker w)
        ({ s with channel := c }.setWorker w (.pushing tick j order))
  | pushing (w : Fin W.val) (tick : TickData F) (j : Nat) (order : Order)
      (c : Mpsc.State Mpsc.SizeT Order channelSize W.val)
      (pc : s.worker w = .pushing tick j order) (moves : Moves s (.producer w) c)
      (inside : Mpsc.pushResult channelSize.sizeT s.channel w = none) :
      Step onTick s (.worker w) { s with channel := c }
  | pushed (w : Fin W.val) (tick : TickData F) (j : Nat) (order : Order)
      (c : Mpsc.State Mpsc.SizeT Order channelSize W.val) (result : Bool)
      (pc : s.worker w = .pushing tick j order) (moves : Moves s (.producer w) c)
      (returns : Mpsc.pushResult channelSize.sizeT s.channel w = some result) :
      Step onTick s (.worker w)
        ({ s with channel := c }.setWorker w (.visit tick (j + 1)))
  | spurious (w : Fin W.val) (c : Mpsc.State Mpsc.SizeT Order channelSize W.val)
      (moves : Moves s (.spurious w) c) : Step onTick s (.spurious w) { s with channel := c }
  | again (pc : s.pusher = .check) :
      Step onTick s .pusher { s with pusher := if s.running then .pop else .exited }
  | pop (c : Mpsc.State Mpsc.SizeT Order channelSize W.val) (pc : s.pusher = .pop)
      (moves : Moves s (.pop .optional) c) :
      Step onTick s .pusher { s with channel := c, pusher := .popping }
  | popping (c : Mpsc.State Mpsc.SizeT Order channelSize W.val) (pc : s.pusher = .popping)
      (moves : Moves s .consumer c)
      (inside : Mpsc.popResult channelSize.sizeT s.channel = none) :
      Step onTick s .pusher { s with channel := c }
  | empty (c : Mpsc.State Mpsc.SizeT Order channelSize W.val) (pc : s.pusher = .popping)
      (moves : Moves s .consumer c)
      (returns : Mpsc.popResult channelSize.sizeT s.channel = some none) :
      Step onTick s .pusher { s with channel := c, pusher := .sleep }
  | taken (c : Mpsc.State Mpsc.SizeT Order channelSize W.val) (order : Order)
      (pc : s.pusher = .popping) (moves : Moves s .consumer c)
      (returns : Mpsc.popResult channelSize.sizeT s.channel = some (some order)) :
      Step onTick s .pusher { s with channel := c, pusher := .send order }
  | notify (w : Fin W.val) (c : Mpsc.State Mpsc.SizeT Order channelSize W.val)
      (moves : Moves s (.wake w) c) : Step onTick s (.notify w) { s with channel := c }
  | send (order : Order) (pc : s.pusher = .send order) :
      Step onTick s .pusher { s with pusher := .check }
  | woken (pc : s.pusher = .sleep) : Step onTick s .pusher { s with pusher := .check }

theorem isIdle_iff (x : Worker F) : x.isIdle = true ↔ x = .idle := by
  cases x <;> simp [Worker.isIdle]

theorem mainStep_cases {onTick : S → TickData F → S × Option Order} {s t : State F S W}
    (eq : mainStep s = some t) : Step onTick s .main t := by
  cases pc : s.main with
  | start =>
    simp only [mainStep, pc, Option.some.injEq] at eq
    subst eq
    exact .launch pc
  | check =>
    simp only [mainStep, pc, Option.some.injEq] at eq
    subst eq
    exact .loop pc
  | poll => simp [mainStep, pc] at eq
  | waitAll =>
    simp only [mainStep, pc] at eq
    split at eq <;> cases eq
    rename_i quiet
    exact .drained pc (List.isEmpty_iff.mp quiet.1) fun w => (isIdle_iff _).mp (quiet.2 w)
  | store =>
    simp only [mainStep, pc, Option.some.injEq] at eq
    subst eq
    exact .finish pc
  | returned => simp [mainStep, pc] at eq

theorem workerStep_cases {onTick : S → TickData F → S × Option Order} {s t : State F S W}
    {w : Fin W.val} (eq : workerStep onTick s w = some t) : Step onTick s (.worker w) t := by
  cases pc : s.worker w with
  | idle => simp [workerStep, pc] at eq
  | find tick =>
    simp only [workerStep, pc] at eq
    split at eq <;> cases eq
    · rename_i absent
      exact .missing w tick pc absent
    · rename_i stgs present
      exact .found w tick stgs pc present
  | visit tick j =>
    simp only [workerStep, pc] at eq
    split at eq <;> cases eq
    · rename_i absent
      exact .last w tick j pc absent
    · rename_i stg present
      exact .call w tick j stg pc present
  | onTick tick j =>
    simp only [workerStep, pc] at eq
    obtain ⟨stg, present, rfl⟩ := Option.map_eq_some_iff.mp eq
    cases emitted : (onTick stg tick).2 with
    | none => exact .silent w tick j stg pc present emitted
    | some order => exact .emit w tick j stg order pc present emitted
  | push tick j order =>
    simp only [workerStep, pc, channelStep, Option.map_map] at eq
    obtain ⟨c, moves, rfl⟩ := Option.map_eq_some_iff.mp eq
    exact .push w tick j order c pc moves
  | pushing tick j order =>
    simp only [workerStep, pc] at eq
    split at eq
    · rename_i inside
      obtain ⟨c, moves, rfl⟩ := Option.map_eq_some_iff.mp eq
      exact .pushing w tick j order c pc moves inside
    · rename_i result returns
      simp only [channelStep, Option.map_map] at eq
      obtain ⟨c, moves, rfl⟩ := Option.map_eq_some_iff.mp eq
      exact .pushed w tick j order c result pc moves returns

theorem pusherStep_cases {onTick : S → TickData F → S × Option Order} {s t : State F S W}
    (eq : pusherStep s = some t) : Step onTick s .pusher t := by
  cases pc : s.pusher with
  | notStarted => simp [pusherStep, pc] at eq
  | check =>
    simp only [pusherStep, pc, Option.some.injEq] at eq
    subst eq
    exact .again pc
  | pop =>
    simp only [pusherStep, pc, channelStep, Option.map_map] at eq
    obtain ⟨c, moves, rfl⟩ := Option.map_eq_some_iff.mp eq
    exact .pop c pc moves
  | popping =>
    simp only [pusherStep, pc] at eq
    split at eq
    · rename_i inside
      obtain ⟨c, moves, rfl⟩ := Option.map_eq_some_iff.mp eq
      exact .popping c pc moves inside
    · rename_i returns
      simp only [channelStep, Option.map_map] at eq
      obtain ⟨c, moves, rfl⟩ := Option.map_eq_some_iff.mp eq
      exact .empty c pc moves returns
    · rename_i order returns
      simp only [channelStep, Option.map_map] at eq
      obtain ⟨c, moves, rfl⟩ := Option.map_eq_some_iff.mp eq
      exact .taken c order pc moves returns
  | send order =>
    simp only [pusherStep, pc, Option.some.injEq] at eq
    subst eq
    exact .send order pc
  | sleep =>
    simp only [pusherStep, pc, Option.some.injEq] at eq
    subst eq
    exact .woken pc
  | exited => simp [pusherStep, pc] at eq

theorem step_cases {onTick : S → TickData F → S × Option Order} {s t : State F S W}
    {a : Action F W} (eq : step onTick s a = some t) : Step onTick s a t := by
  cases a with
  | main => exact mainStep_cases eq
  | recv tick =>
    simp only [step, recvStep] at eq
    split at eq <;> cases eq
    rename_i pc
    exact .recv tick pc
  | stop =>
    cases eq
    exact .stop
  | run w k =>
    simp only [step, runStep] at eq
    split at eq
    · rename_i free
      obtain ⟨tick, task, rfl⟩ := Option.map_eq_some_iff.mp eq
      exact .run w k tick free task
    · cases eq
  | worker w => exact workerStep_cases eq
  | spurious w =>
    obtain ⟨c, moves, rfl⟩ := Option.map_eq_some_iff.mp eq
    exact .spurious w c moves
  | pusher => exact pusherStep_cases eq
  | notify w =>
    obtain ⟨c, moves, rfl⟩ := Option.map_eq_some_iff.mp eq
    exact .notify w c moves

end
end CtaEngine
