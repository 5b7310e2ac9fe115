import FuTrader.BtMd.Rows
import FuTrader.Channel.Linearization
import FuTrader.Lib.Fair

/- The program of bt_md_test.cc with a channel: bt_thread runs BactestMdClient::start, whose
   callback pushes each tick until the channel has taken it, and the main thread pops. -/
namespace BactestMd
open FuTrader (TickData)
open Mpsc (BufSize Element twoSlots)
open BoundedQueue (Call Answer fifo)

namespace Feed

/- Where bt_thread is: in the loop over the rows, or in the loop of the callback. -/
inductive Replay where
  | row (tick : TickData ℚ) (rows : List (List Value))
  | push (tick : TickData ℚ) (rows : List (List Value))
  | pushing (tick : TickData ℚ) (rows : List (List Value))
  | sleep (tick : TickData ℚ) (rows : List (List Value))

/- Where the main thread is. -/
inductive Reader where
  | pop
  | popping
  | sleep

/-- `tick` and `count` are the locals of the main thread. -/
structure State (B : BufSize) where
  channel : Spsc.State (TickData ℚ) B
  replay : Replay
  reader : Reader
  tick : TickData ℚ
  count : UInt64

inductive Action where
  | replay
  | reader
  deriving DecidableEq

variable {B : BufSize} {C : Casts} {E : Element (TickData ℚ)}

def init (E : Element (TickData ℚ)) (records : List (List Value)) : State B where
  channel := Spsc.init E
  replay := .row (TickData.zero 0) records
  reader := .pop
  tick := TickData.zero 0
  count := 0

def afterPush (tick : TickData ℚ) (rows : List (List Value)) :
    Option (Call (TickData ℚ) × Answer (TickData ℚ)) → Replay
  | some (_, .pushed true) => .row tick rows
  | some (_, .pushed false) => .sleep tick rows
  | _ => .pushing tick rows

def replayStep (C : Casts) (s : State B) : Option (State B) :=
  match s.replay with
  | .row _ [] => none
  | .row tick (record :: rows) =>
    (decodeRow C tick record).map fun next => { s with replay := .push next rows }
  | .push tick rows => (Spsc.pushStep s.channel tick).map fun channel =>
    { s with channel, replay := .pushing tick rows }
  | .pushing tick rows => (Spsc.producerStep s.channel).map fun channel =>
    { s with channel, replay := afterPush tick rows (Spsc.endOf s.channel .producer) }
  | .sleep tick rows => some { s with replay := .push tick rows }

def readerStep (E : Element (TickData ℚ)) (s : State B) : Option (State B) :=
  match s.reader with
  | .pop => (Spsc.popStep s.channel .reference).map fun channel =>
    { s with channel, reader := .popping }
  | .popping => (Spsc.consumerStep E s.channel).map fun channel =>
    match Spsc.endOf s.channel .consumer with
    | some (_, .popped (some value)) =>
      { s with channel, reader := .pop, tick := value, count := s.count + 1 }
    | some (_, .popped none) => { s with channel, reader := .sleep }
    | _ => { s with channel, reader := .popping }
  | .sleep => some { s with reader := .pop }

def step (C : Casts) (E : Element (TickData ℚ)) (s : State B) : Action → Option (State B)
  | .replay => replayStep C s
  | .reader => readerStep E s

def machine (B : BufSize) (C : Casts) (E : Element (TickData ℚ)) (records : List (List Value)) :
    Machine (State B) Action where
  init := init E records
  step := step C E

def receivedOf (s : State B) : Action → Option (TickData ℚ)
  | .reader => match s.reader with
    | .popping => match Spsc.endOf s.channel .consumer with
      | some (_, .popped value) => value
      | _ => none
    | _ => none
  | _ => none

def received (h : List (State B × Action)) : List (TickData ℚ) := Machine.log receivedOf h

def Replay.left (C : Casts) : Replay → Option (List (TickData ℚ))
  | .row tick rows => rowLoop C tick rows
  | .push tick rows | .pushing tick rows | .sleep tick rows =>
    (rowLoop C tick rows).map fun later => tick :: later

inductive Step (C : Casts) (E : Element (TickData ℚ)) (s : State B) : Action → State B → Prop where
  | decode (tick : TickData ℚ) (record : List Value) (rows : List (List Value))
      (next : TickData ℚ) (pc : s.replay = .row tick (record :: rows))
      (decoded : decodeRow C tick record = some next) :
      Step C E s .replay { s with replay := .push next rows }
  | push (tick : TickData ℚ) (rows : List (List Value)) (channel : Spsc.State (TickData ℚ) B)
      (pc : s.replay = .push tick rows) (inner : Spsc.Step E s.channel (.push tick) channel) :
      Step C E s .replay { s with channel, replay := .pushing tick rows }
  | pushing (tick : TickData ℚ) (rows : List (List Value)) (channel : Spsc.State (TickData ℚ) B)
      (pc : s.replay = .pushing tick rows) (inner : Spsc.Step E s.channel .producer channel) :
      Step C E s .replay
        { s with channel, replay := afterPush tick rows (Spsc.endOf s.channel .producer) }
  | retry (tick : TickData ℚ) (rows : List (List Value)) (pc : s.replay = .sleep tick rows) :
      Step C E s .replay { s with replay := .push tick rows }
  | pop (channel : Spsc.State (TickData ℚ) B) (pc : s.reader = .pop)
      (inner : Spsc.Step E s.channel (.pop .reference) channel) :
      Step C E s .reader { s with channel, reader := .popping }
  | popping (channel : Spsc.State (TickData ℚ) B) (pc : s.reader = .popping)
      (inner : Spsc.Step E s.channel .consumer channel)
      (runs : Spsc.endOf s.channel .consumer = none) :
      Step C E s .reader { s with channel, reader := .popping }
  | received (channel : Spsc.State (TickData ℚ) B) (value : TickData ℚ) (pc : s.reader = .popping)
      (inner : Spsc.Step E s.channel .consumer channel)
      (ends : Spsc.endOf s.channel .consumer = some (.pop, .popped (some value))) :
      Step C E s .reader { s with channel, reader := .pop, tick := value, count := s.count + 1 }
  | empty (channel : Spsc.State (TickData ℚ) B) (pc : s.reader = .popping)
      (inner : Spsc.Step E s.channel .consumer channel)
      (ends : Spsc.endOf s.channel .consumer = some (.pop, .popped none)) :
      Step C E s .reader { s with channel, reader := .sleep }
  | again (pc : s.reader = .sleep) : Step C E s .reader { s with reader := .pop }

theorem step_cases {s t : State B} {a : Action} (eq : step C E s a = some t) : Step C E s a t := by
  cases a with
  | replay =>
    cases pc : s.replay with
    | row tick rows =>
      cases rows with
      | nil => simp [step, replayStep, pc] at eq
      | cons record rows =>
        simp only [step, replayStep, pc] at eq
        obtain ⟨next, decoded, rfl⟩ := Option.map_eq_some_iff.mp eq
        exact .decode tick record rows next pc decoded
    | push tick rows =>
      simp only [step, replayStep, pc] at eq
      obtain ⟨channel, inner, rfl⟩ := Option.map_eq_some_iff.mp eq
      exact .push tick rows channel pc (Spsc.step_cases inner)
    | pushing tick rows =>
      simp only [step, replayStep, pc] at eq
      obtain ⟨channel, inner, rfl⟩ := Option.map_eq_some_iff.mp eq
      exact .pushing tick rows channel pc (Spsc.step_cases inner)
    | sleep tick rows =>
      simp only [step, replayStep, pc, Option.some.injEq] at eq
      subst eq
      exact .retry tick rows pc
  | reader =>
    cases pc : s.reader with
    | pop =>
      simp only [step, readerStep, pc] at eq
      obtain ⟨channel, inner, rfl⟩ := Option.map_eq_some_iff.mp eq
      exact .pop channel pc (Spsc.step_cases inner)
    | popping =>
      simp only [step, readerStep, pc] at eq
      obtain ⟨channel, inner, rfl⟩ := Option.map_eq_some_iff.mp eq
      have inner : Spsc.Step E s.channel .consumer channel := Spsc.step_cases inner
      rcases Spsc.consumer_ends s.channel with runs | ⟨value, ends⟩
      · rw [runs]
        exact .popping channel pc inner runs
      · rw [ends]
        cases value with
        | none => exact .empty channel pc inner ends
        | some value => exact .received channel value pc inner ends
    | sleep =>
      simp only [step, readerStep, pc, Option.some.injEq] at eq
      subst eq
      exact .again pc

/-! Where each tick is. -/

def Replay.calls : Replay → List (Call (TickData ℚ))
  | .pushing tick _ => [.push tick]
  | _ => []

def Reader.calls : Reader → List (Call (TickData ℚ))
  | .popping => [.pop]
  | _ => []

/-- `items` are in the channel, and `rest` is still to be pushed. -/
structure Linked (C : Casts) (items rest : List (TickData ℚ)) (s : State B) : Prop where
  channel : ∃ q, Spsc.Holds s.channel q ∧ q.items = items
  left : s.replay.left C = some rest
  pushing : s.channel.producer.running = s.replay.calls
  popping : s.channel.consumer.running = s.reader.calls

theorem push_step {c d : Spsc.State (TickData ℚ) B} {q : BoundedQueue (TickData ℚ) B.val}
    (holds : Spsc.Holds c q) (inner : Spsc.Step E c .producer d) {tick : TickData ℚ}
    (running : c.producer.running = [.push tick]) (rows : List (List Value)) :
    ∃ r, Spsc.Holds d r ∧ d.consumer.running = c.consumer.running ∧
      d.producer.running = (afterPush tick rows (Spsc.endOf c .producer)).calls ∧
      ∀ {later}, rowLoop C tick rows = some later → ∃ rest,
        (afterPush tick rows (Spsc.endOf c .producer)).left C = some rest ∧
          r.items ++ rest = q.items ++ tick :: later := by
  obtain ⟨r, takes, next⟩ := holds.step inner
  refine ⟨r, next, ?_⟩
  cases inner with
  | refuse u w pc full =>
    rw [Spsc.endOf_refuse pc full] at takes ⊢
    refine ⟨rfl, rfl, fun {later} loop =>
      ⟨tick :: later, by simp [afterPush, Replay.left, loop], ?_⟩⟩
    rw [BoundedQueue.push_items takes]
    rfl
  | pass u w pc room =>
    rw [Spsc.endOf_pass pc room] at takes ⊢
    obtain rfl : r = q := takes
    refine ⟨rfl, ?_, fun {later} loop =>
      ⟨tick :: later, by simp [afterPush, Replay.left, loop], rfl⟩⟩
    simpa [pc, Spsc.Producer.running, afterPush, Replay.calls] using running
  | write u w pc =>
    have ends : Spsc.endOf c .producer = none := by simp only [Spsc.endOf, pc]
    rw [ends] at takes ⊢
    obtain rfl : r = q := takes
    refine ⟨rfl, ?_, fun {later} loop =>
      ⟨tick :: later, by simp [afterPush, Replay.left, loop], rfl⟩⟩
    simpa [pc, Spsc.Producer.running, afterPush, Replay.calls] using running
  | publish u w pc =>
    have ends : Spsc.endOf c .producer = some (.push u, .pushed true) := by
      simp only [Spsc.endOf, pc]
    rw [ends] at takes ⊢
    obtain rfl : u = tick := by simpa [pc, Spsc.Producer.running] using running
    refine ⟨rfl, rfl, fun loop => ⟨_, loop, ?_⟩⟩
    rw [BoundedQueue.push_items takes]
    simp

theorem Linked.step {s t : State B} {a : Action} {items rest : List (TickData ℚ)}
    (linked : Linked C items rest s) (step : Step C E s a t) :
    ∃ items' rest', Linked C items' rest' t ∧
      (receivedOf s a).toList ++ items' ++ rest' = items ++ rest := by
  obtain ⟨⟨q, holds, rfl⟩, left, pushing, popping⟩ := linked
  cases step with
  | decode tick record rows next pc decoded =>
    rw [pc] at left pushing
    obtain ⟨_, same, loop⟩ := Option.bind_eq_some_iff.mp left
    rw [decoded] at same
    cases same
    exact ⟨_, _, ⟨⟨q, holds, rfl⟩, loop, pushing, popping⟩, rfl⟩
  | push tick rows channel pc inner =>
    rw [pc] at left
    obtain ⟨r, takes, next⟩ := holds.step inner
    obtain rfl : r = q := takes
    cases inner with
    | push _ idle => exact ⟨_, _, ⟨⟨_, next, rfl⟩, left, rfl, popping⟩, rfl⟩
  | pushing tick rows channel pc inner =>
    rw [pc] at left pushing
    obtain ⟨later, loop, rfl⟩ := Option.map_eq_some_iff.mp left
    obtain ⟨r, next, kept, calls, moved⟩ := push_step holds inner pushing rows
    obtain ⟨rest, left, same⟩ := moved loop
    exact ⟨_, rest, ⟨⟨r, next, rfl⟩, left, calls, kept.trans popping⟩, same⟩
  | retry tick rows pc =>
    rw [pc] at left pushing
    exact ⟨_, _, ⟨⟨q, holds, rfl⟩, left, pushing, popping⟩, rfl⟩
  | pop channel pc inner =>
    obtain ⟨r, takes, next⟩ := holds.step inner
    obtain rfl : r = q := takes
    cases inner with
    | pop _ idle => exact ⟨_, _, ⟨⟨_, next, rfl⟩, left, pushing, rfl⟩, by simp [receivedOf, pc]⟩
  | popping channel pc inner runs =>
    obtain ⟨r, takes, next⟩ := holds.step inner
    rw [runs] at takes
    obtain rfl : r = q := takes
    have calls := Spsc.calls_step inner
    simp only [Spsc.beginOf, runs, Option.toList_none, List.map_nil, BoundedQueue.pushes_nil,
      BoundedQueue.pops_nil, List.append_nil, List.nil_append] at calls
    rw [pc] at popping
    exact ⟨_, _, ⟨⟨_, next, rfl⟩, left, calls.1.symm.trans pushing, calls.2.symm.trans popping⟩,
      by simp [receivedOf, pc, runs]⟩
  | received channel value pc inner ends =>
    obtain ⟨r, takes, next⟩ := holds.step inner
    rw [ends] at takes
    have calls := Spsc.calls_step inner
    rw [popping, pc] at calls
    simp only [Spsc.beginOf, ends, Option.toList_none, Option.toList_some, List.map_cons,
      List.map_nil, BoundedQueue.pushes_nil, BoundedQueue.pops_nil, BoundedQueue.pushes_pop,
      BoundedQueue.pops_pop, List.append_nil, List.nil_append, Reader.calls, List.cons_append,
      List.cons.injEq, true_and] at calls
    refine ⟨_, _, ⟨⟨r, next, rfl⟩, left, calls.1.symm.trans pushing, calls.2.symm⟩, ?_⟩
    rw [BoundedQueue.pop_items takes]
    simp [receivedOf, pc, ends]
  | empty channel pc inner ends =>
    obtain ⟨r, takes, next⟩ := holds.step inner
    rw [ends] at takes
    have calls := Spsc.calls_step inner
    rw [popping, pc] at calls
    simp only [Spsc.beginOf, ends, Option.toList_none, Option.toList_some, List.map_cons,
      List.map_nil, BoundedQueue.pushes_nil, BoundedQueue.pops_nil, BoundedQueue.pushes_pop,
      BoundedQueue.pops_pop, List.append_nil, List.nil_append, Reader.calls, List.cons_append,
      List.cons.injEq, true_and] at calls
    refine ⟨_, _, ⟨⟨r, next, rfl⟩, left, calls.1.symm.trans pushing, calls.2.symm⟩, ?_⟩
    rw [BoundedQueue.pop_items takes]
    simp [receivedOf, pc, ends]
  | again pc =>
    rw [pc] at popping
    exact ⟨_, _, ⟨⟨q, holds, rfl⟩, left, pushing, popping⟩, by simp [receivedOf, pc]⟩

theorem told {s t : State B} {a : Action} (step : Step C E s a t) :
    t.tick = (receivedOf s a).getD s.tick ∧
      t.count = s.count + UInt64.ofNat (receivedOf s a).toList.length := by
  cases step with
  | received channel value pc inner ends => simp [receivedOf, pc, ends]
  | popping channel pc inner runs => simp [receivedOf, pc, runs]
  | empty channel pc inner ends => simp [receivedOf, pc, ends]
  | pop channel pc inner => simp [receivedOf, pc]
  | again pc => simp [receivedOf, pc]
  | _ => simp [receivedOf]

theorem linked_init {records : List (List Value)} {ticks : List (TickData ℚ)}
    (loop : rowLoop C (TickData.zero 0) records = some ticks) :
    Linked C [] ticks (init E records : State B) :=
  ⟨⟨_, Spsc.holds_init E, rfl⟩, loop, rfl, rfl⟩

theorem linked_run {records : List (List Value)} {ticks : List (TickData ℚ)}
    (loop : rowLoop C (TickData.zero 0) records = some ticks) {h : List (State B × Action)}
    {s : State B} (run : (machine B C E records).Run h s) :
    ∃ items rest, Linked C items rest s ∧ received h ++ items ++ rest = ticks := by
  apply Machine.Run.invariant (M := machine B C E records) (fun h s =>
    ∃ items rest, Linked C items rest s ∧ received h ++ items ++ rest = ticks)
    ⟨[], ticks, linked_init loop, rfl⟩ ?_ run
  rintro h s a t _ ⟨items, rest, linked, total⟩ step
  obtain ⟨items', rest', next, moved⟩ := linked.step (step_cases step)
  refine ⟨items', rest', next, ?_⟩
  rw [received, Machine.log_snoc, ← received, ← total]
  simpa using moved

theorem told_run {records : List (List Value)} {h : List (State B × Action)} {s : State B}
    (run : (machine B C E records).Run h s) :
    s.tick = (received h).getLast?.getD (TickData.zero 0) ∧
      s.count = UInt64.ofNat (received h).length := by
  apply Machine.Run.invariant (M := machine B C E records) (fun h s =>
    s.tick = (received h).getLast?.getD (TickData.zero 0) ∧
      s.count = UInt64.ofNat (received h).length) ⟨rfl, rfl⟩ ?_ run
  rintro h s a t _ ⟨last, count⟩ step
  obtain ⟨tick, number⟩ := told (step_cases step)
  rw [received, Machine.log_snoc, ← received, tick, number, last, count]
  refine ⟨?_, by simp⟩
  cases receivedOf s a <;> simp

/-- At every moment the ticks of the rows are, in order: those that the main thread has got,
    those in the channel, and those that bt_thread has still to push. -/
theorem ticks_conserved {D : Type} {epochMs : D → Int64} {table : List (Row D)}
    {ticks : List (TickData ℚ)} (decoded : start C epochMs table = some ticks)
    {h : List (State B × Action)} {s : State B}
    (run : (machine B C E (table.map (Row.columns epochMs))).Run h s) :
    (∃ q rest, Spsc.Holds s.channel q ∧ s.replay.left C = some rest ∧
        received h ++ q.items ++ rest = ticks) ∧
      s.tick = (received h).getLast?.getD (TickData.zero 0) ∧
      s.count = UInt64.ofNat (received h).length := by
  rw [start_eq] at decoded
  obtain ⟨items, rest, ⟨⟨q, holds, rfl⟩, left, _, _⟩, total⟩ := linked_run decoded run
  exact ⟨⟨q, rest, holds, left, total⟩, told_run run⟩

def inTurn (n : Nat) : List Action := (List.replicate n [Action.replay, .reader]).flatten

def quietTable : List (Row Unit) := [quietRow, quietRow, quietRow]

def quietTicks : List (TickData ℚ) :=
  (start sampleCasts (fun _ => 5) quietTable).getD []

theorem quietTicks_decoded : start sampleCasts (fun _ => 5) quietTable = some quietTicks := by
  rw [start_eq]
  rfl

def quietFeed : Machine (State twoSlots) Action :=
  machine twoSlots sampleCasts ⟨TickData.zero 0, id⟩ (quietTable.map (Row.columns fun _ => 5))

theorem quiet_conserved :
    ∃ s, quietFeed.exec quietFeed.init (inTurn 9) = some s ∧
      (∃ q rest, Spsc.Holds s.channel q ∧ s.replay.left sampleCasts = some rest ∧
          received (quietFeed.steps quietFeed.init (inTurn 9)) ++ q.items ++ rest = quietTicks) ∧
        s.count = 1 := by
  have ran : (quietFeed.exec quietFeed.init (inTurn 9)).isSome = true := by decide +kernel
  have known := ticks_conserved quietTicks_decoded (Machine.run_get ran)
  refine ⟨_, (Option.some_get ran).symm, known.1, known.2.2.trans ?_⟩
  decide +kernel

end Feed
end BactestMd
