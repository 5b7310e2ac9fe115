import FuTrader.Channel.Linearization
import FuTrader.Ctp.Ticks
import FuTrader.Lib.Fair
import FuTrader.Parser.StampOrder

/- The programs of ctp_md_test.cc with a channel: the callback of CtpMdClient pushes each tick
   and drops it if the channel is full, and the main thread pops. -/
namespace CtpMd
open FuTrader (TickData)
open TickParser (TimeStampCalculator Calendar Written PartOfSecond)
open Mpsc (BufSize Element Overload twoSlots)
open BoundedQueue (Call Answer fifo outcome takenOut admitted pushes)

namespace Live

/- Where the main thread is. -/
inductive Main where
  | pop
  | popping
  | sleep
  deriving DecidableEq

structure State (F : Type) (B : BufSize) where
  calculator : TimeStampCalculator
  channel : Spsc.State (TickData F) B
  main : Main

/-- `record` is a call of OnRtnDepthMarketData, which comes to its push; `callback` is a step
    of this push. -/
inductive Action (F : Type) where
  | record (r : DepthMarketData F)
  | callback
  | main

section
variable {F : Type} (one : F) (days : Int → UInt32 → UInt32 → Int) {B : BufSize}

def init (E : Element (TickData F)) : State F B where
  calculator := .new
  channel := Spsc.init E
  main := .pop

def mainStep (k : Overload) (E : Element (TickData F)) (s : State F B) : Option (State F B) :=
  match s.main with
  | .pop => (Spsc.popStep s.channel k).map fun channel => { s with channel, main := .popping }
  | .popping => (Spsc.consumerStep E s.channel).map fun channel =>
    match Spsc.endOf s.channel .consumer with
    | some (_, .popped (some _)) => { s with channel, main := .pop }
    | some (_, .popped none) => { s with channel, main := .sleep }
    | _ => { s with channel, main := .popping }
  | .sleep => some { s with main := .pop }

def step (k : Overload) (E : Element (TickData F)) (s : State F B) :
    Action F → Option (State F B)
  | .record r =>
    let x := onRtnDepthMarketData one days s.calculator r
    (Spsc.pushStep s.channel x.1).map fun channel => { s with calculator := x.2, channel }
  | .callback => (Spsc.producerStep s.channel).map fun channel => { s with channel }
  | .main => mainStep k E s

def machine (B : BufSize) (k : Overload) (E : Element (TickData F)) :
    Machine (State F B) (Action F) where
  init := init E
  step := step one days k E

def ticksOf (c : TimeStampCalculator) : List (DepthMarketData F) → List (TickData F)
  | [] => []
  | r :: rs => (onRtnDepthMarketData one days c r).1 ::
      ticksOf (onRtnDepthMarketData one days c r).2 rs

def calculatorAfter (c : TimeStampCalculator) : List (DepthMarketData F) → TimeStampCalculator
  | [] => c
  | r :: rs => calculatorAfter (onRtnDepthMarketData one days c r).2 rs

def onChannel (k : Overload) (s : State F B) : Action F → Option (Spsc.Action (TickData F))
  | .record r => some (.push (onRtnDepthMarketData one days s.calculator r).1)
  | .callback => some .producer
  | .main => match s.main with
    | .pop => some (.pop k)
    | .popping => some .consumer
    | .sleep => none

def returns (k : Overload) (s : State F B) (a : Action F) :
    Option (Call (TickData F) × Answer (TickData F)) :=
  (onChannel one days k s a).bind (Spsc.endOf s.channel)

def outcomes (k : Overload) (h : List (State F B × Action F)) : List (TickData F × Bool) :=
  (Machine.log (returns one days k) h).filterMap outcome

def received (k : Overload) (h : List (State F B × Action F)) : List (TickData F) :=
  (Machine.log (returns one days k) h).filterMap takenOut

end

def recordOf {F : Type} : Action F → Option (DepthMarketData F)
  | .record r => some r
  | _ => none

def records {F : Type} {B : BufSize} (h : List (State F B × Action F)) : List (DepthMarketData F) :=
  Machine.log (fun _ a => recordOf a) h

section
variable {F : Type} {one : F} {days : Int → UInt32 → UInt32 → Int} {B : BufSize} {k : Overload}
  {E : Element (TickData F)}

inductive Step (one : F) (days : Int → UInt32 → UInt32 → Int) (k : Overload)
    (E : Element (TickData F)) (s : State F B) : Action F → State F B → Prop where
  | record (r : DepthMarketData F) (channel : Spsc.State (TickData F) B)
      (inner : Spsc.step E s.channel
        (.push (onRtnDepthMarketData one days s.calculator r).1) = some channel) :
      Step one days k E s (.record r) { s with
        calculator := (onRtnDepthMarketData one days s.calculator r).2, channel }
  | callback (channel : Spsc.State (TickData F) B)
      (inner : Spsc.step E s.channel .producer = some channel) :
      Step one days k E s .callback { s with channel }
  | pop (channel : Spsc.State (TickData F) B) (pc : s.main = .pop)
      (inner : Spsc.step E s.channel (.pop k) = some channel) :
      Step one days k E s .main { s with channel, main := .popping }
  | popping (channel : Spsc.State (TickData F) B) (pc : s.main = .popping)
      (inner : Spsc.step E s.channel .consumer = some channel)
      (runs : Spsc.endOf s.channel .consumer = none) :
      Step one days k E s .main { s with channel, main := .popping }
  | received (channel : Spsc.State (TickData F) B) (value : TickData F) (pc : s.main = .popping)
      (inner : Spsc.step E s.channel .consumer = some channel)
      (ends : Spsc.endOf s.channel .consumer = some (.pop, .popped (some value))) :
      Step one days k E s .main { s with channel, main := .pop }
  | empty (channel : Spsc.State (TickData F) B) (pc : s.main = .popping)
      (inner : Spsc.step E s.channel .consumer = some channel)
      (ends : Spsc.endOf s.channel .consumer = some (.pop, .popped none)) :
      Step one days k E s .main { s with channel, main := .sleep }
  | again (pc : s.main = .sleep) : Step one days k E s .main { s with main := .pop }

theorem step_cases {s t : State F B} {a : Action F} (eq : step one days k E s a = some t) :
    Step one days k E s a t := by
  cases a with
  | record r =>
    obtain ⟨channel, inner, rfl⟩ := Option.map_eq_some_iff.mp eq
    exact .record r channel inner
  | callback =>
    obtain ⟨channel, inner, rfl⟩ := Option.map_eq_some_iff.mp eq
    exact .callback channel inner
  | main =>
    simp only [step, mainStep] at eq
    cases pc : s.main with
    | pop =>
      rw [pc] at eq
      obtain ⟨channel, inner, rfl⟩ := Option.map_eq_some_iff.mp eq
      exact .pop channel pc inner
    | popping =>
      rw [pc] at eq
      obtain ⟨channel, inner, rfl⟩ := Option.map_eq_some_iff.mp eq
      rcases Spsc.consumer_ends s.channel with runs | ⟨value, ends⟩
      · rw [runs]
        exact .popping channel pc inner runs
      · rw [ends]
        cases value with
        | none => exact .empty channel pc inner ends
        | some value => exact .received channel value pc inner ends
    | sleep =>
      rw [pc] at eq
      cases eq
      exact .again pc

theorem Step.channel {s t : State F B} {a : Action F} (step : Step one days k E s a t) :
    (∃ b, onChannel one days k s a = some b ∧ Spsc.step E s.channel b = some t.channel) ∨
      onChannel one days k s a = none ∧ t.channel = s.channel := by
  cases step with
  | record r channel inner => exact .inl ⟨_, rfl, inner⟩
  | callback channel inner => exact .inl ⟨_, rfl, inner⟩
  | pop channel pc inner => exact .inl ⟨_, by simp only [onChannel, pc], inner⟩
  | popping channel pc inner runs => exact .inl ⟨_, by simp only [onChannel, pc], inner⟩
  | received channel value pc inner ends => exact .inl ⟨_, by simp only [onChannel, pc], inner⟩
  | empty channel pc inner ends => exact .inl ⟨_, by simp only [onChannel, pc], inner⟩
  | again pc => exact .inr ⟨by simp only [onChannel, pc], rfl⟩

theorem channel_run {h : List (State F B × Action F)} {s : State F B}
    (run : (machine one days B k E).Run h s) :
    (Spsc.machine B E).Run (Machine.partOf State.channel (onChannel one days k) h) s.channel := by
  apply run.component State.channel (onChannel one days k) rfl
  · intro s a t b step acts
    rcases (step_cases step).channel with ⟨_, same, inner⟩ | ⟨none, _⟩
    · rw [acts] at same
      cases same
      exact inner
    · simp [acts] at none
  · intro s a t step acts
    rcases (step_cases step).channel with ⟨_, same, _⟩ | ⟨_, kept⟩
    · simp [acts] at same
    · exact kept

theorem Step.records {s t : State F B} {a : Action F} (step : Step one days k E s a t) :
    t.calculator = calculatorAfter one days s.calculator (recordOf a).toList ∧
      pushes ((onChannel one days k s a).bind (Spsc.beginOf s.channel)).toList =
        (ticksOf one days s.calculator (recordOf a).toList).map .push := by
  cases step with
  | record r channel inner | callback channel inner => exact ⟨rfl, rfl⟩
  | pop channel pc inner | again pc =>
    exact ⟨rfl, by simp [onChannel, pc, Spsc.beginOf, recordOf, ticksOf]⟩
  | popping channel pc inner ends | received channel value pc inner ends
  | empty channel pc inner ends =>
    exact ⟨rfl, by simp [onChannel, pc, Spsc.beginOf, recordOf, ticksOf]⟩

theorem ticksOf_append (c : TimeStampCalculator) (rs more : List (DepthMarketData F)) :
    ticksOf one days c (rs ++ more) =
        ticksOf one days c rs ++ ticksOf one days (calculatorAfter one days c rs) more ∧
      calculatorAfter one days c (rs ++ more) =
        calculatorAfter one days (calculatorAfter one days c rs) more := by
  induction rs generalizing c with
  | nil => exact ⟨rfl, rfl⟩
  | cons r rs ih => exact ⟨congrArg _ (ih _).1, (ih _).2⟩

theorem records_run {h : List (State F B × Action F)} {s : State F B}
    (run : (machine one days B k E).Run h s) :
    s.calculator = calculatorAfter one days .new (records h) ∧
      pushes (Spsc.begun (Machine.partOf State.channel (onChannel one days k) h)) =
        (ticksOf one days .new (records h)).map .push := by
  simp only [Spsc.begun, Machine.log_partOf]
  apply Machine.Run.invariant (M := machine one days B k E) (fun h s =>
    s.calculator = calculatorAfter one days .new (records h) ∧
      pushes (Machine.log (fun s a =>
          (onChannel one days k s a).bind (Spsc.beginOf s.channel)) h) =
        (ticksOf one days .new (records h)).map .push) ⟨rfl, rfl⟩ ?_ run
  rintro h s a t _ ⟨calculator, begun⟩ step
  obtain ⟨next, begins⟩ := (step_cases step).records
  obtain ⟨ticks, after⟩ := @ticksOf_append F one days .new (records h) (recordOf a).toList
  rw [records, Machine.log_snoc, Machine.log_snoc, ← records, after, ticks, ← calculator,
    List.map_append, BoundedQueue.pushes_append, begun, begins]
  exact ⟨next, rfl⟩

def State.pushing (s : State F B) : List (TickData F) :=
  match s.channel.producer with
  | .idle => []
  | .loadReadPos u _ | .writeData u _ | .storeWritePos u _ => [u]

theorem running_pushing (s : State F B) : s.channel.producer.running = s.pushing.map .push := by
  unfold State.pushing
  cases s.channel.producer <;> rfl

theorem ended_channel (h : List (State F B × Action F)) :
    Spsc.ended (Machine.partOf State.channel (onChannel one days k) h) =
      Machine.log (returns one days k) h := Machine.log_partOf ..

theorem holds_run {h : List (State F B × Action F)} {s : State F B}
    (run : (machine one days B k E).Run h s) :
    ∃ q, Spsc.Holds s.channel q ∧
      admitted (outcomes one days k h) = received one days k h ++ q.items ∧
      (outcomes one days k h).map (fun x => Call.push x.1) =
        pushes ((Machine.log (returns one days k) h).map Prod.fst) := by
  obtain ⟨answered, holds⟩ := (fifo (TickData F) B.val).linearizes Spsc.endOf Spsc.Holds
    (Spsc.holds_init E) (fun _ _ _ _ holds step => holds.step (Spsc.step_cases step))
    (channel_run run)
  rw [← Spsc.ended, ended_channel] at answered holds
  obtain ⟨items, calls⟩ := BoundedQueue.answers_items _ answered
  exact ⟨_, holds, items, calls⟩

theorem Step.takes {s t : State F B} {a : Action F} (step : Step one days k E s a t)
    {q : BoundedQueue (TickData F) B.val} (holds : Spsc.Holds s.channel q) :
    ∃ r, (fifo (TickData F) B.val).Takes q (returns one days k s a) r ∧
      Spsc.Holds t.channel r := by
  unfold returns
  rcases step.channel with ⟨b, acts, inner⟩ | ⟨acts, kept⟩
  · rw [acts]
    exact holds.step (Spsc.step_cases inner)
  · rw [acts, kept]
    exact ⟨q, rfl, holds⟩

theorem accounted_run {h : List (State F B × Action F)} {s : State F B}
    (run : (machine one days B k E).Run h s) :
    ticksOf one days .new (records h) = (outcomes one days k h).map Prod.fst ++ s.pushing ∧
      ∃ q, Spsc.Holds s.channel q ∧
        admitted (outcomes one days k h) = received one days k h ++ q.items := by
  obtain ⟨q, holds, items, calls⟩ := holds_run run
  refine ⟨?_, q, holds, items⟩
  have begun := (Spsc.calls_run (channel_run run)).1
  rw [(records_run run).2, running_pushing, ended_channel, ← calls] at begun
  have injective : Function.Injective (Call.push (α := TickData F)) := by
    intro _ _ same
    cases same
    rfl
  apply injective.list_map
  rw [begun, List.map_append, List.map_map]
  rfl

/-- At every moment the ticks of the records are those whose push has returned, in order, and
    the one that is being pushed; the main thread has the ticks that the channel took, in order,
    but for those still in it; and a tick is dropped only when the channel is full. -/
theorem ticks_accounted {h : List (State F B × Action F)} {s : State F B}
    (run : (machine one days B k E).Run h s) :
    ticksOf one days .new (records h) = (outcomes one days k h).map Prod.fst ++ s.pushing ∧
      (∃ q, Spsc.Holds s.channel q ∧
        admitted (outcomes one days k h) = received one days k h ++ q.items) ∧
      ∀ x ∈ h, ∀ u, returns one days k x.1 x.2 = some (.push u, .pushed false) →
        ∃ q, Spsc.Holds x.1.channel q ∧ q.items.length = B.val := by
  obtain ⟨ticks, held⟩ := accounted_run run
  refine ⟨ticks, held, ?_⟩
  intro x member u refused
  obtain ⟨earlier, before⟩ := run.before member
  obtain ⟨t, step⟩ := run.stepped member
  obtain ⟨_, q, holds, _⟩ := accounted_run before
  obtain ⟨r, takes, _⟩ := (step_cases step).takes holds
  rw [refused] at takes
  exact ⟨q, holds, BoundedQueue.push_refused takes⟩

/-! The order of time. -/

def Earlier (a b : DepthMarketData F) : Prop :=
  ∃ t u, Written a.toDepthMarketData t ∧ Written b.toDepthMarketData u ∧
    t.reading a.updateMillisec < u.reading b.updateMillisec

theorem ticksOf_stamps (c : TimeStampCalculator) (rs : List (DepthMarketData F)) :
    (ticksOf one days c rs).map TickData.stamp =
      (c.stamps days (rs.map DepthMarketData.toDepthMarketData)).map Int64.ofInt := by
  induction rs generalizing c with
  | nil => rfl
  | cons r rs ih => exact congrArg _ (ih _)

theorem stamp_fits {t : TickParser.DateTime} (valid : t.Valid) {m : Int} (part : PartOfSecond m) :
    Int64.minValue.toInt ≤ 1000 * t.seconds + m ∧ 1000 * t.seconds + m ≤ Int64.maxValue.toInt := by
  obtain ⟨month, day, hour, minute, second⟩ := valid.small
  have year := valid.year
  obtain ⟨part, part_lt⟩ := part
  rw [Int64.toInt_minValue, Int64.toInt_maxValue, TickParser.DateTime.seconds]
  simp only [TickParser.sysDays]
  split <;> omega

theorem ticksOf_in_time_order (calendar : Calendar days) {rs : List (DepthMarketData F)}
    (written : ∀ r ∈ rs, (∃ t, Written r.toDepthMarketData t) ∧ PartOfSecond r.updateMillisec)
    (ascending : rs.Pairwise Earlier) :
    (ticksOf one days .new rs).Pairwise fun a b => a.stamp < b.stamp := by
  have dated : ∀ tick ∈ rs.map DepthMarketData.toDepthMarketData,
      ∃ t, TickParser.Written tick t := by
    intro tick member
    obtain ⟨r, among, rfl⟩ := List.mem_map.mp member
    exact (written r among).1
  have stamps := TickParser.stamps_of_cached calendar (s := .new) (.inl rfl) dated
  rw [← List.pairwise_map (f := TickData.stamp), ticksOf_stamps, stamps, List.map_map, List.map_map,
    List.pairwise_map]
  refine ascending.imp_of_mem fun {a b} among among' earlier => ?_
  obtain ⟨t, u, first, second, less⟩ := earlier
  have part := (written a among).2
  have part' := (written b among').2
  have fits := stamp_fits first.valid part
  have fits' := stamp_fits second.valid part'
  simp only [Function.comp_apply]
  rw [first.stampLast, second.stampLast, Int64.ofInt_lt_iff_lt fits.1 fits.2 fits'.1 fits'.2]
  exact TickParser.seconds_lt first.valid.ok second.valid.ok part part' less

theorem received_in_time_order (calendar : Calendar days) {h : List (State F B × Action F)}
    {s : State F B} (run : (machine one days B k E).Run h s)
    (written : ∀ r ∈ records h,
      (∃ t, Written r.toDepthMarketData t) ∧ PartOfSecond r.updateMillisec)
    (ascending : (records h).Pairwise Earlier) :
    (received one days k h).Pairwise fun a b => a.stamp < b.stamp := by
  obtain ⟨ticks, q, _, items⟩ := accounted_run run
  have sorted : (ticksOf one days .new (records h)).Pairwise fun a b => a.stamp < b.stamp :=
    ticksOf_in_time_order calendar written ascending
  have among : (received one days k h).Sublist (ticksOf one days .new (records h)) := by
    have taken : (received one days k h).Sublist (admitted (outcomes one days k h)) :=
      items ▸ List.sublist_append_left _ _
    exact taken.trans ((BoundedQueue.admitted_sublist _).trans
      (ticks ▸ List.sublist_append_left _ _))
  exact sorted.sublist among

/-! The main thread, if it is not held up, gets every tick that the channel has taken. -/

inductive Thread where
  | api
  | main

def Action.thread : Action F → Thread
  | .record _ | .callback => .api
  | .main => .main

def Main.calls : Main → List (Call (TickData F))
  | .popping => [.pop]
  | _ => []

theorem Step.consumer {s t : State F B} {a : Action F} (step : Step one days k E s a t)
    (running : s.channel.consumer.running = s.main.calls) :
    t.channel.consumer.running = t.main.calls := by
  cases step with
  | record r channel inner =>
    cases Spsc.step_cases inner
    exact running
  | callback channel inner => cases Spsc.step_cases inner <;> exact running
  | pop channel pc inner =>
    cases Spsc.step_cases inner
    rfl
  | popping channel pc inner ends | received channel value pc inner ends
  | empty channel pc inner ends =>
    have calls := (Spsc.calls_step (Spsc.step_cases inner)).2
    rw [running, pc, ends] at calls
    simpa [Spsc.beginOf, Main.calls] using calls.symm
  | again pc => simpa [pc, Main.calls] using running

theorem consumer_run {h : List (State F B × Action F)} {s : State F B}
    (run : (machine one days B k E).Run h s) : s.channel.consumer.running = s.main.calls := by
  apply Machine.Run.invariant (M := machine one days B k E)
    (fun _ s => s.channel.consumer.running = s.main.calls) rfl ?_ run
  intro h s a t _ running step
  exact (step_cases step).consumer running

theorem main_able {s : State F B} (running : s.channel.consumer.running = s.main.calls) :
    ((machine one days B k E).step s .main).isSome := by
  change (step one days k E s .main).isSome
  cases pc : s.main with
  | pop =>
    rw [pc] at running
    cases idle : s.channel.consumer with
    | idle => simp [step, mainStep, pc, Spsc.popStep, idle]
    | _ => simp [idle, Spsc.Consumer.running, Main.calls] at running
  | popping =>
    rw [pc] at running
    cases inside : s.channel.consumer with
    | idle => simp [inside, Spsc.Consumer.running, Main.calls] at running
    | loadWritePos k r =>
      simp only [step, mainStep, pc, Spsc.consumerStep, inside, Option.isSome_map]
      split <;> rfl
    | _ => simp [step, mainStep, pc, Spsc.consumerStep, inside]
  | sleep => simp [step, mainStep, pc]

def mainSteps (s : State F B) : Nat :=
  match s.main with
  | .sleep => 5
  | .pop => 4
  | .popping => match s.channel.consumer with
    | .loadWritePos _ _ => 3
    | .readData _ _ => 2
    | .storeReadPos _ _ _ => 1
    | .idle => 0

def receives (one : F) (days : Int → UInt32 → UInt32 → Int) (k : Overload) (s : State F B)
    (a : Action F) : Option (TickData F) := (returns one days k s a).bind takenOut

theorem received_log (h : List (State F B × Action F)) :
    received one days k h = Machine.log (receives one days k) h := Machine.log_filterMap ..

theorem Step.api {s t : State F B} {a : Action F} (step : Step one days k E s a t)
    (other : a.thread ≠ .main) :
    receives one days k s a = none ∧ mainSteps t = mainSteps s := by
  cases step with
  | record r channel inner =>
    cases Spsc.step_cases inner
    exact ⟨rfl, rfl⟩
  | callback channel inner =>
    cases Spsc.step_cases inner <;>
      exact ⟨by simp [receives, returns, onChannel, Spsc.endOf, takenOut, *], rfl⟩
  | _ => exact absurd rfl other

theorem Step.main_nearer {s t : State F B} (step : Step one days k E s .main t)
    {q : BoundedQueue (TickData F) B.val} (holds : Spsc.Holds s.channel q)
    (waiting : q.items ≠ []) :
    (receives one days k s .main).isSome ∧ mainSteps t = 4 ∨
      receives one days k s .main = none ∧ mainSteps t < mainSteps s := by
  obtain ⟨r, takes, _⟩ := step.takes holds
  unfold receives
  cases step with
  | pop channel pc inner =>
    cases Spsc.step_cases inner
    exact .inr ⟨by simp [returns, onChannel, pc, Spsc.endOf], by simp [mainSteps, pc]⟩
  | popping channel pc inner runs =>
    refine .inr ⟨by simp [returns, onChannel, pc, runs], ?_⟩
    cases Spsc.step_cases inner with
    | empty k r inside nothing => simp [Spsc.endOf_empty inside nothing] at runs
    | ready k r inside filled => simp [mainSteps, pc, inside]
    | read k r inside => simp [mainSteps, pc, inside]
    | advance k r value inside => simp [Spsc.endOf, inside] at runs
  | received channel value pc inner ends =>
    exact .inl ⟨by simp [returns, onChannel, pc, ends, takenOut], rfl⟩
  | empty channel pc inner ends =>
    simp only [returns, onChannel, pc, ends, Option.bind_some] at takes
    exact absurd (BoundedQueue.pop_nothing takes) waiting
  | again pc => exact .inr ⟨by simp [returns, onChannel, pc], by simp [mainSteps, pc]⟩

def Caught (one : F) (days : Int → UInt32 → UInt32 → Int) (k : Overload) (n : Nat)
    (x : List (State F B × Action F) × State F B) : Prop :=
  (admitted (outcomes one days k x.1)).length < n ∨ n ≤ (received one days k x.1).length

theorem received_snoc (h : List (State F B × Action F)) (s : State F B) (a : Action F) :
    received one days k (h ++ [(s, a)]) =
      received one days k h ++ (receives one days k s a).toList := by
  rw [received_log, received_log, Machine.log_snoc]

theorem waiting_of_short {n : Nat} {h : List (State F B × Action F)} {s : State F B}
    (run : (machine one days B k E).Run h s) (short : ¬ Caught one days k n (h, s)) :
    (received one days k h).length < n ∧ ∃ q, Spsc.Holds s.channel q ∧ q.items ≠ [] := by
  obtain ⟨_, q, holds, items⟩ := accounted_run run
  obtain ⟨taken, fewer⟩ := not_or.mp short
  refine ⟨Nat.not_le.mp fewer, q, holds, fun nothing => ?_⟩
  rw [nothing, List.append_nil] at items
  rw [items] at taken
  exact taken (Nat.not_le.mp fewer)

def waitRank (one : F) (days : Int → UInt32 → UInt32 → Int) (k : Overload) (n : Nat)
    (x : List (State F B × Action F) × State F B) : Nat :=
  6 * (n - (received one days k x.1).length) + mainSteps x.2

theorem waitRank_step {n : Nat} {h : List (State F B × Action F)} {s t : State F B} {a : Action F}
    (run : (machine one days B k E).Run h s) (short : ¬ Caught one days k n (h, s))
    (step : Step one days k E s a t) :
    waitRank one days k n (h ++ [(s, a)], t) < waitRank one days k n (h, s) ∨
      waitRank one days k n (h ++ [(s, a)], t) = waitRank one days k n (h, s) ∧
        a.thread ≠ .main := by
  obtain ⟨fewer, q, holds, waiting⟩ := waiting_of_short run short
  simp only [waitRank, received_snoc, List.length_append]
  by_cases main : a.thread = .main
  · obtain rfl : a = .main := by
      cases a <;> first | rfl | cases main
    left
    rcases step.main_nearer holds waiting with ⟨gets, first⟩ | ⟨nothing, nearer⟩
    · obtain ⟨value, gets⟩ := Option.isSome_iff_exists.mp gets
      rw [gets, first, Option.toList_some, List.length_singleton]
      omega
    · rw [nothing, Option.toList_none, List.length_nil]
      omega
  · obtain ⟨nothing, same⟩ := step.api main
    right
    rw [nothing, same, Option.toList_none, List.length_nil]
    exact ⟨rfl, main⟩

/-- Whatever records arrive, if the main thread is not held up for ever it gets every tick that
    the channel has taken. -/
theorem accepted_is_received (w : (machine one days B k E).Forever)
    (fair : w.FairTo Action.thread .main) (n : Nat) : ∃ m, n ≤ m ∧
      admitted (outcomes one days k (w.history n)) <+: received one days k (w.history m) := by
  let count := (admitted (outcomes one days k (w.history n))).length
  obtain ⟨m, later, caught⟩ := w.withHistory.reaches (Caught one days k count)
    (waitRank one days k count) (fun _ => Thread.main) (fun _ => fair.withHistory)
    (fun x reach _ => by
      obtain ⟨_, run⟩ := reach
      have running := consumer_run (Machine.Forever.recorded_run run)
      exact Machine.Forever.Enabled.recorded ⟨.main, rfl, main_able running⟩)
    (fun x a y reach short step => by
      obtain ⟨_, run⟩ := reach
      obtain ⟨t, inner, rfl⟩ := Option.map_eq_some_iff.mp step
      rcases waitRank_step (Machine.Forever.recorded_run run) short (step_cases inner) with
        less | ⟨same, other⟩
      · exact .inr (.inl less)
      · exact .inr (.inr ⟨same, rfl, other⟩)) n
  have taken : admitted (outcomes one days k (w.history n)) <+:
      admitted (outcomes one days k (w.history m)) :=
    BoundedQueue.admitted_prefix (((w.history_prefix later).filterMap _).filterMap _)
  have enough := caught.resolve_left (Nat.not_lt.mpr taken.length_le)
  obtain ⟨_, q, _, items⟩ := accounted_run (w.run m)
  rw [items] at taken
  exact ⟨m, later, List.prefix_of_prefix_length_le taken (List.prefix_append _ _) enough⟩

end

/-! Two records, the second while the main thread is in its first pop. -/

def recordAt (t : TickParser.DateTime) (millisec : Int) : DepthMarketData Int :=
  ⟨TickParser.tickAt t millisec, 0, 0, 0, 0, 0, 0, 0, 0, 0, 0, 0, 0, 0, 0, 0, 0, 0, 0, 0, 0, 0,
    0, 0, 0, 0, 0, 0, 0, 0, 0, 0⟩

def firstTime : TickParser.DateTime := ⟨2025, 5, 18, 23, 59, 59⟩
def secondTime : TickParser.DateTime := ⟨2025, 5, 19, 0, 0, 0⟩

def twoTicks : Machine (State Int twoSlots) (Action Int) :=
  machine 1 TickParser.sysDaysOf twoSlots .reference ⟨TickData.zero 0, id⟩

def twoRecords : List (Action Int) := [
  .record (recordAt firstTime 500), .callback, .callback, .callback, .main, .main,
  .record (recordAt secondTime 0), .callback, .main, .callback, .main, .callback,
  .main, .main, .main, .main]

theorem twoRecords_in_order :
    ((received 1 TickParser.sysDaysOf .reference (twoTicks.steps twoTicks.init twoRecords)).map
        TickData.stamp) = [1747612799500, 1747612800000] ∧
      (received 1 TickParser.sysDaysOf .reference
        (twoTicks.steps twoTicks.init twoRecords)).Pairwise fun a b => a.stamp < b.stamp := by
  have ran : (twoTicks.exec twoTicks.init twoRecords).isSome = true := by decide +kernel
  have records : records (twoTicks.steps twoTicks.init twoRecords) =
      [recordAt firstTime 500, recordAt secondTime 0] := by
    rfl
  have first : Written (recordAt firstTime 500).toDepthMarketData firstTime :=
    ⟨⟨by decide, by decide⟩, rfl, rfl⟩
  have second : Written (recordAt secondTime 0).toDepthMarketData secondTime :=
    ⟨⟨by decide, by decide⟩, rfl, rfl⟩
  refine ⟨by decide +kernel, ?_⟩
  apply received_in_time_order TickParser.calendar_sysDays (Machine.run_get ran)
  · simp only [records, List.forall_mem_cons]
    exact ⟨⟨⟨_, first⟩, by decide⟩, ⟨⟨_, second⟩, by decide⟩, by simp⟩
  · rw [records]
    refine List.pairwise_pair.mpr ⟨_, _, first, second, by decide⟩

def threeRecords : List (Action Int) := [
  .record (recordAt firstTime 500), .callback, .callback, .callback,
  .record (recordAt secondTime 0), .callback, .callback, .callback,
  .record (recordAt secondTime 500), .callback, .main]

theorem threeRecords_accounted :
    let h := twoTicks.steps twoTicks.init threeRecords
    ∃ s, twoTicks.exec twoTicks.init threeRecords = some s ∧
      (outcomes 1 TickParser.sysDaysOf .reference h).map Prod.snd = [true, true, false] ∧
      ticksOf 1 TickParser.sysDaysOf .new (records h) =
        (outcomes 1 TickParser.sysDaysOf .reference h).map Prod.fst ++ s.pushing ∧
      ∃ q, Spsc.Holds s.channel q ∧ admitted (outcomes 1 TickParser.sysDaysOf .reference h) =
        received 1 TickParser.sysDaysOf .reference h ++ q.items := by
  intro h
  have ran : (twoTicks.exec twoTicks.init threeRecords).isSome = true := by decide +kernel
  obtain ⟨ticks, held, _⟩ := ticks_accounted (Machine.run_get ran)
  exact ⟨_, (Option.some_get ran).symm, by decide +kernel, ticks, held⟩

def alternating : twoTicks.Forever := Machine.Forever.ofSchedule twoTicks fun n _ =>
  if n % 2 = 1 then .main
  else if n % 8 = 0 then .record (recordAt firstTime 500) else .callback

theorem alternating_received : ∃ m, 40 ≤ m ∧
    admitted (outcomes 1 TickParser.sysDaysOf .reference (alternating.history 40)) <+:
      received 1 TickParser.sysDaysOf .reference (alternating.history m) := by
  refine accepted_is_received alternating
    (Machine.Forever.ofSchedule_fairTo_only (a := .main) rfl ?_ ?_) 40
  · intro b acts
    cases b <;> first | rfl | cases acts
  · intro n
    exact ⟨2 * n + 1, by omega, fun _ => if_pos (by omega)⟩

end Live
end CtpMd
