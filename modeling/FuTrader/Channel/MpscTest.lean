import FuTrader.Channel.Held
import FuTrader.Lib.Merged
import Mathlib.Algebra.BigOperators.Intervals
import Mathlib.Algebra.BigOperators.Fin

/- The programs of mpsc_test.cc: each producer pushes its part of the numbers below N, every
   one until the channel has taken it, and then -1. The consumer counts and adds up what it
   pops, until it has popped as many -1 as there are producers. -/
namespace MpscTest
open Mpsc (BufSize SizeT Element Overload)

/- Where a producer is: `rest` is what its loops have still to push. -/
inductive Producer where
  | push (rest : List Int32)
  | pushing (value : Int32) (rest : List Int32)

/- Where the consumer is: at the head of its loop, in pop, or past the loop. -/
inductive Consumer where
  | loop
  | popping
  | done
  deriving DecidableEq

/-- `count`, `sum` and `finishedProducers` are the locals of the consumer. -/
structure State (B : BufSize) (P : Nat) where
  channel : Mpsc.State SizeT Int32 B P
  producer : Fin P → Producer
  consumer : Consumer
  count : UInt64
  sum : UInt64
  finishedProducers : UInt64

/- The next step of each thread. `notify i` is that of the consumer where it wakes `i`. -/
inductive Action (P : Nat) where
  | producer (i : Fin P)
  | spurious (i : Fin P)
  | consumer
  | notify (i : Fin P)
  deriving DecidableEq

def intElement : Element Int32 := ⟨0, id⟩

variable {B : BufSize} {P : Nat} {k : Overload}

def State.setProducer (s : State B P) (i : Fin P) (p : Producer) : State B P :=
  { s with producer := Function.update s.producer i p }

section fields
variable (s : State B P) (i : Fin P) (p : Producer)

@[simp] theorem setProducer_channel : (s.setProducer i p).channel = s.channel := rfl
@[simp] theorem setProducer_producer :
    (s.setProducer i p).producer = Function.update s.producer i p := rfl
@[simp] theorem setProducer_consumer : (s.setProducer i p).consumer = s.consumer := rfl
@[simp] theorem setProducer_finished :
    (s.setProducer i p).finishedProducers = s.finishedProducers := rfl
end fields

/-- `body i` are the numbers that producer `i` pushes. -/
def init (body : Fin P → List Int32) : State B P where
  channel := Mpsc.init B.sizeT intElement P
  producer i := .push (body i ++ [-1])
  consumer := .loop
  count := 0
  sum := 0
  finishedProducers := 0

/-- `while (!channel.push(value)) continue;` after a step of push. -/
def afterPush (value : Int32) (rest : List Int32) : Option Bool → Producer
  | some true => .push rest
  | some false => .push (value :: rest)
  | none => .pushing value rest

def State.afterPop (s : State B P) : Option (Option Int32) → State B P
  | none => s
  | some none => { s with consumer := .loop }
  | some (some value) =>
    if value = -1 then
      { s with consumer := .loop, finishedProducers := s.finishedProducers + 1 }
    else
      { s with consumer := .loop, count := s.count + 1, sum := s.sum + UInt64.ofInt value.toInt }

def channelStep (s : State B P) (b : Mpsc.Action Int32 P) : Option (State B P) :=
  (Mpsc.step B.sizeT intElement s.channel b).map fun c => { s with channel := c }

def producerStep (s : State B P) (i : Fin P) : Option (State B P) :=
  match s.producer i with
  | .push [] => none
  | .push (value :: rest) =>
    (channelStep s (.push i value)).map fun t => t.setProducer i (.pushing value rest)
  | .pushing value rest =>
    (channelStep s (.producer i)).map fun t =>
      t.setProducer i (afterPush value rest (Mpsc.pushResult B.sizeT s.channel i))

def consumerStep (k : Overload) (s : State B P) : Option (State B P) :=
  match s.consumer with
  | .loop =>
    if s.finishedProducers.toNat < P then
      (channelStep s (.pop k)).map fun t => { t with consumer := .popping }
    else some { s with consumer := .done }
  | .popping =>
    (channelStep s .consumer).map fun t => t.afterPop (Mpsc.popResult B.sizeT s.channel)
  | .done => none

def step (k : Overload) (s : State B P) : Action P → Option (State B P)
  | .producer i => producerStep s i
  | .spurious i => channelStep s (.spurious i)
  | .consumer => consumerStep k s
  | .notify i => channelStep s (.wake i)

def machine (B : BufSize) (k : Overload) (body : Fin P → List Int32) :
    Machine (State B P) (Action P) where
  init := init body
  step := step k

/-- `j` from `i * (N / WORK_NUM)` on, below `(i + 1) * (N / WORK_NUM)`. -/
def part (N : UInt64) (i : Fin P) : List Int32 :=
  (List.range' (i.val * (N.toNat / P)) (N.toNat / P)).map Int32.ofNat

def Required (N : UInt64) (s : State B P) : Prop := s.count = N ∧ s.sum = N * (N - 1) / 2

abbrev Moves (s : State B P) (b : Mpsc.Action Int32 P) (c : Mpsc.State SizeT Int32 B P) : Prop :=
  Mpsc.step B.sizeT intElement s.channel b = some c

inductive Step (k : Overload) (s : State B P) : Action P → State B P → Prop where
  | push (i : Fin P) (value : Int32) (rest : List Int32) (c : Mpsc.State SizeT Int32 B P)
      (pc : s.producer i = .push (value :: rest)) (moves : Moves s (.push i value) c) :
      Step k s (.producer i) ({ s with channel := c }.setProducer i (.pushing value rest))
  | pushing (i : Fin P) (value : Int32) (rest : List Int32) (c : Mpsc.State SizeT Int32 B P)
      (pc : s.producer i = .pushing value rest) (moves : Moves s (.producer i) c) :
      Step k s (.producer i) ({ s with channel := c }.setProducer i
        (afterPush value rest (Mpsc.pushResult B.sizeT s.channel i)))
  | spurious (i : Fin P) (c : Mpsc.State SizeT Int32 B P) (moves : Moves s (.spurious i) c) :
      Step k s (.spurious i) { s with channel := c }
  | pop (c : Mpsc.State SizeT Int32 B P) (pc : s.consumer = .loop)
      (more : s.finishedProducers.toNat < P) (moves : Moves s (.pop k) c) :
      Step k s .consumer { s with channel := c, consumer := .popping }
  | exit (pc : s.consumer = .loop) (all : P ≤ s.finishedProducers.toNat) :
      Step k s .consumer { s with consumer := .done }
  | popping (c : Mpsc.State SizeT Int32 B P) (pc : s.consumer = .popping)
      (moves : Moves s .consumer c) : Step k s .consumer
        ({ s with channel := c }.afterPop (Mpsc.popResult B.sizeT s.channel))
  | notify (i : Fin P) (c : Mpsc.State SizeT Int32 B P) (moves : Moves s (.wake i) c) :
      Step k s (.notify i) { s with channel := c }

theorem channelStep_cases {s t : State B P} {b : Mpsc.Action Int32 P}
    (eq : channelStep s b = some t) : ∃ c, Moves s b c ∧ t = { s with channel := c } := by
  obtain ⟨c, inner, rfl⟩ := Option.map_eq_some_iff.mp eq
  exact ⟨c, inner, rfl⟩

theorem step_cases {s t : State B P} {a : Action P} (eq : step k s a = some t) :
    Step k s a t := by
  cases a with
  | producer i =>
    simp only [step, producerStep] at eq
    split at eq
    · cases eq
    · rename_i value rest pc
      obtain ⟨u, inner, rfl⟩ := Option.map_eq_some_iff.mp eq
      obtain ⟨c, moves, rfl⟩ := channelStep_cases inner
      exact .push i value rest c pc moves
    · rename_i value rest pc
      obtain ⟨u, inner, rfl⟩ := Option.map_eq_some_iff.mp eq
      obtain ⟨c, moves, rfl⟩ := channelStep_cases inner
      exact .pushing i value rest c pc moves
  | spurious i =>
    obtain ⟨c, moves, rfl⟩ := channelStep_cases eq
    exact .spurious i c moves
  | consumer =>
    simp only [step, consumerStep] at eq
    split at eq
    · rename_i pc
      split at eq
      · rename_i more
        obtain ⟨u, inner, rfl⟩ := Option.map_eq_some_iff.mp eq
        obtain ⟨c, moves, rfl⟩ := channelStep_cases inner
        exact .pop c pc more moves
      · rename_i all
        cases eq
        exact .exit pc (Nat.not_lt.mp all)
    · rename_i pc
      obtain ⟨u, inner, rfl⟩ := Option.map_eq_some_iff.mp eq
      obtain ⟨c, moves, rfl⟩ := channelStep_cases inner
      exact .popping c pc moves
    · cases eq
  | notify i =>
    obtain ⟨c, moves, rfl⟩ := channelStep_cases eq
    exact .notify i c moves

/-! The channel inside the program. -/

def channelAct (k : Overload) (s : State B P) : Action P → Option (Mpsc.Action Int32 P)
  | .producer i => match s.producer i with
    | .push [] => none
    | .push (value :: _) => some (.push i value)
    | .pushing _ _ => some (.producer i)
  | .spurious i => some (.spurious i)
  | .consumer => match s.consumer with
    | .loop => if s.finishedProducers.toNat < P then some (.pop k) else none
    | .popping => some .consumer
    | .done => none
  | .notify i => some (.wake i)

section parts
variable (k : Overload) (h : List (State B P × Action P))

def channelPart : List (Mpsc.State SizeT Int32 B P × Mpsc.Action Int32 P) :=
  Machine.partOf State.channel (channelAct k) h

def tickets : List (Fin P × Int32) := Mpsc.issued (channelPart k h)
def popped : List Int32 := Mpsc.popped (channelPart k h)

end parts

theorem tickets_snoc (h : List (State B P × Action P)) (s : State B P) (a : Action P) :
    tickets k (h ++ [(s, a)]) =
      tickets k h ++ ((channelAct k s a).bind (Mpsc.ticketOf s.channel)).toList := by
  simp only [tickets, Mpsc.issued, channelPart, Machine.log_partOf, Machine.log_snoc]

theorem popped_snoc (h : List (State B P × Action P)) (s : State B P) (a : Action P) :
    popped k (h ++ [(s, a)]) =
      popped k h ++ ((channelAct k s a).bind (Mpsc.valueOf s.channel)).toList := by
  simp only [popped, Mpsc.popped, channelPart, Machine.log_partOf, Machine.log_snoc]

@[simp] theorem afterPop_channel (s : State B P) (result : Option (Option Int32)) :
    (s.afterPop result).channel = s.channel := by
  unfold State.afterPop
  split
  · rfl
  · rfl
  · split <;> rfl

@[simp] theorem afterPop_producer (s : State B P) (result : Option (Option Int32)) :
    (s.afterPop result).producer = s.producer := by
  unfold State.afterPop
  split
  · rfl
  · rfl
  · split <;> rfl

theorem Step.channel {s t : State B P} {a : Action P} (step : Step k s a t) :
    (∀ b, channelAct k s a = some b → Moves s b t.channel) ∧
      (channelAct k s a = none → t.channel = s.channel) := by
  cases step with
  | push i value rest c pc moves | pushing i value rest c pc moves | spurious i c moves
  | popping c pc moves | notify i c moves => simpa [channelAct, *] using moves
  | pop c pc more moves => simpa [channelAct, pc, more] using moves
  | exit pc all => simp [channelAct, pc, Nat.not_lt.mpr all]

theorem channel_run {body : Fin P → List Int32} {h : List (State B P × Action P)} {s : State B P}
    (run : (machine B k body).Run h s) :
    (Mpsc.machine B.sizeT intElement P).Run (channelPart k h) s.channel := by
  apply run.component State.channel (channelAct k) rfl
  · intro s a t b step act
    exact (step_cases step).channel.1 b act
  · intro s a t step act
    exact (step_cases step).channel.2 act

/-! Where the threads are tells of the calls in the channel. -/

def Producer.inPush : Producer → Multiset Int32
  | .push _ => 0
  | .pushing value _ => {value}

structure Aligned (s : State B P) : Prop where
  producers : ∀ i, (s.channel.producer i).held = (s.producer i).inPush
  consumer : s.consumer ≠ .popping → s.channel.consumer = .idle
  popping : s.consumer = .popping →
    s.channel.consumer ≠ .idle ∧ s.finishedProducers.toNat < P
  done : s.consumer = .done → P ≤ s.finishedProducers.toNat

theorem afterPush_inPush {channel : Mpsc.State SizeT Int32 B P} {i : Fin P} {value : Int32}
    {rest : List Int32} (held : (channel.producer i).held = {value}) :
    (afterPush value rest (Mpsc.pushResult B.sizeT channel i)).inPush =
      if (Mpsc.pushResult B.sizeT channel i).isSome then 0 else (channel.producer i).held := by
  cases result : Mpsc.pushResult B.sizeT channel i with
  | none => simp [afterPush, Producer.inPush, held]
  | some taken => cases taken <;> simp [afterPush, Producer.inPush]

theorem Aligned.step {s t : State B P} {a : Action P} (aligned : Aligned s)
    (step : Step k s a t) : Aligned t := by
  obtain ⟨producers, consumer, popping, done⟩ := aligned
  have held : ∀ {b c}, Moves s b c → ∀ j,
      (c.producer j).held = Mpsc.heldAfter B.sizeT s.channel j b :=
    fun moves j => Mpsc.held_step (Mpsc.step_cases moves) j
  cases step with
  | push i value rest c pc moves =>
    have kept := Mpsc.consumer_kept (Mpsc.step_cases moves) (.inl ⟨_, _, rfl⟩)
    refine ⟨fun j => ?_, fun out => kept.trans (consumer out), fun inside => ?_, done⟩
    · rw [setProducer_channel, held moves j]
      by_cases here : j = i
      · subst here
        simp [Mpsc.heldAfter, Producer.inPush]
      · simp [Mpsc.heldAfter, here, producers j]
    · exact ⟨kept ▸ (popping inside).1, (popping inside).2⟩
  | pushing i value rest c pc moves =>
    have kept := Mpsc.consumer_kept (Mpsc.step_cases moves) (.inr (.inl ⟨_, rfl⟩))
    refine ⟨fun j => ?_, fun out => kept.trans (consumer out), fun inside => ?_, done⟩
    · rw [setProducer_channel, held moves j]
      by_cases here : j = i
      · subst here
        rw [setProducer_producer, Function.update_self,
          afterPush_inPush ((producers j).trans (by rw [pc]; rfl))]
        simp [Mpsc.heldAfter]
      · simp [Mpsc.heldAfter, here, producers j]
    · exact ⟨kept ▸ (popping inside).1, (popping inside).2⟩
  | spurious i c moves =>
    have kept := Mpsc.consumer_kept (Mpsc.step_cases moves) (.inr (.inr ⟨_, rfl⟩))
    refine ⟨fun j => (held moves j).trans (producers j), fun out => kept.trans (consumer out),
      fun inside => ?_, done⟩
    exact ⟨kept ▸ (popping inside).1, (popping inside).2⟩
  | pop c pc more moves =>
    refine ⟨fun j => (held moves j).trans (producers j), by simp, fun _ => ⟨?_, more⟩, by simp⟩
    cases Mpsc.step_cases moves with
    | pop _ idle => simp
  | exit pc all =>
    exact ⟨producers, fun _ => consumer (by simp [pc]), by simp, fun _ => all⟩
  | popping c pc moves =>
    obtain ⟨runs, more⟩ := popping pc
    have inner := Mpsc.step_cases moves
    have pushed : ∀ j, (c.producer j).held = (s.producer j).inPush :=
      fun j => (held moves j).trans (producers j)
    cases result : Mpsc.popResult B.sizeT s.channel with
    | none =>
      have still := Mpsc.consumer_runs inner runs fun _ => result
      exact ⟨pushed, fun out => absurd pc out, fun _ => ⟨still, more⟩, done⟩
    | some value =>
      have idle := Mpsc.idle_of_popResult inner result
      cases value with
      | none => exact ⟨pushed, fun _ => idle, by simp [State.afterPop], by simp [State.afterPop]⟩
      | some value =>
        by_cases last : value = -1 <;> simp only [State.afterPop, last, if_true, if_false] <;>
          exact ⟨pushed, fun _ => idle, by simp, by simp⟩
  | notify i c moves =>
    have inner := Mpsc.step_cases moves
    have inside : s.consumer = .popping := by
      by_contra out
      have idle := consumer out
      cases inner with
      | wake i _ pos value u ticket seqVal pc => simp [idle] at pc
    obtain ⟨runs, more⟩ := popping inside
    have still := Mpsc.consumer_runs inner runs (by simp)
    exact ⟨fun j => (held moves j).trans (producers j), fun out => absurd inside out,
      fun _ => ⟨still, more⟩, done⟩

theorem aligned_reachable {body : Fin P → List Int32} {s : State B P}
    (reach : (machine B k body).Reachable s) : Aligned s := by
  apply Machine.Reachable.invariant (M := machine B k body) Aligned ?_ ?_ reach
  · exact ⟨fun _ => rfl, fun _ => rfl, by simp [machine, init], by simp [machine, init]⟩
  · exact fun s a t _ aligned step => aligned.step (step_cases step)

/-! What has been accepted of each producer, and what it has still to push. -/

def Producer.left : Producer → List Int32
  | .push rest => rest
  | .pushing value rest => value :: rest

def accepted (k : Overload) (h : List (State B P × Action P)) : List (Fin P × Int32) :=
  Mpsc.accepted (channelPart k h)

theorem accepted_snoc (h : List (State B P × Action P)) (s : State B P) (a : Action P) :
    accepted k (h ++ [(s, a)]) =
      accepted k h ++ ((channelAct k s a).bind (Mpsc.acceptOf s.channel)).toList := by
  simp only [accepted, Mpsc.accepted, channelPart, Machine.log_partOf, Machine.log_snoc]

theorem Step.left {s t : State B P} {a : Action P} (aligned : Aligned s) (step : Step k s a t)
    (j : Fin P) :
    Mpsc.byProducer j ((channelAct k s a).bind (Mpsc.acceptOf s.channel)).toList ++
      (t.producer j).left = (s.producer j).left := by
  cases step with
  | push i value rest c pc moves =>
    by_cases here : j = i
    · subst here
      simp [channelAct, pc, Mpsc.acceptOf, Mpsc.byProducer, Producer.left]
    · simp [channelAct, pc, Mpsc.acceptOf, Mpsc.byProducer, here]
  | pushing i value rest c pc moves =>
    have held : (s.channel.producer i).held = {value} :=
      (aligned.producers i).trans (by rw [pc]; rfl)
    have accepts := Mpsc.acceptOf_producer B.sizeT held
    by_cases here : j = i
    · subst here
      cases result : Mpsc.pushResult B.sizeT s.channel j with
      | none => simp [channelAct, pc, accepts, result, Mpsc.byProducer, afterPush, Producer.left]
      | some taken =>
        cases taken <;>
          simp [channelAct, pc, accepts, result, Mpsc.byProducer, afterPush, Producer.left]
    · have other : Mpsc.byProducer j (Mpsc.acceptOf s.channel (.producer i)).toList = [] := by
        rw [accepts]
        split <;> simp [Mpsc.byProducer, Ne.symm here]
      simp [channelAct, pc, other, here]
  | pop c pc more moves => simp [channelAct, pc, more, Mpsc.acceptOf, Mpsc.byProducer]
  | exit pc all => simp [channelAct, pc, Nat.not_lt.mpr all, Mpsc.byProducer]
  | popping c pc moves => simp [channelAct, pc, Mpsc.acceptOf, Mpsc.byProducer]
  | spurious | notify => simp [channelAct, Mpsc.acceptOf, Mpsc.byProducer]

theorem left_run {body : Fin P → List Int32} {h : List (State B P × Action P)} {s : State B P}
    (run : (machine B k body).Run h s) (i : Fin P) :
    Mpsc.byProducer i (accepted k h) ++ (s.producer i).left = body i ++ [-1] := by
  apply Machine.Run.invariant (M := machine B k body)
    (fun h s => Mpsc.byProducer i (accepted k h) ++ (s.producer i).left = body i ++ [-1]) rfl ?_ run
  intro h s a t run known step
  rw [accepted_snoc, Mpsc.byProducer_append, List.append_assoc,
    (step_cases step).left (aligned_reachable run.reachable), known]

theorem tickets_run (fits : B.val + P ≤ 2 ^ 64) {body : Fin P → List Int32}
    {h : List (State B P × Action P)} {s : State B P} (run : (machine B k body).Run h s)
    (i : Fin P) : Mpsc.byProducer i (tickets k h) <+: body i ++ [-1] := by
  have held := (aligned_reachable run.reachable).producers i
  rw [← left_run run i, tickets, Mpsc.issued_sizeT fits (channel_run run) i, accepted,
    List.prefix_append_right_inj]
  rcases Mpsc.pending_held (s.channel.producer i) with none | ⟨u, one, same⟩
  · rw [none]
    exact List.nil_prefix
  · rw [one]
    rw [same] at held
    cases pc : s.producer i with
    | push rest => simp [pc, Producer.inPush] at held
    | pushing value rest =>
      rw [pc] at held
      obtain rfl : u = value := Multiset.singleton_inj.mp held
      exact ⟨rest, rfl⟩

/-! The locals of the consumer. -/

def numbers (values : List Int32) : List Int32 := values.filter (· ≠ -1)

def total (values : List Int32) : Int := (values.map Int32.toInt).sum

structure Told (values : List Int32) (s : State B P) : Prop where
  count : s.count = UInt64.ofNat (numbers values).length
  sum : s.sum = UInt64.ofInt (total (numbers values))
  finished : s.finishedProducers = UInt64.ofNat (values.count (-1))

theorem Told.afterPop {values : List Int32} {s : State B P} (told : Told values s)
    (result : Option (Option Int32)) :
    Told (values ++ result.join.toList) (s.afterPop result) := by
  obtain ⟨count, sum, finished⟩ := told
  match result with
  | none | some none => constructor <;> simp [State.afterPop, count, sum, finished]
  | some (some value) =>
    by_cases last : value = -1
    · subst last
      constructor <;> simp [State.afterPop, numbers, count, sum, finished]
    · constructor <;>
        simp [State.afterPop, numbers, total, last, count, sum, finished]

theorem told_run {body : Fin P → List Int32} {h : List (State B P × Action P)} {s : State B P}
    (run : (machine B k body).Run h s) : Told (popped k h) s := by
  apply Machine.Run.invariant (M := machine B k body) (fun h s => Told (popped k h) s) ?_ ?_ run
  · exact ⟨rfl, rfl, rfl⟩
  intro h s a t run told step
  have kept : ∀ {u : State B P}, u.count = s.count → u.sum = s.sum →
      u.finishedProducers = s.finishedProducers → Told (popped k h ++ []) u :=
    fun count sum finished => by
      rw [List.append_nil]
      exact ⟨count.trans told.count, sum.trans told.sum, finished.trans told.finished⟩
  rw [popped_snoc]
  cases step_cases step with
  | push i value rest c pc moves | pushing i value rest c pc moves =>
    simp only [channelAct, pc]
    exact kept rfl rfl rfl
  | pop c pc more moves =>
    simp only [channelAct, pc, more, if_true]
    exact kept rfl rfl rfl
  | exit pc all =>
    simp only [channelAct, pc, Nat.not_lt.mpr all, if_false]
    exact kept rfl rfl rfl
  | popping c pc moves =>
    have acts : channelAct k s .consumer = some .consumer := by simp only [channelAct, pc]
    have before : Told (popped k h) { s with channel := c } := ⟨told.count, told.sum, told.finished⟩
    rw [acts, Option.bind_some, Mpsc.valueOf_consumer B.sizeT]
    exact before.afterPop _
  | spurious i c moves | notify i c moves => exact kept rfl rfl rfl

/-! When the consumer has left its loop. -/

/-- With the last -1 the consumer has popped every value of every producer. -/
theorem complete (fits : B.val + P ≤ 2 ^ 64) {body : Fin P → List Int32}
    (unmarked : ∀ i, -1 ∉ body i) {h : List (State B P × Action P)} {s : State B P}
    (run : (machine B k body).Run h s) (finished : P ≤ s.finishedProducers.toNat) :
    popped k h = (tickets k h).map Prod.snd ∧
      (∀ i, Mpsc.byProducer i (tickets k h) = body i ++ [-1]) ∧
      (popped k h : Multiset Int32) =
        ∑ i, (body i : Multiset Int32) + Multiset.replicate P (-1) := by
  have inOrder : popped k h <+: (tickets k h).map Prod.snd :=
    Mpsc.popped_sizeT (.inl fits) (channel_run run)
  obtain ⟨early, beginning, same⟩ := (List.prefix_map_iff ..).mp inOrder
  have marked : Fintype.card (Fin P) ≤ (early.map Prod.snd).count (-1) := by
    rw [Fintype.card_fin, ← same]
    rw [(told_run run).finished, UInt64.toNat_ofNat'] at finished
    exact Nat.le_trans finished (Nat.mod_le _ _)
  obtain ⟨rfl, values⟩ := Merged.early_complete unmarked (tickets_run fits run) beginning marked
  rw [Fintype.card_fin, ← same] at values
  exact ⟨same, Merged.streams_complete unmarked (tickets_run fits run) marked, values⟩

theorem left_of_popped (fits : B.val + P ≤ 2 ^ 64) {body : Fin P → List Int32}
    {h : List (State B P × Action P)} {s : State B P} (run : (machine B k body).Run h s)
    (all : popped k h = (tickets k h).map Prod.snd) (i : Fin P) :
    Mpsc.byProducer i (tickets k h) ++ (s.producer i).left = body i ++ [-1] := by
  rw [tickets, ← Mpsc.accepted_of_popped fits (channel_run run) all]
  exact left_run run i

theorem returned (fits : B.val + P ≤ 2 ^ 64) {body : Fin P → List Int32}
    {h : List (State B P × Action P)} {s : State B P} (run : (machine B k body).Run h s)
    (all : popped k h = (tickets k h).map Prod.snd) {i : Fin P}
    (whole : Mpsc.byProducer i (tickets k h) = body i ++ [-1]) : s.producer i = .push [] := by
  have left := left_of_popped fits run all i
  rw [whole, List.append_right_eq_self] at left
  cases pc : s.producer i with
  | push rest =>
    rw [pc] at left
    exact congrArg Producer.push left
  | pushing value rest => simp [pc, Producer.left] at left

theorem numbers_complete {body : Fin P → List Int32} (unmarked : ∀ i, -1 ∉ body i)
    {values : List Int32}
    (all : (values : Multiset Int32) = ∑ i, (body i : Multiset Int32) + Multiset.replicate P (-1)) :
    (numbers values : Multiset Int32) = ∑ i, (body i : Multiset Int32) := by
  have kept : ∀ value ∈ ∑ i, (body i : Multiset Int32), value ≠ -1 := by
    rintro value member rfl
    obtain ⟨i, _, among⟩ := Multiset.mem_sum.mp member
    exact unmarked i among
  have none : ∀ value ∈ Multiset.replicate P (-1 : Int32), ¬ value ≠ -1 := by
    intro value member
    simp [Multiset.eq_of_mem_replicate member]
  calc (numbers values : Multiset Int32)
    _ = (values : Multiset Int32).filter (· ≠ -1) := by simp [numbers, Multiset.filter_coe]
    _ = ∑ i, (body i : Multiset Int32) := by
        rw [all, Multiset.filter_add, Multiset.filter_eq_self.mpr kept,
          Multiset.filter_eq_nil.mpr none, add_zero]

theorem sum_ranges (P q : Nat) :
    ∑ i : Fin P, (List.range' (i.val * q) q : Multiset Nat) = Multiset.range (P * q) := by
  induction P with
  | zero => simp
  | succ P ih =>
    rw [Fin.sum_univ_castSucc]
    simp only [Fin.val_castSucc, Fin.val_last, ih, Nat.succ_mul, Multiset.range_add]
    rw [List.range'_eq_map_range]
    rfl

theorem toInt_number {N : UInt64} (small : N.toNat ≤ 2 ^ 31) {j : Nat} (less : j < N.toNat) :
    (Int32.ofNat j).toInt = j := Int32.toInt_ofNat_of_lt (by omega)

theorem sum_parts {N : UInt64} (divides : P ∣ N.toNat) :
    ∑ i : Fin P, (part N i : Multiset Int32) = (Multiset.range N.toNat).map Int32.ofNat := by
  have whole := congrArg (Multiset.mapAddMonoidHom Int32.ofNat) (sum_ranges P (N.toNat / P))
  rw [Nat.mul_div_cancel' divides, map_sum] at whole
  exact whole

theorem part_unmarked {N : UInt64} (small : N.toNat ≤ 2 ^ 31) (i : Fin P) : -1 ∉ part N i := by
  intro member
  obtain ⟨j, among, same⟩ := List.mem_map.mp member
  have parts : (i.val + 1) * (N.toNat / P) ≤ N.toNat :=
    (Nat.mul_le_mul_right _ i.isLt).trans (Nat.mul_div_le _ _)
  have less : j < N.toNat := by
    have bound := (List.mem_range'_1.mp among).2
    rw [Nat.succ_mul] at parts
    omega
  have value := congrArg Int32.toInt same
  rw [toInt_number small less] at value
  exact absurd value (by simp)

theorem ofInt_natCast (n : Nat) : UInt64.ofInt n = UInt64.ofNat n := by
  apply UInt64.toNat_inj.mp
  rw [UInt64.ofInt, UInt64.toNat_ofNat', UInt64.toNat_ofNat']
  omega

theorem half_product {N : UInt64} (small : N.toNat ≤ 2 ^ 31) :
    UInt64.ofNat (N.toNat * (N.toNat - 1) / 2) = N * (N - 1) / 2 := by
  have product : N.toNat * (N.toNat - 1) < 2 ^ 64 := by
    calc N.toNat * (N.toNat - 1) ≤ 2 ^ 31 * 2 ^ 31 := Nat.mul_le_mul small (by omega)
      _ < 2 ^ 64 := by decide
  apply UInt64.toNat_inj.mp
  rw [UInt64.toNat_div, UInt64.toNat_mul, UInt64.toNat_ofNat', Nat.mod_eq_of_lt (by omega)]
  rcases Nat.eq_zero_or_pos N.toNat with zero | pos
  · simp [zero]
  · have one : 1 ≤ N := UInt64.le_iff_toNat_le.mpr pos
    have less : (N - 1).toNat = N.toNat - 1 := UInt64.toNat_sub_of_le _ _ one
    rw [less, Nat.mod_eq_of_lt product]
    rfl

theorem total_numbers {N : UInt64} (small : N.toNat ≤ 2 ^ 31) {values : List Int32}
    (all : (values : Multiset Int32) = (Multiset.range N.toNat).map Int32.ofNat) :
    total values = (N.toNat * (N.toNat - 1) / 2 : Nat) := by
  calc total values
    _ = ((values : Multiset Int32).map Int32.toInt).sum := by
        rw [Multiset.map_coe, Multiset.sum_coe, total]
    _ = ((Multiset.range N.toNat).map fun j : Nat => (j : Int)).sum := by
        rw [all, Multiset.map_map]
        congr 1
        apply Multiset.map_congr rfl
        intro j member
        exact toInt_number small (Multiset.mem_range.mp member)
    _ = ((∑ j ∈ Finset.range N.toNat, j : Nat) : Int) := by
        rw [Nat.cast_sum]
        rfl
    _ = _ := by rw [Finset.sum_range_id]

theorem returned_of_done {N : UInt64} (fits : B.val + P ≤ 2 ^ 64) (small : N.toNat ≤ 2 ^ 31)
    {h : List (State B P × Action P)} {s : State B P} (run : (machine B k (part N)).Run h s)
    (done : s.consumer = .done) (i : Fin P) : s.producer i = .push [] := by
  have finished := (aligned_reachable run.reachable).done done
  obtain ⟨all, whole, _⟩ := complete fits (part_unmarked small) run finished
  exact returned fits run all (whole i)

theorem required_of_done {N : UInt64} (fits : B.val + P ≤ 2 ^ 64) (small : N.toNat ≤ 2 ^ 31)
    (divides : P ∣ N.toNat) {h : List (State B P × Action P)} {s : State B P}
    (run : (machine B k (part N)).Run h s) (done : s.consumer = .done) : Required N s := by
  have finished := (aligned_reachable run.reachable).done done
  obtain ⟨_, _, values⟩ := complete fits (part_unmarked small) run finished
  have told := told_run run
  have once := numbers_complete (part_unmarked small) values
  rw [sum_parts divides] at once
  constructor
  · have number := congrArg Multiset.card once
    rw [Multiset.coe_card, Multiset.card_map, Multiset.card_range] at number
    rw [told.count, number, UInt64.ofNat_toNat]
  · rw [told.sum, total_numbers small once, ofInt_natCast, half_product small]

/-- However the threads are scheduled, when the consumer has left its loop the producers have
    returned, and what mpsc_test.cc requires of count and sum holds. -/
theorem required_holds {N : UInt64} (fits : B.val + P ≤ 2 ^ 64) (small : N.toNat ≤ 2 ^ 31)
    (divides : P ∣ N.toNat) {h : List (State B P × Action P)} {s : State B P}
    (run : (machine B k (part N)).Run h s) (done : s.consumer = .done) :
    (∀ i, s.producer i = .push []) ∧ Required N s := by
  constructor
  · exact returned_of_done fits small run done
  · exact required_of_done fits small divides run done

/-! Two producers and the numbers below 2. Producer 0 finds the queue full once. -/

abbrev twoNumbers : Machine (State Mpsc.twoSlots 2) (Action 2) :=
  machine Mpsc.twoSlots .optional (part 2)

def refusedOnce : List (Action 2) :=
  List.replicate 6 (.producer 0) ++ List.replicate 6 (.producer 1) ++
    List.replicate 2 (.producer 0) ++ List.replicate 12 .consumer ++
    List.replicate 6 (.producer 1) ++ List.replicate 6 (.producer 0) ++
    List.replicate 13 .consumer

theorem refusedOnce_ran : (twoNumbers.exec twoNumbers.init refusedOnce).isSome = true := by
  decide +kernel

theorem refusedOnce_required :
    Required 2 ((twoNumbers.exec twoNumbers.init refusedOnce).get refusedOnce_ran) ∧
      popped .optional (twoNumbers.steps twoNumbers.init refusedOnce) = [0, 1, -1, -1] :=
  ⟨(required_holds (by decide) (by decide) (by decide) (Machine.run_get refusedOnce_ran)
    (by decide +kernel)).2, by decide +kernel⟩

end MpscTest
