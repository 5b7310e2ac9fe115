import FuTrader.Lib.BoundedQueue
import FuTrader.Channel.Mpsc

/- lockfree::SPSC<T, BufSize>. Every load and store of an index and every access to
   the buffer is one step; the steps of the two threads interleave in any order. -/
namespace Spsc
open Mpsc (BufSize SizeT Element Overload)
open BoundedQueue (Call Answer fifo)

/- Where the producer is, with the locals of push that it still uses. -/
inductive Producer (T : Type) where
  | idle
  | loadReadPos (u : T) (w : SizeT)
  | writeData (u : T) (w : SizeT)
  | storeWritePos (u : T) (w : SizeT)
  deriving DecidableEq

/- Where the consumer is. `value` is the local of pop() or the caller's out. -/
inductive Consumer (T : Type) where
  | idle
  | loadWritePos (k : Overload) (r : SizeT)
  | readData (k : Overload) (r : SizeT)
  | storeReadPos (k : Overload) (r : SizeT) (value : T)
  deriving DecidableEq

structure State (T : Type) (B : BufSize) where
  writePos : SizeT
  readPos : SizeT
  buffer : Fin B.val → T
  producer : Producer T
  consumer : Consumer T

inductive Action (T : Type) where
  | push (u : T)
  | producer
  | pop (k : Overload)
  | consumer
  deriving DecidableEq

variable {T : Type} {B : BufSize}

def init (E : Element T) : State T B where
  writePos := 0
  readPos := 0
  buffer _ := E.init
  producer := .idle
  consumer := .idle

def pushStep (s : State T B) (u : T) : Option (State T B) :=
  match s.producer with
  | .idle => some { s with producer := .loadReadPos u s.writePos }
  | _ => none

def producerStep (s : State T B) : Option (State T B) :=
  match s.producer with
  | .idle => none
  | .loadReadPos u w =>
    if B.val ≤ (w - s.readPos).toNat then some { s with producer := .idle }   -- return false
    else some { s with producer := .writeData u w }
  | .writeData u w =>
    some { s with
      buffer := Function.update s.buffer (B.sizeT.slot w) u
      producer := .storeWritePos u w }
  | .storeWritePos _ w => some { s with writePos := w + 1, producer := .idle }

def popStep (s : State T B) (k : Overload) : Option (State T B) :=
  match s.consumer with
  | .idle => some { s with consumer := .loadWritePos k s.readPos }
  | _ => none

def consumerStep (E : Element T) (s : State T B) : Option (State T B) :=
  match s.consumer with
  | .idle => none
  | .loadWritePos k r =>
    if s.writePos - r = 0 then some { s with consumer := .idle }              -- nullopt, false
    else some { s with consumer := .readData k r }
  | .readData k r =>
    let value := s.buffer (B.sizeT.slot r)
    some { s with
      buffer := Function.update s.buffer (B.sizeT.slot r) (E.moved value)
      consumer := .storeReadPos k r value }
  | .storeReadPos _ r _ => some { s with readPos := r + 1, consumer := .idle }

def step (E : Element T) (s : State T B) : Action T → Option (State T B)
  | .push u => pushStep s u
  | .producer => producerStep s
  | .pop k => popStep s k
  | .consumer => consumerStep E s

def machine (B : BufSize) (E : Element T) : Machine (State T B) (Action T) where
  init := init E
  step := step E

inductive Step (E : Element T) (s : State T B) : Action T → State T B → Prop where
  | push (u : T) (pc : s.producer = .idle) :
      Step E s (.push u) { s with producer := .loadReadPos u s.writePos }
  | refuse (u : T) (w : SizeT) (pc : s.producer = .loadReadPos u w)
      (full : B.val ≤ (w - s.readPos).toNat) : Step E s .producer { s with producer := .idle }
  | pass (u : T) (w : SizeT) (pc : s.producer = .loadReadPos u w)
      (room : (w - s.readPos).toNat < B.val) :
      Step E s .producer { s with producer := .writeData u w }
  | write (u : T) (w : SizeT) (pc : s.producer = .writeData u w) : Step E s .producer { s with
      buffer := Function.update s.buffer (B.sizeT.slot w) u
      producer := .storeWritePos u w }
  | publish (u : T) (w : SizeT) (pc : s.producer = .storeWritePos u w) :
      Step E s .producer { s with writePos := w + 1, producer := .idle }
  | pop (k : Overload) (pc : s.consumer = .idle) :
      Step E s (.pop k) { s with consumer := .loadWritePos k s.readPos }
  | empty (k : Overload) (r : SizeT) (pc : s.consumer = .loadWritePos k r)
      (nothing : s.writePos - r = 0) : Step E s .consumer { s with consumer := .idle }
  | ready (k : Overload) (r : SizeT) (pc : s.consumer = .loadWritePos k r)
      (filled : s.writePos - r ≠ 0) : Step E s .consumer { s with consumer := .readData k r }
  | read (k : Overload) (r : SizeT) (pc : s.consumer = .readData k r) :
      Step E s .consumer { s with
        buffer := Function.update s.buffer (B.sizeT.slot r) (E.moved (s.buffer (B.sizeT.slot r)))
        consumer := .storeReadPos k r (s.buffer (B.sizeT.slot r)) }
  | advance (k : Overload) (r : SizeT) (value : T) (pc : s.consumer = .storeReadPos k r value) :
      Step E s .consumer { s with readPos := r + 1, consumer := .idle }

theorem step_cases {E : Element T} {s t : State T B} {a : Action T} (eq : step E s a = some t) :
    Step E s a t := by
  cases a with
  | push u =>
    cases pc : s.producer <;> simp only [step, pushStep, pc, Option.some.injEq, reduceCtorEq] at eq
    subst eq
    exact .push u pc
  | producer =>
    cases pc : s.producer with
    | idle => simp [step, producerStep, pc] at eq
    | loadReadPos u w =>
      simp only [step, producerStep, pc] at eq
      split at eq <;> cases eq
      · rename_i full
        exact .refuse u w pc full
      · rename_i room
        exact .pass u w pc (Nat.not_le.mp room)
    | writeData u w =>
      simp only [step, producerStep, pc, Option.some.injEq] at eq
      subst eq
      exact .write u w pc
    | storeWritePos u w =>
      simp only [step, producerStep, pc, Option.some.injEq] at eq
      subst eq
      exact .publish u w pc
  | pop k =>
    cases pc : s.consumer <;> simp only [step, popStep, pc, Option.some.injEq, reduceCtorEq] at eq
    subst eq
    exact .pop k pc
  | consumer =>
    cases pc : s.consumer with
    | idle => simp [step, consumerStep, pc] at eq
    | loadWritePos k r =>
      simp only [step, consumerStep, pc] at eq
      split at eq <;> cases eq
      · rename_i nothing
        exact .empty k r pc nothing
      · rename_i filled
        exact .ready k r pc filled
    | readData k r =>
      simp only [step, consumerStep, pc, Option.some.injEq] at eq
      subst eq
      exact .read k r pc
    | storeReadPos k r value =>
      simp only [step, consumerStep, pc, Option.some.injEq] at eq
      subst eq
      exact .advance k r value pc

/-! The calls of a run: which begin, which return and with what. -/

def beginOf (_ : State T B) : Action T → Option (Call T)
  | .push u => some (.push u)
  | .pop _ => some .pop
  | _ => none

def endOf (s : State T B) : Action T → Option (Call T × Answer T)
  | .producer => match s.producer with
    | .loadReadPos u w =>
      if B.val ≤ (w - s.readPos).toNat then some (.push u, .pushed false) else none
    | .storeWritePos u _ => some (.push u, .pushed true)
    | _ => none
  | .consumer => match s.consumer with
    | .loadWritePos _ r => if s.writePos - r = 0 then some (.pop, .popped none) else none
    | .storeReadPos _ _ value => some (.pop, .popped (some value))
    | _ => none
  | _ => none

theorem endOf_refuse {s : State T B} {u : T} {w : SizeT} (pc : s.producer = .loadReadPos u w)
    (full : B.val ≤ (w - s.readPos).toNat) :
    endOf s .producer = some (.push u, .pushed false) := by
  simp only [endOf, pc]
  exact if_pos full

theorem endOf_pass {s : State T B} {u : T} {w : SizeT} (pc : s.producer = .loadReadPos u w)
    (room : (w - s.readPos).toNat < B.val) : endOf s .producer = none := by
  simp only [endOf, pc]
  exact if_neg (Nat.not_le.mpr room)

theorem endOf_empty {s : State T B} {k : Overload} {r : SizeT}
    (pc : s.consumer = .loadWritePos k r) (nothing : s.writePos - r = 0) :
    endOf s .consumer = some (.pop, .popped none) := by
  simp only [endOf, pc]
  exact if_pos nothing

theorem endOf_ready {s : State T B} {k : Overload} {r : SizeT}
    (pc : s.consumer = .loadWritePos k r) (filled : s.writePos - r ≠ 0) :
    endOf s .consumer = none := by
  simp only [endOf, pc]
  exact if_neg filled

theorem consumer_ends (s : State T B) :
    endOf s .consumer = none ∨
      ∃ value, endOf s .consumer = some (.pop, .popped value) := by
  cases pc : s.consumer with
  | loadWritePos k r =>
    by_cases nothing : s.writePos - r = 0
    · exact .inr ⟨none, endOf_empty pc nothing⟩
    · exact .inl (endOf_ready pc nothing)
  | storeReadPos k r value => exact .inr ⟨some value, by simp only [endOf, pc]⟩
  | idle => exact .inl (by simp only [endOf, pc])
  | readData k r => exact .inl (by simp only [endOf, pc])

def Producer.running : Producer T → List (Call T)
  | .idle => []
  | .loadReadPos u _ | .writeData u _ | .storeWritePos u _ => [.push u]

def Consumer.running : Consumer T → List (Call T)
  | .idle => []
  | _ => [.pop]

def begun (h : List (State T B × Action T)) : List (Call T) := Machine.log beginOf h
def ended (h : List (State T B × Action T)) : List (Call T × Answer T) := Machine.log endOf h

end Spsc
