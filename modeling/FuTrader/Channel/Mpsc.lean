import FuTrader.Lib.Machine
import FuTrader.Lib.Counter
import Mathlib.Data.Fintype.Basic
import Mathlib.Logic.Function.Basic

/- lockfree::MPSC<T, BufSize>. Every atomic load, store and fetch_add, the write
   and the read of slot.data and the notify_one is one step; the steps of the
   producers and of the consumer interleave in any order. -/
namespace Mpsc

/-- `requires(BufSize >= 2) && ((BufSize & (BufSize - 1)) == 0)` on a `size_t`. -/
structure BufSize where
  val : Nat
  two_le : 2 ≤ val
  one_bit : val &&& (val - 1) = 0
  lt : val < 2 ^ 64

instance (B : BufSize) : NeZero B.val := ⟨by have := B.two_le; omega⟩

theorem BufSize.power (B : BufSize) : ∃ k, k < 64 ∧ B.val = 2 ^ k := by
  have two := B.two_le
  obtain ⟨k, power⟩ := (Nat.and_sub_one_eq_zero_iff_isPowerOfTwo (by omega)).mp B.one_bit
  refine ⟨k, ?_, power⟩
  have lt := B.lt
  rw [power] at lt
  exact (Nat.pow_lt_pow_iff_right (by decide)).mp lt

theorem BufSize.le_half (B : BufSize) : B.val ≤ 2 ^ 63 := by
  obtain ⟨k, less, power⟩ := B.power
  rw [power]
  exact Nat.pow_le_pow_right (by decide) (by omega)

def twoSlots : BufSize := ⟨2, by decide, by decide, by decide⟩

instance twoThreads : NeZero 2 := ⟨by decide⟩

abbrev SizeT := BitVec 64

/-- What the queue computes on its counters: `i`, `pos + 1`, `pos + BufSize`,
    `pos & MASK` and `cur_head - cur_tail >= BufSize`. -/
structure Counters (κ : Type) (B : BufSize) where
  ofNat : Nat → κ
  succ : κ → κ
  lap : κ → κ
  slot : κ → Fin B.val
  full : κ → κ → Bool

def BufSize.mask (B : BufSize) : SizeT := BitVec.ofNat 64 (B.val - 1)

theorem BufSize.and_mask (B : BufSize) (n : Nat) :
    (BitVec.ofNat 64 n &&& B.mask).toNat = n % B.val := by
  obtain ⟨k, less, power⟩ := B.power
  rw [BufSize.mask, power]
  exact Counter.toNat_and_mask (Nat.le_of_lt less) n

def BufSize.sizeT (B : BufSize) : Counters SizeT B where
  ofNat := BitVec.ofNat 64
  succ pos := pos + 1
  lap pos := pos + BitVec.ofNat 64 B.val
  slot pos := ⟨(pos &&& B.mask).toNat, by
    have image := B.and_mask pos.toNat
    rw [BitVec.ofNat_toNat, BitVec.setWidth_eq] at image
    rw [image]
    exact Nat.mod_lt _ (Nat.pos_of_neZero _)⟩
  full curHead curTail := decide (B.val ≤ (curHead - curTail).toNat)

/-- `T{}` and what `std::move` leaves in its source. -/
structure Element (T : Type) where
  init : T
  moved : T → T

structure Slot (κ T : Type) where
  seq : κ
  data : T
  deriving DecidableEq

/- Where a producer is, with the locals of push. `parked` is inside slot.seq.wait. -/
inductive Producer (κ T : Type) where
  | idle
  | loadTail (u : T) (curHead : κ)
  | fetchAdd (u : T) (curHead curTail : κ)
  | loadSeq (u : T) (pos : κ)
  | wait (u : T) (pos seqVal : κ)
  | parked (u : T) (pos seqVal : κ)
  | writeData (u : T) (pos : κ)
  | storeSeq (u : T) (pos : κ)
  deriving DecidableEq

/-- `std::optional<T> pop()` and `bool pop(T& out)`. -/
inductive Overload where
  | optional
  | reference
  deriving DecidableEq

/- Where the consumer is. `value` is the local of pop() or the caller's out. -/
inductive Consumer (κ T : Type) where
  | idle
  | loadSeq (k : Overload) (pos : κ)
  | readData (k : Overload) (pos : κ)
  | storeSeq (k : Overload) (pos : κ) (value : T)
  | notifyOne (k : Overload) (pos : κ) (value : T)
  | storeTail (k : Overload) (pos : κ) (value : T)
  deriving DecidableEq

def Producer.ticket {κ T : Type} : Producer κ T → Option κ
  | .loadSeq _ pos | .wait _ pos _ | .parked _ pos _ | .writeData _ pos | .storeSeq _ pos =>
    some pos
  | _ => none

def Producer.owned {κ T : Type} : Producer κ T → Option κ
  | .writeData _ pos | .storeSeq _ pos => some pos
  | _ => none

def Consumer.owned {κ T : Type} : Consumer κ T → Option κ
  | .readData _ pos | .storeSeq _ pos _ => some pos
  | _ => none

structure State (κ T : Type) (B : BufSize) (P : Nat) where
  head : κ
  tail : κ
  buffer : Fin B.val → Slot κ T
  producer : Fin P → Producer κ T
  consumer : Consumer κ T

inductive Action (T : Type) (P : Nat) where
  | push (i : Fin P) (u : T)
  | producer (i : Fin P)
  | spurious (i : Fin P)
  | pop (k : Overload)
  | consumer
  | wake (i : Fin P)
  deriving DecidableEq

section
variable {κ T : Type} {B : BufSize} {P : Nat}

def State.setProducer (s : State κ T B P) (i : Fin P) (p : Producer κ T) : State κ T B P :=
  { s with producer := Function.update s.producer i p }

def State.setSlot (s : State κ T B P) (k : Fin B.val) (x : Slot κ T) : State κ T B P :=
  { s with buffer := Function.update s.buffer k x }

def State.setConsumer (s : State κ T B P) (c : Consumer κ T) : State κ T B P :=
  { s with consumer := c }

section fields
variable (s : State κ T B P) (i : Fin P) (p : Producer κ T) (k : Fin B.val) (x : Slot κ T)
  (c : Consumer κ T)

@[simp] theorem setProducer_head : (s.setProducer i p).head = s.head := rfl
@[simp] theorem setProducer_tail : (s.setProducer i p).tail = s.tail := rfl
@[simp] theorem setProducer_buffer : (s.setProducer i p).buffer = s.buffer := rfl
@[simp] theorem setProducer_consumer : (s.setProducer i p).consumer = s.consumer := rfl
@[simp] theorem setProducer_producer :
    (s.setProducer i p).producer = Function.update s.producer i p := rfl
@[simp] theorem setSlot_head : (s.setSlot k x).head = s.head := rfl
@[simp] theorem setSlot_tail : (s.setSlot k x).tail = s.tail := rfl
@[simp] theorem setSlot_buffer : (s.setSlot k x).buffer = Function.update s.buffer k x := rfl
@[simp] theorem setSlot_consumer : (s.setSlot k x).consumer = s.consumer := rfl
@[simp] theorem setSlot_producer : (s.setSlot k x).producer = s.producer := rfl
@[simp] theorem setConsumer_head : (s.setConsumer c).head = s.head := rfl
@[simp] theorem setConsumer_tail : (s.setConsumer c).tail = s.tail := rfl
@[simp] theorem setConsumer_buffer : (s.setConsumer c).buffer = s.buffer := rfl
@[simp] theorem setConsumer_consumer : (s.setConsumer c).consumer = c := rfl
@[simp] theorem setConsumer_producer : (s.setConsumer c).producer = s.producer := rfl
end fields

def init (C : Counters κ B) (E : Element T) (P : Nat) : State κ T B P where
  head := C.ofNat 0
  tail := C.ofNat 0
  buffer i := ⟨C.ofNat i.val, E.init⟩
  producer _ := .idle
  consumer := .idle

variable [DecidableEq κ]

def ParkedOn (C : Counters κ B) (s : State κ T B P) (k : Fin B.val) (i : Fin P) : Bool :=
  match s.producer i with
  | .parked _ pos _ => C.slot pos = k
  | _ => false

def pushStep (s : State κ T B P) (i : Fin P) (u : T) : Option (State κ T B P) :=
  match s.producer i with
  | .idle => some (s.setProducer i (.loadTail u s.head))
  | _ => none

def producerStep (C : Counters κ B) (s : State κ T B P) (i : Fin P) : Option (State κ T B P) :=
  match s.producer i with
  | .idle => none
  | .loadTail u curHead =>
    if C.full curHead s.tail then some (s.setProducer i .idle)   -- return false
    else some (s.setProducer i (.fetchAdd u curHead s.tail))
  | .fetchAdd u _ _ =>
    some ({ s with head := C.succ s.head }.setProducer i (.loadSeq u s.head))
  | .loadSeq u pos =>
    let seqVal := (s.buffer (C.slot pos)).seq
    if seqVal = pos then some (s.setProducer i (.writeData u pos))
    else some (s.setProducer i (.wait u pos seqVal))
  | .wait u pos seqVal =>
    if (s.buffer (C.slot pos)).seq = seqVal then some (s.setProducer i (.parked u pos seqVal))
    else some (s.setProducer i (.loadSeq u pos))
  | .parked _ _ _ => none
  | .writeData u pos =>
    let slot := s.buffer (C.slot pos)
    some ((s.setSlot (C.slot pos) { slot with data := u }).setProducer i (.storeSeq u pos))
  | .storeSeq _ pos =>                                            -- return true
    let slot := s.buffer (C.slot pos)
    some ((s.setSlot (C.slot pos) { slot with seq := C.succ pos }).setProducer i .idle)

/-- `wait` compares again when its thread runs on, notified or not. -/
def unpark (s : State κ T B P) (i : Fin P) : Option (State κ T B P) :=
  match s.producer i with
  | .parked u pos seqVal => some (s.setProducer i (.wait u pos seqVal))
  | _ => none

def popStep (s : State κ T B P) (k : Overload) : Option (State κ T B P) :=
  match s.consumer with
  | .idle => some (s.setConsumer (.loadSeq k s.tail))
  | _ => none

def consumerStep (C : Counters κ B) (E : Element T) (s : State κ T B P) :
    Option (State κ T B P) :=
  match s.consumer with
  | .idle => none
  | .loadSeq k pos =>
    if (s.buffer (C.slot pos)).seq = C.succ pos then some (s.setConsumer (.readData k pos))
    else some (s.setConsumer .idle)                        -- nullopt, false
  | .readData k pos =>
    let slot := s.buffer (C.slot pos)
    some ((s.setSlot (C.slot pos) { slot with data := E.moved slot.data }).setConsumer
      (.storeSeq k pos slot.data))
  | .storeSeq k pos value =>
    let slot := s.buffer (C.slot pos)
    some ((s.setSlot (C.slot pos) { slot with seq := C.lap pos }).setConsumer
      (.notifyOne k pos value))
  | .notifyOne k pos value =>                                     -- nobody to wake
    if ∃ i, ParkedOn C s (C.slot pos) i then none
    else some (s.setConsumer (.storeTail k pos value))
  | .storeTail _ pos _ => some ({ s with tail := C.succ pos }.setConsumer .idle)

def wakeStep (C : Counters κ B) (s : State κ T B P) (i : Fin P) : Option (State κ T B P) :=
  match s.consumer with
  | .notifyOne k pos value =>
    if ParkedOn C s (C.slot pos) i then unpark (s.setConsumer (.storeTail k pos value)) i
    else none
  | _ => none

def step (C : Counters κ B) (E : Element T) (s : State κ T B P) :
    Action T P → Option (State κ T B P)
  | .push i u => pushStep s i u
  | .producer i => producerStep C s i
  | .spurious i => unpark s i
  | .pop k => popStep s k
  | .consumer => consumerStep C E s
  | .wake i => wakeStep C s i

def machine (C : Counters κ B) (E : Element T) (P : Nat) :
    Machine (State κ T B P) (Action T P) where
  init := init C E P
  step := step C E

inductive Step (C : Counters κ B) (E : Element T) (s : State κ T B P) :
    Action T P → State κ T B P → Prop where
  | push (i : Fin P) (u : T) (pc : s.producer i = .idle) :
      Step C E s (.push i u) (s.setProducer i (.loadTail u s.head))
  | refuse (i : Fin P) (u : T) (curHead : κ) (pc : s.producer i = .loadTail u curHead)
      (full : C.full curHead s.tail = true) : Step C E s (.producer i) (s.setProducer i .idle)
  | pass (i : Fin P) (u : T) (curHead : κ) (pc : s.producer i = .loadTail u curHead)
      (room : C.full curHead s.tail = false) :
      Step C E s (.producer i) (s.setProducer i (.fetchAdd u curHead s.tail))
  | ticket (i : Fin P) (u : T) (curHead curTail : κ)
      (pc : s.producer i = .fetchAdd u curHead curTail) : Step C E s (.producer i)
        ({ s with head := C.succ s.head }.setProducer i (.loadSeq u s.head))
  | turn (i : Fin P) (u : T) (pos : κ) (pc : s.producer i = .loadSeq u pos)
      (now : (s.buffer (C.slot pos)).seq = pos) :
      Step C E s (.producer i) (s.setProducer i (.writeData u pos))
  | busy (i : Fin P) (u : T) (pos : κ) (pc : s.producer i = .loadSeq u pos)
      (other : (s.buffer (C.slot pos)).seq ≠ pos) : Step C E s (.producer i)
        (s.setProducer i (.wait u pos (s.buffer (C.slot pos)).seq))
  | park (i : Fin P) (u : T) (pos seqVal : κ) (pc : s.producer i = .wait u pos seqVal)
      (same : (s.buffer (C.slot pos)).seq = seqVal) :
      Step C E s (.producer i) (s.setProducer i (.parked u pos seqVal))
  | changed (i : Fin P) (u : T) (pos seqVal : κ) (pc : s.producer i = .wait u pos seqVal)
      (other : (s.buffer (C.slot pos)).seq ≠ seqVal) :
      Step C E s (.producer i) (s.setProducer i (.loadSeq u pos))
  | write (i : Fin P) (u : T) (pos : κ) (pc : s.producer i = .writeData u pos) :
      Step C E s (.producer i)
        ((s.setSlot (C.slot pos) { s.buffer (C.slot pos) with data := u }).setProducer i
          (.storeSeq u pos))
  | publish (i : Fin P) (u : T) (pos : κ) (pc : s.producer i = .storeSeq u pos) :
      Step C E s (.producer i)
        ((s.setSlot (C.slot pos) { s.buffer (C.slot pos) with seq := C.succ pos }).setProducer i
          .idle)
  | spurious (i : Fin P) (u : T) (pos seqVal : κ) (pc : s.producer i = .parked u pos seqVal) :
      Step C E s (.spurious i) (s.setProducer i (.wait u pos seqVal))
  | pop (k : Overload) (pc : s.consumer = .idle) :
      Step C E s (.pop k) (s.setConsumer (.loadSeq k s.tail))
  | empty (k : Overload) (pos : κ) (pc : s.consumer = .loadSeq k pos)
      (other : (s.buffer (C.slot pos)).seq ≠ C.succ pos) :
      Step C E s .consumer (s.setConsumer .idle)
  | ready (k : Overload) (pos : κ) (pc : s.consumer = .loadSeq k pos)
      (filled : (s.buffer (C.slot pos)).seq = C.succ pos) :
      Step C E s .consumer (s.setConsumer (.readData k pos))
  | read (k : Overload) (pos : κ) (pc : s.consumer = .readData k pos) :
      Step C E s .consumer
        ((s.setSlot (C.slot pos)
            { s.buffer (C.slot pos) with data := E.moved (s.buffer (C.slot pos)).data }).setConsumer
          (.storeSeq k pos (s.buffer (C.slot pos)).data))
  | free (k : Overload) (pos : κ) (value : T) (pc : s.consumer = .storeSeq k pos value) :
      Step C E s .consumer
        ((s.setSlot (C.slot pos) { s.buffer (C.slot pos) with seq := C.lap pos }).setConsumer
          (.notifyOne k pos value))
  | nobody (k : Overload) (pos : κ) (value : T) (pc : s.consumer = .notifyOne k pos value)
      (none : ∀ i, ParkedOn C s (C.slot pos) i = false) :
      Step C E s .consumer (s.setConsumer (.storeTail k pos value))
  | wake (i : Fin P) (k : Overload) (pos : κ) (value : T) (u : T) (ticket seqVal : κ)
      (pc : s.consumer = .notifyOne k pos value) (parked : s.producer i = .parked u ticket seqVal)
      (same : C.slot ticket = C.slot pos) : Step C E s (.wake i)
        ((s.setConsumer (.storeTail k pos value)).setProducer i (.wait u ticket seqVal))
  | advance (k : Overload) (pos : κ) (value : T) (pc : s.consumer = .storeTail k pos value) :
      Step C E s .consumer ({ s with tail := C.succ pos }.setConsumer .idle)

theorem producerStep_cases {C : Counters κ B} {E : Element T} {s t : State κ T B P} {i : Fin P}
    (eq : producerStep C s i = some t) : Step C E s (.producer i) t := by
  cases pc : s.producer i with
  | idle => simp [producerStep, pc] at eq
  | loadTail u curHead =>
    simp only [producerStep, pc] at eq
    split at eq <;> cases eq
    · rename_i full
      exact .refuse i u curHead pc full
    · rename_i room
      exact .pass i u curHead pc (by simpa using room)
  | fetchAdd u curHead curTail =>
    simp only [producerStep, pc, Option.some.injEq] at eq
    subst eq
    exact .ticket i u curHead curTail pc
  | loadSeq u pos =>
    simp only [producerStep, pc] at eq
    split at eq <;> cases eq
    · rename_i now
      exact .turn i u pos pc now
    · rename_i other
      exact .busy i u pos pc other
  | wait u pos seqVal =>
    simp only [producerStep, pc] at eq
    split at eq <;> cases eq
    · rename_i same
      exact .park i u pos seqVal pc same
    · rename_i other
      exact .changed i u pos seqVal pc other
  | parked u pos seqVal => simp [producerStep, pc] at eq
  | writeData u pos =>
    simp only [producerStep, pc, Option.some.injEq] at eq
    subst eq
    exact .write i u pos pc
  | storeSeq u pos =>
    simp only [producerStep, pc, Option.some.injEq] at eq
    subst eq
    exact .publish i u pos pc

theorem consumerStep_cases {C : Counters κ B} {E : Element T} {s t : State κ T B P}
    (eq : consumerStep C E s = some t) : Step C E s .consumer t := by
  cases pc : s.consumer with
  | idle => simp [consumerStep, pc] at eq
  | loadSeq k pos =>
    simp only [consumerStep, pc] at eq
    split at eq <;> cases eq
    · rename_i filled
      exact .ready k pos pc filled
    · rename_i other
      exact .empty k pos pc other
  | readData k pos =>
    simp only [consumerStep, pc, Option.some.injEq] at eq
    subst eq
    exact .read k pos pc
  | storeSeq k pos value =>
    simp only [consumerStep, pc, Option.some.injEq] at eq
    subst eq
    exact .free k pos value pc
  | notifyOne k pos value =>
    simp only [consumerStep, pc] at eq
    split at eq <;> cases eq
    rename_i none
    exact .nobody k pos value pc (by simpa using none)
  | storeTail k pos value =>
    simp only [consumerStep, pc, Option.some.injEq] at eq
    subst eq
    exact .advance k pos value pc

omit [DecidableEq κ] in
theorem unpark_cases {s t : State κ T B P} {i : Fin P} (eq : unpark s i = some t) :
    ∃ u pos seqVal, s.producer i = .parked u pos seqVal ∧
      t = s.setProducer i (.wait u pos seqVal) := by
  unfold unpark at eq
  split at eq <;> cases eq
  rename_i u pos seqVal pc
  exact ⟨u, pos, seqVal, pc, rfl⟩

omit [DecidableEq κ] in
theorem wakeStep_cases {C : Counters κ B} {E : Element T} {s t : State κ T B P} {i : Fin P}
    (eq : wakeStep C s i = some t) : Step C E s (.wake i) t := by
  unfold wakeStep at eq
  split at eq
  · rename_i k pos value pc
    split at eq
    · rename_i on
      obtain ⟨u, ticket, seqVal, parked, rfl⟩ := unpark_cases eq
      have parked' : s.producer i = .parked u ticket seqVal := parked
      refine .wake i k pos value u ticket seqVal pc parked' ?_
      simpa [ParkedOn, parked'] using on
    · cases eq
  · cases eq

theorem step_cases {C : Counters κ B} {E : Element T} {s t : State κ T B P} {a : Action T P}
    (eq : step C E s a = some t) : Step C E s a t := by
  cases a with
  | push i u =>
    simp only [step, pushStep] at eq
    split at eq <;> cases eq
    rename_i pc
    exact .push i u pc
  | producer i => exact producerStep_cases eq
  | spurious i =>
    obtain ⟨u, pos, seqVal, pc, rfl⟩ := unpark_cases eq
    exact .spurious i u pos seqVal pc
  | pop k =>
    simp only [step, popStep] at eq
    split at eq <;> cases eq
    rename_i pc
    exact .pop k pc
  | consumer => exact consumerStep_cases eq
  | wake i => exact wakeStep_cases eq

/-! What a step returns to the caller or hands out. -/

/-- The step is a `_head.fetch_add`: the ticket goes to producer `i` for value `u`. -/
def ticketOf (s : State κ T B P) : Action T P → Option (Fin P × T)
  | .producer i => match s.producer i with
    | .fetchAdd u _ _ => some (i, u)
    | _ => none
  | _ => none

def pushResult (C : Counters κ B) (s : State κ T B P) (i : Fin P) : Option Bool :=
  match s.producer i with
  | .loadTail _ curHead => if C.full curHead s.tail then some false else none
  | .storeSeq _ _ => some true
  | _ => none

def acceptOf (s : State κ T B P) : Action T P → Option (Fin P × T)
  | .producer i => match s.producer i with
    | .storeSeq u _ => some (i, u)
    | _ => none
  | _ => none

def popResult (C : Counters κ B) (s : State κ T B P) : Option (Option T) :=
  match s.consumer with
  | .loadSeq _ pos => if (s.buffer (C.slot pos)).seq = C.succ pos then none else some none
  | .storeTail _ _ value => some (some value)
  | _ => none

def valueOf (s : State κ T B P) : Action T P → Option T
  | .consumer => match s.consumer with
    | .storeTail _ _ value => some value
    | _ => none
  | _ => none

/-- Values in the order of their tickets, of the pushes that returned true, and of
    the successful pops. -/
def issued (h : List (State κ T B P × Action T P)) : List (Fin P × T) := Machine.log ticketOf h
def accepted (h : List (State κ T B P × Action T P)) : List (Fin P × T) := Machine.log acceptOf h
def popped (h : List (State κ T B P × Action T P)) : List T := Machine.log valueOf h

end
end Mpsc
