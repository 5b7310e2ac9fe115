import FuTrader.Lib.BoundedQueue
import FuTrader.Channel.Calls
import FuTrader.Channel.Wrap

/- With one producer MPSC is linearizable to the FIFO queue of BufSize values: a call takes
   effect at the step that ends it, and the producer never waits for a slot. -/
namespace Mpsc
open BoundedQueue (Answer fifo pushes pops pushes_append pops_append)
variable {T : Type} {B : BufSize} {P : Nat}

def Producer.running : Producer SizeT T → List (BoundedQueue.Call T)
  | .idle => []
  | .loadTail u _ | .fetchAdd u _ _ | .loadSeq u _ | .wait u _ _ | .parked u _ _
  | .writeData u _ | .storeSeq u _ => [.push u]

def Consumer.running : Consumer SizeT T → List (BoundedQueue.Call T)
  | .idle => []
  | _ => [.pop]

namespace Single

/-! The calls of a run: which begin, which return and with what. -/

def beginOf (_ : State SizeT T B P) : Action T P → Option (BoundedQueue.Call T)
  | .push _ u => some (.push u)
  | .pop _ => some .pop
  | _ => none

def endOf (s : State SizeT T B P) : Action T P → Option (BoundedQueue.Call T × Answer T)
  | .producer i => match s.producer i with
    | .loadTail u curHead =>
      if B.sizeT.full curHead s.tail then some (.push u, .pushed false) else none
    | .storeSeq u _ => some (.push u, .pushed true)
    | _ => none
  | .consumer => match s.consumer with
    | .loadSeq _ pos =>
      if (s.buffer (B.sizeT.slot pos)).seq = B.sizeT.succ pos then none
      else some (.pop, .popped none)
    | .storeTail _ _ value => some (.pop, .popped (some value))
    | _ => none
  | _ => none

theorem endOf_refuse {s : State SizeT T B P} {i : Fin P} {u : T} {curHead : SizeT}
    (pc : s.producer i = .loadTail u curHead) (full : B.sizeT.full curHead s.tail = true) :
    endOf s (.producer i) = some (.push u, .pushed false) := by
  simp only [endOf, pc]
  exact if_pos full

theorem endOf_pass {s : State SizeT T B P} {i : Fin P} {u : T} {curHead : SizeT}
    (pc : s.producer i = .loadTail u curHead) (room : B.sizeT.full curHead s.tail = false) :
    endOf s (.producer i) = none := by
  simp only [endOf, pc]
  exact if_neg (Bool.eq_false_iff.mp room)

theorem endOf_empty {s : State SizeT T B P} {k : Overload} {pos : SizeT}
    (pc : s.consumer = .loadSeq k pos)
    (other : (s.buffer (B.sizeT.slot pos)).seq ≠ B.sizeT.succ pos) :
    endOf s .consumer = some (.pop, .popped none) := by
  simp only [endOf, pc]
  exact if_neg other

theorem endOf_ready {s : State SizeT T B P} {k : Overload} {pos : SizeT}
    (pc : s.consumer = .loadSeq k pos)
    (filled : (s.buffer (B.sizeT.slot pos)).seq = B.sizeT.succ pos) :
    endOf s .consumer = none := by
  simp only [endOf, pc]
  exact if_pos filled

def begun (h : List (State SizeT T B P × Action T P)) : List (BoundedQueue.Call T) :=
  Machine.log beginOf h
def ended (h : List (State SizeT T B P × Action T P)) : List (BoundedQueue.Call T × Answer T) :=
  Machine.log endOf h

variable {w r : Nat} {items : List T} {s : State SizeT T B 1}

def held (p : Producer SizeT T) : Nat := p.ticket.toList.length

def freed : Consumer SizeT T → Nat
  | .notifyOne _ _ _ | .storeTail _ _ _ => 1
  | _ => 0

def taken : Consumer SizeT T → Bool
  | .storeSeq _ _ _ | .notifyOne _ _ _ | .storeTail _ _ _ => true
  | _ => false

def ProducerOk (w r : Nat) (buffer : Fin B.val → Slot SizeT T) : Producer SizeT T → Prop
  | .idle => True
  | .loadTail _ curHead => curHead = BitVec.ofNat 64 w
  | .fetchAdd _ _ _ => w < r + B.val
  | .loadSeq _ pos | .writeData _ pos => pos = BitVec.ofNat 64 w ∧ w < r + B.val
  | .wait _ _ _ | .parked _ _ _ => False
  | .storeSeq u pos => pos = BitVec.ofNat 64 w ∧ w < r + B.val ∧
    (buffer (TicketRing.slot B.val w)).data = u

def ConsumerOk (r : Nat) (items : List T) : Consumer SizeT T → Prop
  | .idle => True
  | .loadSeq _ pos => pos = BitVec.ofNat 64 r
  | .readData _ pos => pos = BitVec.ofNat 64 r ∧ items ≠ []
  | .storeSeq _ pos value | .notifyOne _ pos value | .storeTail _ pos value =>
    pos = BitVec.ofNat 64 r ∧ items.head? = some value

/-- `w` values were published, `r` taken out, and `items` are in the queue. -/
structure Linked (w r : Nat) (items : List T) (s : State SizeT T B 1) : Prop where
  head : s.head = BitVec.ofNat 64 (w + held (s.producer 0))
  tail : s.tail = BitVec.ofNat 64 r
  count : w = r + items.length
  fits : items.length ≤ B.val
  filled : ∀ n, r + freed s.consumer ≤ n → n < w →
    (s.buffer (TicketRing.slot B.val n)).seq = BitVec.ofNat 64 (n + 1)
  free : ∀ n, w ≤ n → n < r + freed s.consumer + B.val →
    (s.buffer (TicketRing.slot B.val n)).seq = BitVec.ofNat 64 n
  contents : ∀ j (less : j < items.length), (j = 0 → taken s.consumer = false) →
    (s.buffer (TicketRing.slot B.val (r + j))).data = items[j]
  producer : ProducerOk w r s.buffer (s.producer 0)
  consumer : ConsumerOk r items s.consumer

def Holds (s : State SizeT T B 1) (q : BoundedQueue T B.val) : Prop :=
  ∃ w r, Linked w r q.items s

theorem ProducerOk.frame {r' : Nat} {buffer after : Fin B.val → Slot SizeT T}
    {p : Producer SizeT T} (ok : ProducerOk w r buffer p) (more : r ≤ r')
    (same : w < r + B.val → (after (TicketRing.slot B.val w)).data =
      (buffer (TicketRing.slot B.val w)).data) : ProducerOk w r' after p := by
  cases p with
  | idle => trivial
  | loadTail u curHead => exact ok
  | fetchAdd u curHead curTail => exact Nat.lt_of_lt_of_le ok (by omega)
  | loadSeq u pos | writeData u pos => exact ⟨ok.1, Nat.lt_of_lt_of_le ok.2 (by omega)⟩
  | wait u pos seqVal | parked u pos seqVal => exact ok
  | storeSeq u pos =>
    obtain ⟨same_pos, room, written⟩ := ok
    exact ⟨same_pos, by omega, (same room).trans written⟩

theorem Linked.full_iff (linked : Linked w r items s) {curHead : SizeT}
    (loaded : curHead = BitVec.ofNat 64 w) :
    B.sizeT.full curHead s.tail = decide (B.val ≤ items.length) := by
  have half := B.le_half
  have count := linked.count
  have fits := linked.fits
  rw [loaded, linked.tail, sizeT_full (by omega) (by omega)]
  congr 2
  omega

theorem Linked.filled_iff (linked : Linked w r items s) {k : Overload} {pos : SizeT}
    (pc : s.consumer = .loadSeq k pos) :
    (s.buffer (B.sizeT.slot pos)).seq = B.sizeT.succ pos ↔ items ≠ [] := by
  have ok := linked.consumer
  have filled := linked.filled r
  have free := linked.free r
  have count := linked.count
  have size := Nat.pos_of_neZero B.val
  rw [pc] at ok filled free
  obtain rfl : pos = BitVec.ofNat 64 r := ok
  simp only [freed, Nat.add_zero, Nat.le_refl, forall_const] at filled free
  rw [sizeT_slot, sizeT_succ]
  constructor
  · rintro now rfl
    rw [free (by simp [count]) (by omega), Counter.ofNat_eq_iff (by omega) (by omega)] at now
    omega
  · intro some
    have more := List.length_pos_iff.mpr some
    exact filled (by omega)

/-! One lemma for each kind of step. -/

theorem Linked.setProducer (linked : Linked w r items s) {p : Producer SizeT T}
    (ok : ProducerOk w r s.buffer p) (same : held p = held (s.producer 0)) :
    Linked w r items (s.setProducer 0 p) :=
  { linked with
    head := by simpa [same] using linked.head
    producer := by simpa using ok }

theorem Linked.setConsumer (linked : Linked w r items s) {c : Consumer SizeT T}
    (ok : ConsumerOk r items c) (sameFreed : freed c = freed s.consumer)
    (sameTaken : taken c = taken s.consumer) : Linked w r items (s.setConsumer c) :=
  { linked with
    filled := by simpa [sameFreed] using linked.filled
    free := by simpa [sameFreed] using linked.free
    contents := by simpa [sameTaken] using linked.contents
    consumer := ok }

theorem Linked.ticket (linked : Linked w r items s) {u : T} {curHead curTail : SizeT}
    (pc : s.producer 0 = .fetchAdd u curHead curTail) : Linked w r items
      ({ s with head := B.sizeT.succ s.head }.setProducer 0 (.loadSeq u s.head)) := by
  have ok := linked.producer
  have head := linked.head
  rw [pc] at ok head
  have now : s.head = BitVec.ofNat 64 w := head
  refine { linked with head := ?_, producer := ?_ }
  · simp [now, held, Producer.ticket]
  · simpa using ⟨now, ok⟩

theorem Linked.turn (linked : Linked w r items s) (room : w < r + B.val) :
    (s.buffer (TicketRing.slot B.val w)).seq = BitVec.ofNat 64 w :=
  linked.free w (Nat.le_refl w) (by omega)

theorem Linked.write (linked : Linked w r items s) {u : T} {pos : SizeT}
    (pc : s.producer 0 = .writeData u pos) : Linked w r items
      ((s.setSlot (B.sizeT.slot pos) { s.buffer (B.sizeT.slot pos) with data := u }).setProducer 0
        (.storeSeq u pos)) := by
  have ok := linked.producer
  have head := linked.head
  rw [pc] at ok head
  obtain ⟨rfl, room⟩ := ok
  have count := linked.count
  have seqs : ∀ n, (Function.update s.buffer (TicketRing.slot B.val w)
      { s.buffer (TicketRing.slot B.val w) with data := u } (TicketRing.slot B.val n)).seq =
        (s.buffer (TicketRing.slot B.val n)).seq := by
    intro n
    by_cases here : TicketRing.slot B.val n = TicketRing.slot B.val w <;> simp [here]
  rw [sizeT_slot]
  refine { linked with head := ?_, filled := ?_, free := ?_, contents := ?_, producer := ?_ }
  · simpa [held, Producer.ticket] using head
  · intro n low less
    exact (seqs n).trans (linked.filled n low less)
  · intro n low less
    exact (seqs n).trans (linked.free n low less)
  · intro j less kept
    have apart : TicketRing.slot B.val (r + j) ≠ TicketRing.slot B.val w :=
      (TicketRing.slot_apart (by omega) (by omega)).symm
    simpa [apart] using linked.contents j less kept
  · simpa using ⟨rfl, room, by simp⟩

theorem Linked.freed_le (linked : Linked w r items s) : r + freed s.consumer ≤ w := by
  have ok := linked.consumer
  have count := linked.count
  cases pc : s.consumer with
  | notifyOne k pos value | storeTail k pos value =>
    rw [pc] at ok
    obtain ⟨rest, rfl⟩ := List.head?_eq_some_iff.mp ok.2
    simp only [List.length_cons] at count
    simp only [freed]
    omega
  | _ =>
    simp only [freed]
    omega

theorem Linked.publish (linked : Linked w r items s) {u : T} {pos : SizeT}
    (pc : s.producer 0 = .storeSeq u pos) : items.length < B.val ∧
      Linked (w + 1) r (items ++ [u])
        ((s.setSlot (B.sizeT.slot pos)
          { s.buffer (B.sizeT.slot pos) with seq := B.sizeT.succ pos }).setProducer 0 .idle) := by
  have ok := linked.producer
  have head := linked.head
  rw [pc] at ok head
  obtain ⟨rfl, room, written⟩ := ok
  have count := linked.count
  have below := linked.freed_le
  refine ⟨by omega, ?_⟩
  rw [sizeT_slot, sizeT_succ]
  constructor
  · simpa [held, Producer.ticket] using head
  · exact linked.tail
  · simp [count, Nat.add_assoc]
  · rw [List.length_append, List.length_singleton]
    omega
  · intro n low less
    change r + freed s.consumer ≤ n at low
    rcases Nat.lt_succ_iff_lt_or_eq.mp less with before | rfl
    · have apart : TicketRing.slot B.val n ≠ TicketRing.slot B.val w :=
        (TicketRing.slot_apart before (by omega)).symm
      simpa [apart] using linked.filled n low before
    · simp
  · intro n low less
    change n < r + freed s.consumer + B.val at less
    have apart : TicketRing.slot B.val n ≠ TicketRing.slot B.val w :=
      TicketRing.slot_apart (by omega) (by omega)
    simpa [apart] using linked.free n (by omega) less
  · intro j less kept
    rw [List.length_append, List.length_singleton] at less
    rcases Nat.lt_succ_iff_lt_or_eq.mp less with before | rfl
    · have apart : TicketRing.slot B.val (r + j) ≠ TicketRing.slot B.val w :=
        (TicketRing.slot_apart (by omega) (by omega)).symm
      simpa [apart, before] using linked.contents j before kept
    · simp [← count, written]
  · trivial
  · have cok := linked.consumer
    change ConsumerOk r (items ++ [u]) s.consumer
    cases pc : s.consumer with
    | readData k pos =>
      rw [pc] at cok
      exact ⟨cok.1, by simp⟩
    | storeSeq k pos value | notifyOne k pos value | storeTail k pos value =>
      rw [pc] at cok
      exact ⟨cok.1, by simp [cok.2]⟩
    | loadSeq k pos =>
      rw [pc] at cok
      exact cok
    | idle => trivial

theorem Linked.read (linked : Linked w r items s) {k : Overload} {pos : SizeT}
    (pc : s.consumer = .readData k pos) (moved : T) : Linked w r items
      ((s.setSlot (B.sizeT.slot pos) { s.buffer (B.sizeT.slot pos) with data := moved }).setConsumer
        (.storeSeq k pos (s.buffer (B.sizeT.slot pos)).data)) := by
  have ok := linked.consumer
  have contents := linked.contents
  have filled := linked.filled
  have free := linked.free
  rw [pc] at ok contents filled free
  obtain ⟨rfl, some⟩ := ok
  have count := linked.count
  have fits := linked.fits
  have more := List.length_pos_iff.mpr some
  have oldest := contents 0 more fun _ => rfl
  have seqs : ∀ n, (Function.update s.buffer (TicketRing.slot B.val r)
      { s.buffer (TicketRing.slot B.val r) with data := moved } (TicketRing.slot B.val n)).seq =
        (s.buffer (TicketRing.slot B.val n)).seq := by
    intro n
    by_cases here : TicketRing.slot B.val n = TicketRing.slot B.val r <;> simp [here]
  rw [sizeT_slot]
  refine { linked with
    filled := ?_, free := ?_, contents := ?_, producer := ?_, consumer := ⟨rfl, ?_⟩ }
  · intro n low less
    exact (seqs n).trans (filled n low less)
  · intro n low less
    exact (seqs n).trans (free n low less)
  · intro j less kept
    have later : j ≠ 0 := fun first => by simpa [taken] using kept first
    have apart : TicketRing.slot B.val (r + j) ≠ TicketRing.slot B.val r :=
      TicketRing.slot_apart (by omega) (by omega)
    simpa [apart] using contents j less fun _ => rfl
  · apply linked.producer.frame (Nat.le_refl r)
    intro room
    have apart := TicketRing.slot_apart (show r < w by omega) room
    simp [apart]
  · rw [List.head?_eq_getElem?, List.getElem?_eq_getElem more, ← oldest, Nat.add_zero]

/-- Setting the oldest slot free gives it the ticket of the next lap. -/
theorem Linked.release (linked : Linked w r items s) {k : Overload} {pos : SizeT} {value : T}
    (pc : s.consumer = .storeSeq k pos value) : Linked w r items
      ((s.setSlot (B.sizeT.slot pos)
        { s.buffer (B.sizeT.slot pos) with seq := B.sizeT.lap pos }).setConsumer
          (.notifyOne k pos value)) := by
  have ok := linked.consumer
  have contents := linked.contents
  have filled := linked.filled
  have free := linked.free
  rw [pc] at ok contents filled free
  obtain ⟨rfl, oldest⟩ := ok
  obtain ⟨rest, rfl⟩ := List.head?_eq_some_iff.mp oldest
  have count := linked.count
  have fits := linked.fits
  simp only [List.length_cons] at count fits
  rw [sizeT_slot, sizeT_lap]
  refine { linked with
    filled := ?_, free := ?_, contents := ?_, producer := ?_, consumer := ⟨rfl, oldest⟩ }
  · intro n low less
    change r + 1 ≤ n at low
    have apart : TicketRing.slot B.val n ≠ TicketRing.slot B.val r :=
      TicketRing.slot_apart (by omega) (by omega)
    simpa [apart] using filled n (by simp only [freed]; omega) less
  · intro n low less
    change n < r + 1 + B.val at less
    rcases Nat.lt_or_ge n (r + B.val) with before | last
    · have apart : TicketRing.slot B.val n ≠ TicketRing.slot B.val r :=
        TicketRing.slot_apart (by omega) before
      simpa [apart] using free n low (by simp only [freed]; omega)
    · obtain rfl : n = r + B.val := by omega
      have same : TicketRing.slot B.val (r + B.val) = TicketRing.slot B.val r :=
        TicketRing.slot_eq_iff.mpr (Nat.add_mod_right r B.val)
      simp [same]
  · intro j less kept
    have later : j ≠ 0 := fun first => by simpa [taken] using kept first
    have apart : TicketRing.slot B.val (r + j) ≠ TicketRing.slot B.val r :=
      TicketRing.slot_apart (by omega) (by simp only [List.length_cons] at less; omega)
    simpa [apart] using contents j less fun first => absurd first later
  · apply linked.producer.frame (Nat.le_refl r)
    intro room
    have apart := TicketRing.slot_apart (show r < w by omega) room
    simp [apart]

theorem Linked.advance (linked : Linked w r items s) {k : Overload} {pos : SizeT} {value : T}
    (pc : s.consumer = .storeTail k pos value) : ∃ rest, items = value :: rest ∧
      Linked w (r + 1) rest ({ s with tail := B.sizeT.succ pos }.setConsumer .idle) := by
  have ok := linked.consumer
  have contents := linked.contents
  have filled := linked.filled
  have free := linked.free
  rw [pc] at ok contents filled free
  obtain ⟨rfl, oldest⟩ := ok
  obtain ⟨rest, rfl⟩ := List.head?_eq_some_iff.mp oldest
  have count := linked.count
  have fits := linked.fits
  simp only [List.length_cons] at count fits
  refine ⟨rest, rfl, ?_⟩
  constructor
  · exact linked.head
  · exact sizeT_succ (B := B) r
  · omega
  · omega
  · exact filled
  · exact free
  · intro j less _
    have later := contents (j + 1) (by simpa using less) (by simp)
    rw [show r + 1 + j = r + (j + 1) by omega]
    simpa using later
  · exact linked.producer.frame (Nat.le_succ r) fun _ => rfl
  · trivial

theorem Holds.step {E : Element T} {t : State SizeT T B 1} {a : Action T 1}
    {q : BoundedQueue T B.val} (holds : Holds s q) (step : Step B.sizeT E s a t) :
    ∃ q', (fifo T B.val).Takes q (endOf s a) q' ∧ Holds t q' := by
  obtain ⟨w, r, linked⟩ := holds
  have pok := linked.producer
  have cok := linked.consumer
  cases step with
  | push i u pc =>
    obtain rfl : i = 0 := Subsingleton.elim i 0
    have head := linked.head
    rw [pc] at head
    exact ⟨q, rfl, w, r, linked.setProducer head (by simp [pc, held, Producer.ticket])⟩
  | refuse i u curHead pc full =>
    obtain rfl : i = 0 := Subsingleton.elim i 0
    rw [pc] at pok
    refine ⟨q, ?_, w, r, linked.setProducer trivial (by simp [pc, held, Producer.ticket])⟩
    rw [endOf_refuse pc full]
    rw [linked.full_iff pok] at full
    exact BoundedQueue.push_full u (of_decide_eq_true full)
  | pass i u curHead pc room =>
    obtain rfl : i = 0 := Subsingleton.elim i 0
    rw [pc] at pok
    have count := linked.count
    have fewer := room
    rw [linked.full_iff pok, decide_eq_false_iff_not] at fewer
    refine ⟨q, ?_, w, r, linked.setProducer (show w < r + B.val by omega)
      (by simp [pc, held, Producer.ticket])⟩
    rw [endOf_pass pc room]
    rfl
  | ticket i u curHead curTail pc =>
    obtain rfl : i = 0 := Subsingleton.elim i 0
    refine ⟨q, ?_, w, r, linked.ticket pc⟩
    simp only [endOf, pc]
    rfl
  | turn i u pos pc now =>
    obtain rfl : i = 0 := Subsingleton.elim i 0
    rw [pc] at pok
    refine ⟨q, ?_, w, r, linked.setProducer pok (by simp [pc, held, Producer.ticket])⟩
    simp only [endOf, pc]
    rfl
  | busy i u pos pc other =>
    obtain rfl : i = 0 := Subsingleton.elim i 0
    rw [pc] at pok
    obtain ⟨rfl, room⟩ := pok
    rw [sizeT_slot] at other
    exact absurd (linked.turn room) other
  | park i u pos seqVal pc same | changed i u pos seqVal pc other =>
    obtain rfl : i = 0 := Subsingleton.elim i 0
    rw [pc] at pok
    exact absurd pok id
  | spurious i u pos seqVal pc =>
    obtain rfl : i = 0 := Subsingleton.elim i 0
    rw [pc] at pok
    exact absurd pok id
  | write i u pos pc =>
    obtain rfl : i = 0 := Subsingleton.elim i 0
    refine ⟨q, ?_, w, r, linked.write pc⟩
    simp only [endOf, pc]
    rfl
  | publish i u pos pc =>
    obtain rfl : i = 0 := Subsingleton.elim i 0
    obtain ⟨room, next⟩ := linked.publish pc
    refine ⟨⟨q.items ++ [u], BoundedQueue.push_fits u room⟩, ?_, w + 1, r, next⟩
    simp only [endOf, pc]
    exact BoundedQueue.push_room u room
  | pop k pc =>
    exact ⟨q, rfl, w, r, linked.setConsumer linked.tail (by simp [pc, freed])
      (by simp [pc, taken])⟩
  | empty k pos pc other =>
    have nothing := mt (linked.filled_iff pc).mpr other
    refine ⟨q, ?_, w, r, linked.setConsumer trivial (by simp [pc, freed]) (by simp [pc, taken])⟩
    rw [endOf_empty pc other]
    exact BoundedQueue.pop_empty (Decidable.not_not.mp nothing)
  | ready k pos pc filled =>
    have some := (linked.filled_iff pc).mp filled
    rw [pc] at cok
    refine ⟨q, ?_, w, r, linked.setConsumer ⟨cok, some⟩ (by simp [pc, freed])
      (by simp [pc, taken])⟩
    rw [endOf_ready pc filled]
    rfl
  | read k pos pc =>
    refine ⟨q, ?_, w, r, linked.read pc _⟩
    simp only [endOf, pc]
    rfl
  | free k pos value pc =>
    refine ⟨q, ?_, w, r, linked.release pc⟩
    simp only [endOf, pc]
    rfl
  | nobody k pos value pc none =>
    rw [pc] at cok
    refine ⟨q, ?_, w, r, linked.setConsumer cok (by simp [pc, freed]) (by simp [pc, taken])⟩
    simp only [endOf, pc]
    rfl
  | wake i k pos value u ticket seqVal pc parked same =>
    obtain rfl : i = 0 := Subsingleton.elim i 0
    rw [parked] at pok
    exact absurd pok id
  | advance k pos value pc =>
    obtain ⟨rest, oldest, next⟩ := linked.advance pc
    obtain ⟨fits, pop⟩ := BoundedQueue.pop_oldest oldest
    refine ⟨⟨rest, fits⟩, ?_, w, r + 1, next⟩
    simp only [endOf, pc]
    exact pop

theorem holds_init (E : Element T) :
    Holds (init B.sizeT E 1) (fifo T B.val).init := by
  refine ⟨0, 0, rfl, rfl, rfl, Nat.zero_le _, ?_, ?_, ?_, trivial, trivial⟩
  · exact fun n _ less => absurd less (Nat.not_lt_zero n)
  · intro n _ less
    simp only [init, freed, Nat.zero_add] at less ⊢
    exact congrArg (BitVec.ofNat 64) (Nat.mod_eq_of_lt less)
  · exact fun j less => absurd less (Nat.not_lt_zero j)

theorem calls_step {E : Element T} {s t : State SizeT T B 1} {a : Action T 1}
    (step : Step B.sizeT E s a t) :
    (s.producer 0).running ++ pushes (beginOf s a).toList =
        pushes ((endOf s a).toList.map Prod.fst) ++ (t.producer 0).running ∧
      s.consumer.running ++ pops (beginOf s a).toList =
        pops ((endOf s a).toList.map Prod.fst) ++ t.consumer.running := by
  cases step with
  | refuse i u curHead pc full =>
    obtain rfl : i = 0 := Subsingleton.elim i 0
    simp [beginOf, endOf_refuse pc full, pc, Producer.running]
  | pass i u curHead pc room =>
    obtain rfl : i = 0 := Subsingleton.elim i 0
    simp [beginOf, endOf_pass pc room, pc, Producer.running]
  | empty k pos pc other => simp [beginOf, endOf_empty pc other, pc, Consumer.running]
  | ready k pos pc filled => simp [beginOf, endOf_ready pc filled, pc, Consumer.running]
  | push i u pc | ticket i u _ _ pc | turn i u _ pc _ | busy i u _ pc _ | park i u _ _ pc _
  | changed i u _ _ pc _ | spurious i u _ _ pc | write i u _ pc | publish i u _ pc =>
    obtain rfl : i = 0 := Subsingleton.elim i 0
    simp [beginOf, endOf, pc, Producer.running]
  | pop k pc | read k _ pc | free k _ _ pc | nobody k _ _ pc _ | advance k _ _ pc =>
    simp [beginOf, endOf, pc, Consumer.running]
  | wake i k _ _ u _ _ pc parked _ =>
    obtain rfl : i = 0 := Subsingleton.elim i 0
    simp [beginOf, endOf, pc, parked, Producer.running, Consumer.running]

theorem calls_run {E : Element T} {h : List (State SizeT T B 1 × Action T 1)}
    {s : State SizeT T B 1} (run : (machine B.sizeT E 1).Run h s) :
    pushes (begun h) = pushes ((ended h).map Prod.fst) ++ (s.producer 0).running ∧
      pops (begun h) = pops ((ended h).map Prod.fst) ++ s.consumer.running := by
  apply Machine.Run.invariant (M := machine B.sizeT E 1) (fun h s =>
    pushes (begun h) = pushes ((ended h).map Prod.fst) ++ (s.producer 0).running ∧
      pops (begun h) = pops ((ended h).map Prod.fst) ++ s.consumer.running) ⟨rfl, rfl⟩ ?_ run
  intro h s a t _ ⟨pushed, popped⟩ step
  obtain ⟨push, pop⟩ := calls_step (step_cases step)
  rw [begun, ended, Machine.log_snoc, Machine.log_snoc, ← begun, ← ended, List.map_append,
    pushes_append, pops_append, pushes_append, pops_append, pushed, popped, List.append_assoc,
    List.append_assoc, List.append_assoc, List.append_assoc, push, pop]
  exact ⟨rfl, rfl⟩

theorem values_step {E : Element T} {s t : State SizeT T B 1} {a : Action T 1}
    {q r : BoundedQueue T B.val} (takes : (fifo T B.val).Takes q (endOf s a) r)
    (step : Step B.sizeT E s a t) :
    q.items ++ (acceptOf s a).toList.map Prod.snd = (valueOf s a).toList ++ r.items := by
  cases step with
  | refuse i u curHead pc full =>
    rw [endOf_refuse pc full] at takes
    rw [BoundedQueue.push_items takes]
    simp [acceptOf, valueOf, pc]
  | pass i u curHead pc room =>
    rw [endOf_pass pc room] at takes
    obtain rfl : r = q := takes
    simp [acceptOf, valueOf, pc]
  | publish i u pos pc =>
    simp only [endOf, pc] at takes
    rw [BoundedQueue.push_items takes]
    simp [acceptOf, valueOf, pc]
  | empty k pos pc other =>
    rw [endOf_empty pc other] at takes
    rw [BoundedQueue.pop_items takes]
    simp [acceptOf, valueOf, pc]
  | ready k pos pc filled =>
    rw [endOf_ready pc filled] at takes
    obtain rfl : r = q := takes
    simp [acceptOf, valueOf, pc]
  | advance k pos value pc =>
    simp only [endOf, pc] at takes
    rw [BoundedQueue.pop_items takes]
    simp [acceptOf, valueOf, pc]
  | _ =>
    simp only [endOf, *] at takes
    obtain rfl : r = q := takes
    simp [acceptOf, valueOf, *]

theorem values_run {E : Element T} {h : List (State SizeT T B 1 × Action T 1)}
    {s : State SizeT T B 1} (run : (machine B.sizeT E 1).Run h s) :
    ∃ q, Holds s q ∧ (accepted h).map Prod.snd = popped h ++ q.items := by
  apply Machine.Run.invariant (M := machine B.sizeT E 1) (fun h s =>
    ∃ q, Holds s q ∧ (accepted h).map Prod.snd = popped h ++ q.items)
    ⟨_, holds_init E, rfl⟩ ?_ run
  rintro h s a t _ ⟨q, holds, same⟩ step
  have step := step_cases step
  obtain ⟨r, takes, next⟩ := holds.step step
  have moved := values_step takes step
  refine ⟨r, next, ?_⟩
  rw [accepted, popped, Machine.log_snoc, Machine.log_snoc, ← accepted, ← popped,
    List.map_append, same, List.append_assoc, List.append_assoc, moved]

/-- A single producer gets from MPSC what it gets from SPSC: the answers of the FIFO queue of
    BufSize values, each call ended once or still running, and no waiting for a slot. -/
theorem queue_linearizable {E : Element T} {h : List (State SizeT T B 1 × Action T 1)}
    {s : State SizeT T B 1} (run : (machine B.sizeT E 1).Run h s) :
    (fifo T B.val).answers (fifo T B.val).init ((ended h).map Prod.fst) =
        (ended h).map Prod.snd ∧
      pushes (begun h) = pushes ((ended h).map Prod.fst) ++ (s.producer 0).running ∧
      pops (begun h) = pops ((ended h).map Prod.fst) ++ s.consumer.running ∧
      ∀ u pos seqVal,
        s.producer 0 ≠ .wait u pos seqVal ∧ s.producer 0 ≠ .parked u pos seqVal := by
  obtain ⟨answered, w, r, linked⟩ := (fifo T B.val).linearizes endOf Holds
    (holds_init E) (fun _ _ _ _ holds step => holds.step (step_cases step)) run
  obtain ⟨pushed, popped⟩ := calls_run run
  refine ⟨answered, pushed, popped, fun u pos seqVal => ⟨fun pc => ?_, fun pc => ?_⟩⟩
  · simpa [pc, ProducerOk] using linked.producer
  · simpa [pc, ProducerOk] using linked.producer

def overlapping : List (Action Nat 1) :=
  [.push 0 5, .producer 0, .producer 0, .pop .optional, .producer 0, .producer 0, .consumer,
    .producer 0] ++ wholePush 0 6 ++
  [.pop .reference, .consumer, .consumer, .push 0 7, .producer 0, .consumer, .consumer, .consumer]

theorem overlapping_linearizable :
    let M := machine twoSlots.sizeT ⟨0, id⟩ 1
    (ended (M.steps M.init overlapping)).map Prod.snd =
        [.popped none, .pushed true, .pushed true, .pushed false, .popped (some 5)] ∧
      (fifo Nat twoSlots.val).answers (fifo Nat twoSlots.val).init
          ((ended (M.steps M.init overlapping)).map Prod.fst) =
        (ended (M.steps M.init overlapping)).map Prod.snd :=
  ⟨by decide, (queue_linearizable (Machine.run_get (by decide))).1⟩

end Single
end Mpsc
