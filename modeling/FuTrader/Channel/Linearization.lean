import FuTrader.Channel.Spsc
import FuTrader.Channel.Wrap

/- SPSC is linearizable to the FIFO queue of BufSize values: a call takes effect at
   the step that ends it. _write_pos and _read_pos are images of the numbers of values
   put in and taken out, which are never more than BufSize apart. -/
namespace Spsc
open Mpsc (BufSize SizeT Element Overload)
open BoundedQueue (Call Answer fifo pushes pops pushes_append pops_append)
variable {T : Type} {B : BufSize}

def ProducerOk (w r : Nat) (buffer : Fin B.val → T) : Producer T → Prop
  | .idle => True
  | .loadReadPos _ w' => w' = BitVec.ofNat 64 w
  | .writeData _ w' => w' = BitVec.ofNat 64 w ∧ w < r + B.val
  | .storeWritePos u w' =>
    w' = BitVec.ofNat 64 w ∧ w < r + B.val ∧ buffer (TicketRing.slot B.val w) = u

def ConsumerOk (r : Nat) (items : List T) : Consumer T → Prop
  | .idle => True
  | .loadWritePos _ r' => r' = BitVec.ofNat 64 r
  | .readData _ r' => r' = BitVec.ofNat 64 r ∧ items ≠ []
  | .storeReadPos _ r' value => r' = BitVec.ofNat 64 r ∧ items.head? = some value

def Consumer.taken : Consumer T → Bool
  | .storeReadPos _ _ _ => true
  | _ => false

/-- `w` values were put in, `r` taken out, and `items` are in the buffer. -/
structure Linked (w r : Nat) (items : List T) (s : State T B) : Prop where
  writePos : s.writePos = BitVec.ofNat 64 w
  readPos : s.readPos = BitVec.ofNat 64 r
  count : w = r + items.length
  fits : items.length ≤ B.val
  contents : ∀ j (less : j < items.length), (j = 0 → s.consumer.taken = false) →
    s.buffer (TicketRing.slot B.val (r + j)) = items[j]
  producer : ProducerOk w r s.buffer s.producer
  consumer : ConsumerOk r items s.consumer

def Holds (s : State T B) (q : BoundedQueue T B.val) : Prop := ∃ w r, Linked w r q.items s

theorem ProducerOk.frame {w r r' : Nat} {buffer after : Fin B.val → T} {p : Producer T}
    (ok : ProducerOk w r buffer p) (more : r ≤ r') (same : w < r + B.val →
      after (TicketRing.slot B.val w) = buffer (TicketRing.slot B.val w)) :
    ProducerOk w r' after p := by
  cases p with
  | idle => trivial
  | loadReadPos u w' => exact ok
  | writeData u w' =>
    obtain ⟨rfl, room⟩ := ok
    exact ⟨rfl, by omega⟩
  | storeWritePos u w' =>
    obtain ⟨rfl, room, written⟩ := ok
    exact ⟨rfl, by omega, (same room).trans written⟩

theorem Linked.occupied {w r : Nat} {items : List T} {s : State T B}
    (linked : Linked w r items s) :
    (BitVec.ofNat 64 w - BitVec.ofNat 64 r).toNat = items.length := by
  have half := B.le_half
  have count := linked.count
  have fits := linked.fits
  rw [Counter.toNat_sub (by omega) (by omega)]
  omega

theorem Linked.empty_iff {w r : Nat} {items : List T} {s : State T B}
    (linked : Linked w r items s) : BitVec.ofNat 64 w - BitVec.ofNat 64 r = 0 ↔ items = [] := by
  rw [← BitVec.toNat_inj, linked.occupied]
  exact List.length_eq_zero_iff

theorem Linked.apart {w r : Nat} {items : List T} {s : State T B} (linked : Linked w r items s)
    {u : T} {w' r' : SizeT} {k : Overload} (writes : s.producer = .writeData u w')
    (reads : s.consumer = .readData k r') : B.sizeT.slot w' ≠ B.sizeT.slot r' := by
  have pok := linked.producer
  have cok := linked.consumer
  rw [writes] at pok
  rw [reads] at cok
  obtain ⟨rfl, room⟩ := pok
  obtain ⟨rfl, some⟩ := cok
  have count := linked.count
  have more := List.length_pos_iff.mpr some
  rw [Mpsc.sizeT_slot, Mpsc.sizeT_slot]
  exact TicketRing.slot_apart (by omega) room

/-! One lemma for each kind of step. -/

theorem Linked.setProducer {w r : Nat} {items : List T} {s : State T B}
    (linked : Linked w r items s) {p : Producer T} (ok : ProducerOk w r s.buffer p) :
    Linked w r items { s with producer := p } :=
  { linked with producer := ok }

theorem Linked.setConsumer {w r : Nat} {items : List T} {s : State T B}
    (linked : Linked w r items s) {c : Consumer T} (ok : ConsumerOk r items c)
    (untaken : s.consumer.taken = false) : Linked w r items { s with consumer := c } :=
  { linked with
    contents := fun j less _ => linked.contents j less fun _ => untaken
    consumer := ok }

theorem Linked.write {w r : Nat} {items : List T} {s : State T B} (linked : Linked w r items s)
    {u : T} {w' : SizeT} (pc : s.producer = .writeData u w') : Linked w r items { s with
      buffer := Function.update s.buffer (B.sizeT.slot w') u
      producer := .storeWritePos u w' } := by
  have ok := linked.producer
  rw [pc] at ok
  obtain ⟨rfl, room⟩ := ok
  have count := linked.count
  refine { linked with contents := ?_, producer := ⟨rfl, room, by simp⟩ }
  intro j less kept
  have apart : TicketRing.slot B.val (r + j) ≠ TicketRing.slot B.val w :=
    (TicketRing.slot_apart (by omega) (by omega)).symm
  simpa [apart] using linked.contents j less kept

theorem Linked.publish {w r : Nat} {items : List T} {s : State T B} (linked : Linked w r items s)
    {u : T} {w' : SizeT} (pc : s.producer = .storeWritePos u w') :
    items.length < B.val ∧
      Linked (w + 1) r (items ++ [u]) { s with writePos := w' + 1, producer := .idle } := by
  have ok := linked.producer
  rw [pc] at ok
  obtain ⟨rfl, room, written⟩ := ok
  have count := linked.count
  refine ⟨by omega, ?_⟩
  constructor
  · exact Mpsc.sizeT_succ (B := B) w
  · exact linked.readPos
  · simp [count, Nat.add_assoc]
  · simp only [List.length_append, List.length_singleton]
    omega
  · intro j less kept
    by_cases old : j < items.length
    · rw [List.getElem_append_left old]
      exact linked.contents j old kept
    · have last : j = items.length := by
        simp only [List.length_append, List.length_singleton] at less
        omega
      subst last
      simpa [← count] using written
  · trivial
  · have cok := linked.consumer
    cases at_ : s.consumer <;> simp_all [ConsumerOk]

theorem Linked.read {w r : Nat} {items : List T} {s : State T B} (linked : Linked w r items s)
    {k : Overload} {r' : SizeT} (pc : s.consumer = .readData k r') (rest : T) :
    Linked w r items { s with
      buffer := Function.update s.buffer (B.sizeT.slot r') rest
      consumer := .storeReadPos k r' (s.buffer (B.sizeT.slot r')) } := by
  have ok := linked.consumer
  rw [pc] at ok
  obtain ⟨rfl, some⟩ := ok
  have count := linked.count
  have fits := linked.fits
  have more := List.length_pos_iff.mpr some
  have oldest := linked.contents 0 more (by simp [pc, Consumer.taken])
  rw [Mpsc.sizeT_slot]
  refine { linked with contents := ?_, producer := ?_, consumer := ⟨rfl, ?_⟩ }
  · intro j less kept
    have later : j ≠ 0 := fun first => by simpa [Consumer.taken] using kept first
    have apart : TicketRing.slot B.val (r + j) ≠ TicketRing.slot B.val r :=
      TicketRing.slot_apart (by omega) (by omega)
    simpa [apart] using linked.contents j less fun first => absurd first later
  · apply linked.producer.frame (Nat.le_refl r)
    intro room
    have apart := TicketRing.slot_apart (show r < w by omega) room
    simp [apart]
  · rw [List.head?_eq_getElem?, List.getElem?_eq_getElem more, ← oldest, Nat.add_zero]

theorem Linked.advance {w r : Nat} {items : List T} {s : State T B} (linked : Linked w r items s)
    {k : Overload} {r' : SizeT} {value : T} (pc : s.consumer = .storeReadPos k r' value) :
    ∃ rest, items = value :: rest ∧
      Linked w (r + 1) rest { s with readPos := r' + 1, consumer := .idle } := by
  have ok := linked.consumer
  rw [pc] at ok
  obtain ⟨rfl, oldest⟩ := ok
  obtain ⟨rest, rfl⟩ := List.head?_eq_some_iff.mp oldest
  have count := linked.count
  have fits := linked.fits
  simp only [List.length_cons] at count fits
  refine ⟨rest, rfl, ?_⟩
  constructor
  · exact linked.writePos
  · exact Mpsc.sizeT_succ (B := B) r
  · omega
  · omega
  · intro j less _
    have later := linked.contents (j + 1) (by simpa using less) (by simp)
    rw [show r + 1 + j = r + (j + 1) by omega]
    simpa using later
  · exact linked.producer.frame (Nat.le_succ r) fun _ => rfl
  · trivial

/-- A step is a call of the queue that takes effect, or leaves the queue as it is. -/
theorem Holds.step {E : Element T} {s t : State T B} {a : Action T} {q : BoundedQueue T B.val}
    (holds : Holds s q) (step : Step E s a t) :
    ∃ q', (fifo T B.val).Takes q (endOf s a) q' ∧ Holds t q' := by
  obtain ⟨w, r, linked⟩ := holds
  have pok := linked.producer
  have cok := linked.consumer
  cases step with
  | push u pc =>
    exact ⟨q, rfl, w, r, linked.setProducer linked.writePos⟩
  | refuse u w' pc full =>
    rw [pc] at pok
    obtain rfl : w' = BitVec.ofNat 64 w := pok
    refine ⟨q, ?_, w, r, linked.setProducer trivial⟩
    have occupied := linked.occupied
    rw [← linked.readPos] at occupied
    rw [endOf_refuse pc full]
    exact BoundedQueue.push_full u (by omega)
  | pass u w' pc room =>
    rw [pc] at pok
    obtain rfl : w' = BitVec.ofNat 64 w := pok
    have occupied := linked.occupied
    have count := linked.count
    rw [← linked.readPos] at occupied
    refine ⟨q, ?_, w, r, linked.setProducer ⟨rfl, by omega⟩⟩
    rw [endOf_pass pc room]
    rfl
  | write u w' pc =>
    refine ⟨q, ?_, w, r, linked.write pc⟩
    simp only [endOf, pc]
    rfl
  | publish u w' pc =>
    obtain ⟨room, next⟩ := linked.publish pc
    refine ⟨⟨q.items ++ [u], by simpa using Nat.succ_le_of_lt room⟩, ?_, w + 1, r, next⟩
    simp only [endOf, pc]
    exact BoundedQueue.push_room u room
  | pop k pc =>
    exact ⟨q, rfl, w, r, linked.setConsumer linked.readPos (by simp [pc, Consumer.taken])⟩
  | empty k r' pc nothing =>
    rw [pc] at cok
    obtain rfl : r' = BitVec.ofNat 64 r := cok
    refine ⟨q, ?_, w, r, linked.setConsumer trivial (by simp [pc, Consumer.taken])⟩
    rw [endOf_empty pc nothing]
    rw [linked.writePos] at nothing
    exact BoundedQueue.pop_empty (linked.empty_iff.mp nothing)
  | ready k r' pc filled =>
    rw [pc] at cok
    obtain rfl : r' = BitVec.ofNat 64 r := cok
    refine ⟨q, ?_, w, r, linked.setConsumer ⟨rfl, ?_⟩ (by simp [pc, Consumer.taken])⟩
    · rw [endOf_ready pc filled]
      rfl
    · rw [linked.writePos] at filled
      exact mt linked.empty_iff.mpr filled
  | read k r' pc =>
    refine ⟨q, ?_, w, r, linked.read pc _⟩
    simp only [endOf, pc]
    rfl
  | advance k r' value pc =>
    obtain ⟨rest, oldest, next⟩ := linked.advance pc
    obtain ⟨fits, pop⟩ := BoundedQueue.pop_oldest oldest
    refine ⟨⟨rest, fits⟩, ?_, w, r + 1, next⟩
    simp only [endOf, pc]
    exact pop

theorem holds_init (E : Element T) : Holds (init E : State T B) (fifo T B.val).init :=
  ⟨0, 0, rfl, rfl, rfl, Nat.zero_le _, fun _ less => absurd less (Nat.not_lt_zero _), trivial,
    trivial⟩

theorem calls_step {E : Element T} {s t : State T B} {a : Action T} (step : Step E s a t) :
    s.producer.running ++ pushes (beginOf s a).toList =
        pushes ((endOf s a).toList.map Prod.fst) ++ t.producer.running ∧
      s.consumer.running ++ pops (beginOf s a).toList =
        pops ((endOf s a).toList.map Prod.fst) ++ t.consumer.running := by
  cases step with
  | refuse u w pc full => simp [beginOf, endOf_refuse pc full, pc, Producer.running]
  | pass u w pc room => simp [beginOf, endOf_pass pc room, pc, Producer.running]
  | empty k r pc nothing => simp [beginOf, endOf_empty pc nothing, pc, Consumer.running]
  | ready k r pc filled => simp [beginOf, endOf_ready pc filled, pc, Consumer.running]
  | push u pc | write u w pc | publish u w pc => simp [beginOf, endOf, pc, Producer.running]
  | pop k pc | read k r pc | advance k r value pc => simp [beginOf, endOf, pc, Consumer.running]

theorem calls_run {E : Element T} {h : List (State T B × Action T)} {s : State T B}
    (run : (machine B E).Run h s) :
    pushes (begun h) = pushes ((ended h).map Prod.fst) ++ s.producer.running ∧
      pops (begun h) = pops ((ended h).map Prod.fst) ++ s.consumer.running := by
  apply Machine.Run.invariant (M := machine B E) (fun h s =>
    pushes (begun h) = pushes ((ended h).map Prod.fst) ++ s.producer.running ∧
      pops (begun h) = pops ((ended h).map Prod.fst) ++ s.consumer.running) ⟨rfl, rfl⟩ ?_ run
  intro h s a t _ ⟨pushed, popped⟩ step
  obtain ⟨push, pop⟩ := calls_step (step_cases step)
  rw [begun, ended, Machine.log_snoc, Machine.log_snoc, ← begun, ← ended, List.map_append,
    pushes_append, pops_append, pushes_append, pops_append, pushed, popped, List.append_assoc,
    List.append_assoc, List.append_assoc, List.append_assoc, push, pop]
  exact ⟨rfl, rfl⟩

/-- The results of the calls are those of the FIFO queue of BufSize values, in the order of
    the steps at which the calls end; each call that began has ended once or still runs; and
    the producer never writes to the slot that the consumer is about to read. -/
theorem linearizable {E : Element T} {h : List (State T B × Action T)} {s : State T B}
    (run : (machine B E).Run h s) :
    (fifo T B.val).answers (fifo T B.val).init ((ended h).map Prod.fst) =
        (ended h).map Prod.snd ∧
      pushes (begun h) = pushes ((ended h).map Prod.fst) ++ s.producer.running ∧
      pops (begun h) = pops ((ended h).map Prod.fst) ++ s.consumer.running ∧
      ∀ u w k r, s.producer = .writeData u w → s.consumer = .readData k r →
        B.sizeT.slot w ≠ B.sizeT.slot r := by
  obtain ⟨answered, w, r, linked⟩ := (fifo T B.val).linearizes endOf Holds (holds_init E)
    (fun _ _ _ _ holds step => holds.step (step_cases step)) run
  obtain ⟨pushed, popped⟩ := calls_run run
  refine ⟨answered, pushed, popped, ?_⟩
  intro u w' k r' writes reads
  exact linked.apart writes reads

def crossing : List (Action Nat) :=
  [.push 5, .producer, .pop .optional, .producer, .consumer, .producer, .push 6, .producer,
    .pop .reference, .producer, .consumer, .producer, .push 7, .producer, .consumer, .consumer]

theorem crossing_linearizable :
    let M := machine Mpsc.twoSlots ⟨0, id⟩
    (ended (M.steps M.init crossing)).map Prod.snd =
        [.popped none, .pushed true, .pushed true, .pushed false, .popped (some 5)] ∧
      (fifo Nat Mpsc.twoSlots.val).answers (fifo Nat Mpsc.twoSlots.val).init
          ((ended (M.steps M.init crossing)).map Prod.fst) =
        (ended (M.steps M.init crossing)).map Prod.snd :=
  ⟨by decide, (linearizable (Machine.run_get (by decide))).1⟩

end Spsc
