import FuTrader.Channel.Tickets

/- The queue on 64-bit counters is the image of the queue on unbounded ones, also
   after any number of wraps: at every comparison the code makes, the two counters
   compared are less than 2^64 apart. -/
namespace Mpsc
variable {T : Type} {B : BufSize} {P : Nat}

def Slot.image (x : Slot Nat T) : Slot SizeT T := ⟨BitVec.ofNat 64 x.seq, x.data⟩

def Producer.image : Producer Nat T → Producer SizeT T
  | .idle => .idle
  | .loadTail u curHead => .loadTail u (BitVec.ofNat 64 curHead)
  | .fetchAdd u curHead curTail => .fetchAdd u (BitVec.ofNat 64 curHead) (BitVec.ofNat 64 curTail)
  | .loadSeq u pos => .loadSeq u (BitVec.ofNat 64 pos)
  | .wait u pos seqVal => .wait u (BitVec.ofNat 64 pos) (BitVec.ofNat 64 seqVal)
  | .parked u pos seqVal => .parked u (BitVec.ofNat 64 pos) (BitVec.ofNat 64 seqVal)
  | .writeData u pos => .writeData u (BitVec.ofNat 64 pos)
  | .storeSeq u pos => .storeSeq u (BitVec.ofNat 64 pos)

def Consumer.image : Consumer Nat T → Consumer SizeT T
  | .idle => .idle
  | .loadSeq k pos => .loadSeq k (BitVec.ofNat 64 pos)
  | .readData k pos => .readData k (BitVec.ofNat 64 pos)
  | .storeSeq k pos value => .storeSeq k (BitVec.ofNat 64 pos) value
  | .notifyOne k pos value => .notifyOne k (BitVec.ofNat 64 pos) value
  | .storeTail k pos value => .storeTail k (BitVec.ofNat 64 pos) value

def State.image (s : State Nat T B P) : State SizeT T B P where
  head := BitVec.ofNat 64 s.head
  tail := BitVec.ofNat 64 s.tail
  buffer k := (s.buffer k).image
  producer i := (s.producer i).image
  consumer := s.consumer.image

@[simp] theorem image_head (s : State Nat T B P) : s.image.head = BitVec.ofNat 64 s.head := rfl
@[simp] theorem image_tail (s : State Nat T B P) : s.image.tail = BitVec.ofNat 64 s.tail := rfl
@[simp] theorem image_buffer (s : State Nat T B P) (k : Fin B.val) :
    s.image.buffer k = (s.buffer k).image := rfl
@[simp] theorem image_producer (s : State Nat T B P) (i : Fin P) :
    s.image.producer i = (s.producer i).image := rfl
@[simp] theorem image_consumer (s : State Nat T B P) : s.image.consumer = s.consumer.image := rfl
@[simp] theorem image_seq (x : Slot Nat T) : x.image.seq = BitVec.ofNat 64 x.seq := rfl
@[simp] theorem image_data (x : Slot Nat T) : x.image.data = x.data := rfl

@[simp] theorem sizeT_slot (n : Nat) :
    B.sizeT.slot (BitVec.ofNat 64 n) = TicketRing.slot B.val n := Fin.ext (B.and_mask n)

@[simp] theorem sizeT_succ (n : Nat) :
    B.sizeT.succ (BitVec.ofNat 64 n) = BitVec.ofNat 64 (n + 1) := (BitVec.ofNat_add n 1).symm

@[simp] theorem sizeT_lap (n : Nat) :
    B.sizeT.lap (BitVec.ofNat 64 n) = BitVec.ofNat 64 (n + B.val) := (BitVec.ofNat_add n B.val).symm

theorem sizeT_full {a b : Nat} (le : b ≤ a) (near : a < b + 2 ^ 64) :
    B.sizeT.full (BitVec.ofNat 64 a) (BitVec.ofNat 64 b) = decide (B.val ≤ a - b) := by
  simp only [BufSize.sizeT, Counter.toNat_sub le near]

@[simp] theorem unbounded_full (h t : Nat) :
    B.unbounded.full h t = B.sizeT.full (BitVec.ofNat 64 h) (BitVec.ofNat 64 t) := rfl

theorem image_setProducer (s : State Nat T B P) (i : Fin P) (p : Producer Nat T) :
    (s.setProducer i p).image = s.image.setProducer i p.image := by
  have producers : (fun j => (Function.update s.producer i p j).image) =
      Function.update (fun j => (s.producer j).image) i p.image :=
    Function.comp_update Producer.image s.producer i p
  simp [State.image, State.setProducer, producers]

theorem image_setSlot (s : State Nat T B P) (k : Fin B.val) (x : Slot Nat T) :
    (s.setSlot k x).image = s.image.setSlot k x.image := by
  have buffers : (fun j => (Function.update s.buffer k x j).image) =
      Function.update (fun j => (s.buffer j).image) k x.image :=
    Function.comp_update Slot.image s.buffer k x
  simp [State.image, State.setSlot, buffers]

theorem image_setConsumer (s : State Nat T B P) (c : Consumer Nat T) :
    (s.setConsumer c).image = s.image.setConsumer c.image := rfl

theorem image_init (E : Element T) : init B.sizeT E P = (init B.unbounded E P).image := rfl

/-! The comparisons. -/

theorem Linked.turn_iff {log : List (Fin P × T)} {s : State Nat T B P} (linked : Linked log s)
    (near : s.head ≤ s.freed + 2 ^ 64) {i : Fin P} {p : Nat}
    (ticket : (s.producer i).ticket = some p) :
    BitVec.ofNat 64 (s.buffer (TicketRing.slot B.val p)).seq = BitVec.ofNat 64 p ↔
      (s.buffer (TicketRing.slot B.val p)).seq = p := by
  have between := linked.seq_between ticket
  have less := linked.ticket_lt ticket
  exact Counter.ofNat_eq_iff (by omega) (by omega)

theorem Linked.unchanged_iff {log : List (Fin P × T)} {s : State Nat T B P}
    (linked : Linked log s) (near : s.head ≤ s.freed + 2 ^ 64) {i : Fin P} {u : T} {p seqVal : Nat}
    (pc : s.producer i = .wait u p seqVal) :
    BitVec.ofNat 64 (s.buffer (TicketRing.slot B.val p)).seq = BitVec.ofNat 64 seqVal ↔
      (s.buffer (TicketRing.slot B.val p)).seq = seqVal := by
  have ticket : (s.producer i).ticket = some p := by rw [pc]; rfl
  have ok := linked.producers i
  rw [pc] at ok
  obtain ⟨_, older, recent⟩ := ok
  have between := linked.seq_between ticket
  have less := linked.ticket_lt ticket
  exact Counter.ofNat_eq_iff (by omega) (by omega)

theorem Linked.filled_iff {log : List (Fin P × T)} {s : State Nat T B P} (linked : Linked log s)
    {k : Overload} {pos : Nat} (pc : s.consumer = .loadSeq k pos) :
    BitVec.ofNat 64 (s.buffer (TicketRing.slot B.val pos)).seq = BitVec.ofNat 64 (pos + 1) ↔
      (s.buffer (TicketRing.slot B.val pos)).seq = pos + 1 := by
  have ok := linked.consumer
  rw [pc] at ok
  obtain rfl : pos = s.tail := ok
  have freed : s.freed = s.tail := by simp [State.freed, pc]
  have size := Nat.pos_of_neZero B.val
  have now : (s.buffer (TicketRing.slot B.val s.tail)).seq = s.tail ∨
      (s.buffer (TicketRing.slot B.val s.tail)).seq = s.tail + 1 :=
    (linked.ring.turns s.tail (Nat.le_of_eq freed) (by
      change s.tail < s.freed + B.val
      omega)).imp id And.left
  rcases now with now | now <;> rw [now] <;> exact Counter.ofNat_eq_iff (by omega) (by omega)

theorem parkedOn_image (s : State Nat T B P) (n : Nat) (i : Fin P) :
    ParkedOn B.sizeT s.image (TicketRing.slot B.val n) i =
      ParkedOn B.unbounded s (TicketRing.slot B.val n) i := by
  cases pc : s.producer i with
  | parked u pos seqVal =>
    simp only [ParkedOn, image_producer, pc, Producer.image]
    exact decide_eq_decide.mpr (by rw [sizeT_slot, unbounded_slot])
  | _ => simp [ParkedOn, pc, Producer.image]

theorem unpark_image (s : State Nat T B P) (i : Fin P) :
    unpark s.image i = (unpark s i).map State.image := by
  cases pc : s.producer i <;> simp [unpark, pc, Producer.image, image_setProducer]

/-- A step on 64-bit counters is the image of the step on unbounded ones. -/
theorem producerStep_image {log : List (Fin P × T)} {s : State Nat T B P} (linked : Linked log s)
    (near : s.head ≤ s.freed + 2 ^ 64) (i : Fin P) :
    producerStep B.sizeT s.image i = (producerStep B.unbounded s i).map State.image := by
  cases pc : s.producer i with
  | idle => simp [producerStep, pc, Producer.image]
  | loadTail u curHead =>
    by_cases full : B.sizeT.full (BitVec.ofNat 64 curHead) (BitVec.ofNat 64 s.tail)
    · simp [producerStep, pc, Producer.image, full, image_setProducer]
    · simp [producerStep, pc, Producer.image, full, image_setProducer]
  | fetchAdd u curHead curTail =>
    simp [producerStep, pc, Producer.image, image_setProducer]
    rfl
  | loadSeq u pos =>
    have turn := linked.turn_iff near (show (s.producer i).ticket = some pos by rw [pc]; rfl)
    by_cases now : (s.buffer (TicketRing.slot B.val pos)).seq = pos
    · simp [producerStep, pc, Producer.image, now, image_setProducer]
    · simp [producerStep, pc, Producer.image, turn, now, image_setProducer]
  | wait u pos seqVal =>
    have same := linked.unchanged_iff near pc
    by_cases now : (s.buffer (TicketRing.slot B.val pos)).seq = seqVal
    · simp [producerStep, pc, Producer.image, now, image_setProducer]
    · simp [producerStep, pc, Producer.image, same, now, image_setProducer]
  | parked u pos seqVal => simp [producerStep, pc, Producer.image]
  | writeData u pos =>
    simp [producerStep, pc, Producer.image, image_setProducer, image_setSlot, Slot.image]
  | storeSeq u pos =>
    simp [producerStep, pc, Producer.image, image_setProducer, image_setSlot, Slot.image]

theorem consumerStep_image {log : List (Fin P × T)} {s : State Nat T B P}
    (linked : Linked log s) (E : Element T) :
    consumerStep B.sizeT E s.image = (consumerStep B.unbounded E s).map State.image := by
  cases pc : s.consumer with
  | idle => simp [consumerStep, pc, Consumer.image]
  | loadSeq k pos =>
    have filled := linked.filled_iff pc
    by_cases now : (s.buffer (TicketRing.slot B.val pos)).seq = pos + 1
    · simp [consumerStep, pc, Consumer.image, now, image_setConsumer]
    · simp [consumerStep, pc, Consumer.image, filled, now, image_setConsumer]
  | readData k pos =>
    simp [consumerStep, pc, Consumer.image, image_setConsumer, image_setSlot, Slot.image]
  | storeSeq k pos value =>
    simp [consumerStep, pc, Consumer.image, image_setConsumer, image_setSlot, Slot.image]
  | notifyOne k pos value =>
    by_cases waiting : ∃ i, ParkedOn B.unbounded s (TicketRing.slot B.val pos) i
    · simp [consumerStep, pc, Consumer.image, parkedOn_image, waiting]
    · simp [consumerStep, pc, Consumer.image, parkedOn_image, waiting, image_setConsumer]
  | storeTail k pos value =>
    simp [consumerStep, pc, Consumer.image]
    rfl

theorem step_image {log : List (Fin P × T)} {s : State Nat T B P} (linked : Linked log s)
    (near : s.head ≤ s.freed + 2 ^ 64) (E : Element T) (a : Action T P) :
    step B.sizeT E s.image a = (step B.unbounded E s a).map State.image := by
  cases a with
  | push i u =>
    cases pc : s.producer i <;>
      simp [step, pushStep, pc, Producer.image, image_setProducer]
  | producer i => exact producerStep_image linked near i
  | spurious i => exact unpark_image s i
  | pop k => cases pc : s.consumer <;> simp [step, popStep, pc, Consumer.image, image_setConsumer]
  | consumer => exact consumerStep_image linked E
  | wake i =>
    cases pc : s.consumer with
    | notifyOne k pos value =>
      have on := parkedOn_image s pos i
      have woken := unpark_image (s.setConsumer (.storeTail k pos value)) i
      rw [image_setConsumer] at woken
      by_cases parked : ParkedOn B.unbounded s (TicketRing.slot B.val pos) i = true
      · simpa [step, wakeStep, pc, Consumer.image, on, parked] using woken
      · simp [step, wakeStep, pc, Consumer.image, on, parked]
    | _ => simp [step, wakeStep, pc, Consumer.image]

theorem ticketOf_image (s : State Nat T B P) (a : Action T P) :
    ticketOf s.image a = ticketOf s a := by
  cases a with
  | producer i => cases pc : s.producer i <;> simp [ticketOf, pc, Producer.image]
  | _ => rfl

theorem issued_image (k : List (State Nat T B P × Action T P)) :
    issued (k.map (Prod.map State.image id)) = issued k := by
  rw [issued, Machine.log_map, issued]
  simp only [ticketOf_image]

theorem room_image (k : List (State Nat T B P × Action T P)) :
    Room (k.map (Prod.map State.image id)) ↔ Room k := by
  unfold Room
  rw [issued_image]

theorem sizeT_run {E : Element T} {h : List (State SizeT T B P × Action T P)}
    {s : State SizeT T B P} (room : Room h) (run : (machine B.sizeT E P).Run h s) :
    ∃ k t, (machine B.unbounded E P).Run k t ∧ h = k.map (Prod.map State.image id) ∧
      s = t.image := by
  refine run.lift State.image Room (fun _ _ => Room.before) (image_init E) ?_ room
  intro k t a below room
  have linked := linked_run ((room_image k).mp room) below
  exact step_image linked (linked.near ((room_image k).mp room)) E a

theorem sizeT_reachable {E : Element T} (fits : B.val + P ≤ 2 ^ 64) {s : State SizeT T B P}
    (reach : (machine B.sizeT E P).Reachable s) :
    ∃ log t, (machine B.unbounded E P).Reachable t ∧ Linked log t ∧ s = t.image := by
  obtain ⟨h, run⟩ := reach
  obtain ⟨k, t, below, _, same⟩ := sizeT_run (.inl fits) run
  exact ⟨issued k, t, below.reachable, linked_run (.inl fits) below, same⟩

end Mpsc
