import FuTrader.Lib.TicketRing
import FuTrader.Channel.Mpsc

/- The queue on counters that never wrap. Its steps are those of a ticket ring,
   whatever the full check answers. -/
namespace Mpsc
variable {T : Type} {B : BufSize} {P : Nat}

/-- The full check stays the one on `size_t`. -/
def BufSize.unbounded (B : BufSize) : Counters Nat B where
  ofNat n := n
  succ pos := pos + 1
  lap pos := pos + B.val
  slot pos := TicketRing.slot B.val pos
  full curHead curTail := B.sizeT.full (BitVec.ofNat 64 curHead) (BitVec.ofNat 64 curTail)

@[simp] theorem unbounded_slot (n : Nat) : B.unbounded.slot n = TicketRing.slot B.val n := rfl
@[simp] theorem unbounded_succ (n : Nat) : B.unbounded.succ n = n + 1 := rfl
@[simp] theorem unbounded_lap (n : Nat) : B.unbounded.lap n = n + B.val := rfl
@[simp] theorem unbounded_ofNat (n : Nat) : B.unbounded.ofNat n = n := rfl

/-- Slots freed so far: pop frees the slot before it stores _tail. -/
def State.freed (s : State Nat T B P) : Nat :=
  match s.consumer with
  | .notifyOne _ _ _ | .storeTail _ _ _ => s.tail + 1
  | _ => s.tail

theorem tail_le_freed (s : State Nat T B P) : s.tail ≤ s.freed := by
  unfold State.freed
  split <;> omega

theorem freed_le_succ_tail (s : State Nat T B P) : s.freed ≤ s.tail + 1 := by
  unfold State.freed
  split <;> omega

def State.taken (s : State Nat T B P) : Bool :=
  match s.consumer with
  | .storeSeq _ _ _ => true
  | _ => false

def toRing (log : List (Fin P × T)) (s : State Nat T B P) : TicketRing (Fin P) T B.val where
  log := log
  freed := s.freed
  taken := s.taken
  seq k := (s.buffer k).seq
  data k := (s.buffer k).data
  hold i := (s.producer i).ticket

def ProducerOk (log : List (Fin P × T)) (buffer : Fin B.val → Slot Nat T) (i : Fin P) :
    Producer Nat T → Prop
  | .idle | .loadTail _ _ | .fetchAdd _ _ _ => True
  | .loadSeq u pos => log[pos]? = some (i, u)
  | .wait u pos seqVal | .parked u pos seqVal =>
    log[pos]? = some (i, u) ∧ seqVal < pos ∧ pos < seqVal + 2 ^ 64
  | .writeData u pos =>
    log[pos]? = some (i, u) ∧ (buffer (TicketRing.slot B.val pos)).seq = pos
  | .storeSeq u pos =>
    log[pos]? = some (i, u) ∧ (buffer (TicketRing.slot B.val pos)).seq = pos ∧
      (buffer (TicketRing.slot B.val pos)).data = u

def ConsumerOk (log : List (Fin P × T)) (tail : Nat) (buffer : Fin B.val → Slot Nat T) :
    Consumer Nat T → Prop
  | .idle => True
  | .loadSeq _ pos => pos = tail
  | .readData _ pos => pos = tail ∧ (buffer (TicketRing.slot B.val tail)).seq = tail + 1
  | .storeSeq _ pos value =>
    pos = tail ∧ (buffer (TicketRing.slot B.val tail)).seq = tail + 1 ∧
      ∃ i, log[tail]? = some (i, value)
  | .notifyOne _ pos value | .storeTail _ pos value =>
    pos = tail ∧ ∃ i, log[tail]? = some (i, value)

/-- The queue after the tickets of `log` were drawn. -/
structure Linked (log : List (Fin P × T)) (s : State Nat T B P) : Prop where
  ring : (toRing log s).Inv
  count : log.length = s.head
  producers : ∀ i, ProducerOk log s.buffer i (s.producer i)
  consumer : ConsumerOk log s.tail s.buffer s.consumer

theorem entry_of_longer {log more : List (Fin P × T)} (longer : log <+: more) {q : Nat}
    {x : Fin P × T} (found : log[q]? = some x) : more[q]? = some x := by
  obtain ⟨rest, rfl⟩ := longer
  rw [List.getElem?_append_left (List.getElem?_eq_some_iff.mp found).1]
  exact found

theorem ProducerOk.frame {log more : List (Fin P × T)} {buffer after : Fin B.val → Slot Nat T}
    {i : Fin P} {p : Producer Nat T} (ok : ProducerOk log buffer i p) (longer : log <+: more)
    (slots : ∀ q, p.owned = some q →
      after (TicketRing.slot B.val q) = buffer (TicketRing.slot B.val q)) :
    ProducerOk more after i p := by
  cases p with
  | idle | loadTail | fetchAdd => trivial
  | loadSeq u pos => exact entry_of_longer longer ok
  | wait u pos seqVal | parked u pos seqVal => exact ⟨entry_of_longer longer ok.1, ok.2⟩
  | writeData u pos =>
    have same := slots pos rfl
    exact ⟨entry_of_longer longer ok.1, by rw [same]; exact ok.2⟩
  | storeSeq u pos =>
    have same := slots pos rfl
    exact ⟨entry_of_longer longer ok.1, by rw [same]; exact ok.2⟩

theorem ConsumerOk.frame {log more : List (Fin P × T)} {tail : Nat}
    {buffer after : Fin B.val → Slot Nat T} {c : Consumer Nat T}
    (ok : ConsumerOk log tail buffer c) (longer : log <+: more)
    (slots : c.owned ≠ none →
      after (TicketRing.slot B.val tail) = buffer (TicketRing.slot B.val tail)) :
    ConsumerOk more tail after c := by
  have entry : ∀ {value}, (∃ i, log[tail]? = some (i, value)) →
      ∃ i, more[tail]? = some (i, value) :=
    fun ⟨i, found⟩ => ⟨i, entry_of_longer longer found⟩
  cases c with
  | idle => trivial
  | loadSeq k pos => exact ok
  | readData k pos =>
    have same := slots (by simp [Consumer.owned])
    exact ⟨ok.1, by rw [same]; exact ok.2⟩
  | storeSeq k pos value =>
    have same := slots (by simp [Consumer.owned])
    exact ⟨ok.1, by rw [same]; exact ok.2.1, entry ok.2.2⟩
  | notifyOne k pos value | storeTail k pos value => exact ⟨ok.1, entry ok.2⟩

/-! What one state says. -/

theorem Linked.value_of_ticket {log : List (Fin P × T)} {s : State Nat T B P}
    (linked : Linked log s) {i : Fin P} {p : Nat} (ticket : (s.producer i).ticket = some p) :
    ∃ u, log[p]? = some (i, u) := linked.ring.held ticket

theorem Linked.tail_le {log : List (Fin P × T)} {s : State Nat T B P} (linked : Linked log s) :
    s.tail ≤ log.length := (tail_le_freed s).trans linked.ring.freed_le

theorem Linked.owned_turn {log : List (Fin P × T)} {s : State Nat T B P}
    (linked : Linked log s) {i : Fin P} {p : Nat} (owns : (s.producer i).owned = some p) :
    (s.producer i).ticket = some p ∧ (s.buffer (TicketRing.slot B.val p)).seq = p := by
  have ok := linked.producers i
  cases pc : s.producer i with
  | writeData u pos =>
    rw [pc] at owns ok
    cases owns
    exact ⟨rfl, ok.2⟩
  | storeSeq u pos =>
    rw [pc] at owns ok
    cases owns
    exact ⟨rfl, ok.2.1⟩
  | _ => simp [pc, Producer.owned] at owns

theorem Linked.consumer_ready {log : List (Fin P × T)} {s : State Nat T B P}
    (linked : Linked log s) {pos : Nat} (owns : s.consumer.owned = some pos) :
    pos = s.tail ∧ s.freed = s.tail ∧
      (s.buffer (TicketRing.slot B.val s.tail)).seq = s.tail + 1 := by
  have ok := linked.consumer
  cases pc : s.consumer with
  | readData k q =>
    rw [pc] at owns ok
    cases owns
    exact ⟨ok.1, by simp [State.freed, pc], ok.2⟩
  | storeSeq k q value =>
    rw [pc] at owns ok
    cases owns
    exact ⟨ok.1, by simp [State.freed, pc], ok.2.1⟩
  | _ => simp [pc, Consumer.owned] at owns

theorem Linked.owners_apart {log : List (Fin P × T)} {s : State Nat T B P}
    (linked : Linked log s) {i j : Fin P} {p q : Nat}
    (hi : (s.producer i).owned = some p) (hj : (s.producer j).owned = some q)
    (same : TicketRing.slot B.val p = TicketRing.slot B.val q) : i = j := by
  obtain ⟨ti, wi⟩ := linked.owned_turn hi
  obtain ⟨tj, wj⟩ := linked.owned_turn hj
  exact TicketRing.turn_exclusive linked.ring ti wi tj wj same

theorem Linked.owner_not_read {log : List (Fin P × T)} {s : State Nat T B P}
    (linked : Linked log s) {i : Fin P} {p pos : Nat}
    (hi : (s.producer i).owned = some p) (hc : s.consumer.owned = some pos) :
    TicketRing.slot B.val p ≠ TicketRing.slot B.val pos := by
  obtain ⟨ti, wi⟩ := linked.owned_turn hi
  obtain ⟨rfl, freed, filled⟩ := linked.consumer_ready hc
  have apart := TicketRing.turn_not_oldest B.two_le linked.ring ti wi
    (show (s.buffer (TicketRing.slot B.val s.freed)).seq = s.freed + 1 by rw [freed]; exact filled)
  change TicketRing.slot B.val p ≠ TicketRing.slot B.val s.freed at apart
  rwa [freed] at apart

/-! One lemma for each kind of step: what it does to the ring and to the locals. -/

theorem toRing_setProducer (log : List (Fin P × T)) (s : State Nat T B P) {i : Fin P}
    {p : Producer Nat T} (same : p.ticket = (s.producer i).ticket) :
    toRing log (s.setProducer i p) = toRing log s := by
  have hold : ∀ j, (Function.update s.producer i p j).ticket = (s.producer j).ticket := by
    intro j
    by_cases here : j = i
    · subst here
      simpa using same
    · simp [here]
  simp only [toRing, State.setProducer, State.freed, State.taken, hold]

theorem toRing_setConsumer (log : List (Fin P × T)) (s : State Nat T B P) {c : Consumer Nat T}
    (freed : (s.setConsumer c).freed = s.freed) (taken : (s.setConsumer c).taken = s.taken) :
    toRing log (s.setConsumer c) = toRing log s := by
  simp only [toRing, freed, taken, setConsumer_buffer, setConsumer_producer]

theorem Linked.producers_set {log more : List (Fin P × T)} {s : State Nat T B P}
    (linked : Linked log s) (longer : log <+: more) {after : Fin B.val → Slot Nat T} {i : Fin P}
    {p : Producer Nat T} (ok : ProducerOk more after i p)
    (others : ∀ j, j ≠ i → ∀ q, (s.producer j).owned = some q →
      after (TicketRing.slot B.val q) = s.buffer (TicketRing.slot B.val q)) :
    ∀ j, ProducerOk more after j (Function.update s.producer i p j) := by
  intro j
  by_cases here : j = i
  · subst here
    simpa using ok
  · rw [Function.update_of_ne here]
    exact (linked.producers j).frame longer (others j here)

theorem Linked.setProducer {log : List (Fin P × T)} {s : State Nat T B P}
    (linked : Linked log s) {i : Fin P} {p : Producer Nat T}
    (same : p.ticket = (s.producer i).ticket) (ok : ProducerOk log s.buffer i p) :
    Linked log (s.setProducer i p) where
  ring := by
    rw [toRing_setProducer log s same]
    exact linked.ring
  count := linked.count
  producers := linked.producers_set (List.prefix_refl log) ok fun _ _ _ _ => rfl
  consumer := linked.consumer

theorem Linked.setConsumer {log : List (Fin P × T)} {s : State Nat T B P}
    (linked : Linked log s) {c : Consumer Nat T}
    (freed : (s.setConsumer c).freed = s.freed)
    (taken : (s.setConsumer c).taken = s.taken) (ok : ConsumerOk log s.tail s.buffer c) :
    Linked log (s.setConsumer c) where
  ring := by
    rw [toRing_setConsumer log s freed taken]
    exact linked.ring
  count := linked.count
  producers := linked.producers
  consumer := ok

theorem Linked.ring_ticket {log : List (Fin P × T)} {s : State Nat T B P}
    (linked : Linked log s) {i : Fin P} {u : T} (without : (s.producer i).ticket = none) :
    (toRing log s).Step (toRing (log ++ [(i, u)])
      ({ s with head := s.head + 1 }.setProducer i (.loadSeq u s.head))) := by
  have same : toRing (log ++ [(i, u)])
      ({ s with head := s.head + 1 }.setProducer i (.loadSeq u s.head)) =
      { toRing log s with
        log := log ++ [(i, u)]
        hold := Function.update (toRing log s).hold i (some log.length) } := by
    have hold : (fun j => (Function.update s.producer i (.loadSeq u s.head) j).ticket) =
        Function.update (fun j => (s.producer j).ticket) i (some s.head) :=
      Function.comp_update Producer.ticket s.producer i (.loadSeq u s.head)
    simp [toRing, State.setProducer, State.freed, State.taken, hold, linked.count]
  rw [same]
  exact .issue i u without

theorem Linked.ticket {log : List (Fin P × T)} {s : State Nat T B P} (linked : Linked log s)
    {i : Fin P} {u : T} (without : (s.producer i).ticket = none) :
    Linked (log ++ [(i, u)])
      ({ s with head := s.head + 1 }.setProducer i (.loadSeq u s.head)) where
  ring := TicketRing.inv_step B.two_le linked.ring (linked.ring_ticket without)
  count := by simp [State.setProducer, linked.count]
  producers := linked.producers_set (List.prefix_append _ _) (by simp [ProducerOk, ← linked.count])
    fun _ _ _ _ => rfl
  consumer := linked.consumer.frame (List.prefix_append _ _) fun _ => rfl

theorem seq_update (buffer : Fin B.val → Slot Nat T) (k : Fin B.val) (x : Slot Nat T) :
    (fun j => (Function.update buffer k x j).seq) =
      Function.update (fun j => (buffer j).seq) k x.seq :=
  Function.comp_update Slot.seq buffer k x

theorem data_update (buffer : Fin B.val → Slot Nat T) (k : Fin B.val) (x : Slot Nat T) :
    (fun j => (Function.update buffer k x j).data) =
      Function.update (fun j => (buffer j).data) k x.data :=
  Function.comp_update Slot.data buffer k x

theorem Linked.others_apart {log : List (Fin P × T)} {s : State Nat T B P}
    (linked : Linked log s) {i : Fin P} {pos : Nat} (owns : (s.producer i).owned = some pos)
    (x : Slot Nat T) : ∀ j, j ≠ i → ∀ q, (s.producer j).owned = some q →
      Function.update s.buffer (TicketRing.slot B.val pos) x (TicketRing.slot B.val q) =
        s.buffer (TicketRing.slot B.val q) := by
  intro j ne q ownsj
  have apart : TicketRing.slot B.val q ≠ TicketRing.slot B.val pos :=
    fun same => ne (linked.owners_apart ownsj owns same)
  rw [Function.update_of_ne apart]

theorem Linked.reader_apart {log : List (Fin P × T)} {s : State Nat T B P}
    (linked : Linked log s) {i : Fin P} {pos : Nat} (owns : (s.producer i).owned = some pos)
    (x : Slot Nat T) : s.consumer.owned ≠ none →
      Function.update s.buffer (TicketRing.slot B.val pos) x (TicketRing.slot B.val s.tail) =
        s.buffer (TicketRing.slot B.val s.tail) := by
  intro busy
  obtain ⟨q, ownsc⟩ := Option.ne_none_iff_exists'.mp busy
  have apart := linked.owner_not_read owns ownsc
  rw [(linked.consumer_ready ownsc).1] at apart
  rw [Function.update_of_ne apart.symm]

theorem Linked.ring_write {log : List (Fin P × T)} {s : State Nat T B P}
    (linked : Linked log s) {i : Fin P} {u : T} {pos : Nat}
    (pc : s.producer i = .writeData u pos) :
    (toRing log s).Step (toRing log ((s.setSlot (TicketRing.slot B.val pos)
      { s.buffer (TicketRing.slot B.val pos) with data := u }).setProducer i
        (.storeSeq u pos))) := by
  obtain ⟨ticket, turn⟩ := linked.owned_turn (show (s.producer i).owned = some pos by rw [pc]; rfl)
  have same : toRing log (s.setSlot (TicketRing.slot B.val pos)
      { s.buffer (TicketRing.slot B.val pos) with data := u }) =
      { toRing log s with
        data := Function.update (toRing log s).data (TicketRing.slot B.val pos) u } := by
    simp [toRing, State.setSlot, State.freed, State.taken, seq_update, data_update]
  rw [toRing_setProducer _ _ (by simp [pc, Producer.ticket]), same]
  exact .write i pos u ticket turn

theorem Linked.write {log : List (Fin P × T)} {s : State Nat T B P} (linked : Linked log s)
    {i : Fin P} {u : T} {pos : Nat} (pc : s.producer i = .writeData u pos) :
    Linked log ((s.setSlot (TicketRing.slot B.val pos)
      { s.buffer (TicketRing.slot B.val pos) with data := u }).setProducer i
        (.storeSeq u pos)) := by
  have owns : (s.producer i).owned = some pos := by rw [pc]; rfl
  obtain ⟨ticket, turn⟩ := linked.owned_turn owns
  have ok := linked.producers i
  rw [pc] at ok
  constructor
  · exact TicketRing.inv_step B.two_le linked.ring (linked.ring_write pc)
  · exact linked.count
  · exact linked.producers_set (List.prefix_refl log) (by simp [ProducerOk, ok.1, turn])
      (linked.others_apart owns _)
  · exact linked.consumer.frame (List.prefix_refl log) (linked.reader_apart owns _)

theorem Linked.ring_publish {log : List (Fin P × T)} {s : State Nat T B P}
    (linked : Linked log s) {i : Fin P} {u : T} {pos : Nat}
    (pc : s.producer i = .storeSeq u pos) :
    (toRing log s).Step (toRing log ((s.setSlot (TicketRing.slot B.val pos)
      { s.buffer (TicketRing.slot B.val pos) with seq := pos + 1 }).setProducer i .idle)) := by
  obtain ⟨ticket, turn⟩ := linked.owned_turn (show (s.producer i).owned = some pos by rw [pc]; rfl)
  have ok := linked.producers i
  rw [pc] at ok
  have same : toRing log ((s.setSlot (TicketRing.slot B.val pos)
      { s.buffer (TicketRing.slot B.val pos) with seq := pos + 1 }).setProducer i .idle) =
      { toRing log s with
        seq := Function.update (toRing log s).seq (TicketRing.slot B.val pos) (pos + 1)
        hold := Function.update (toRing log s).hold i none } := by
    have hold : (fun j => (Function.update s.producer i .idle j).ticket) =
        Function.update (fun j => (s.producer j).ticket) i none :=
      Function.comp_update Producer.ticket s.producer i .idle
    simp [toRing, State.setSlot, State.setProducer, State.freed, State.taken, seq_update,
      data_update, hold]
  rw [same]
  exact .publish i pos ticket turn
    (by rw [show (toRing log s).data _ = u from ok.2.2]; exact ok.1)

theorem Linked.publish {log : List (Fin P × T)} {s : State Nat T B P} (linked : Linked log s)
    {i : Fin P} {u : T} {pos : Nat} (pc : s.producer i = .storeSeq u pos) :
    Linked log ((s.setSlot (TicketRing.slot B.val pos)
      { s.buffer (TicketRing.slot B.val pos) with seq := pos + 1 }).setProducer i .idle) := by
  have owns : (s.producer i).owned = some pos := by rw [pc]; rfl
  constructor
  · exact TicketRing.inv_step B.two_le linked.ring (linked.ring_publish pc)
  · exact linked.count
  · exact linked.producers_set (List.prefix_refl log) trivial (linked.others_apart owns _)
  · exact linked.consumer.frame (List.prefix_refl log) (linked.reader_apart owns _)

theorem Linked.producers_apart {log : List (Fin P × T)} {s : State Nat T B P}
    (linked : Linked log s) (busy : s.consumer.owned = some s.tail) (x : Slot Nat T) (j : Fin P) :
    ProducerOk log (Function.update s.buffer (TicketRing.slot B.val s.tail) x) j
      (s.producer j) := by
  apply (linked.producers j).frame (List.prefix_refl log)
  intro q owns
  rw [Function.update_of_ne (linked.owner_not_read owns busy)]

theorem Linked.ready {log : List (Fin P × T)} {s : State Nat T B P} (linked : Linked log s)
    {pos : Nat} (owns : s.consumer.owned = some pos) : (toRing log s).Filled s.freed := by
  obtain ⟨rfl, freed, filled⟩ := linked.consumer_ready owns
  rw [freed]
  exact filled

theorem Linked.ring_read {log : List (Fin P × T)} {s : State Nat T B P} (linked : Linked log s)
    {k : Overload} {pos : Nat} (pc : s.consumer = .readData k pos) (rest : T) :
    (toRing log s).Step (toRing log ((s.setSlot (TicketRing.slot B.val pos)
        { s.buffer (TicketRing.slot B.val pos) with data := rest }).setConsumer
      (.storeSeq k pos (s.buffer (TicketRing.slot B.val pos)).data))) := by
  have owns : s.consumer.owned = some pos := by rw [pc]; rfl
  have ready := linked.ready owns
  obtain ⟨rfl, freed, filled⟩ := linked.consumer_ready owns
  have same : toRing log ((s.setSlot (TicketRing.slot B.val s.tail)
        { s.buffer (TicketRing.slot B.val s.tail) with data := rest }).setConsumer
      (.storeSeq k s.tail (s.buffer (TicketRing.slot B.val s.tail)).data)) =
      { toRing log s with
        data := Function.update (toRing log s).data (TicketRing.slot B.val s.freed) rest
        taken := true } := by
    simp [toRing, State.freed, State.taken, pc, seq_update, data_update]
  rw [same]
  exact .take rest ready

theorem Linked.read {log : List (Fin P × T)} {s : State Nat T B P} (linked : Linked log s)
    {k : Overload} {pos : Nat} (pc : s.consumer = .readData k pos) (rest : T) :
    Linked log ((s.setSlot (TicketRing.slot B.val pos)
        { s.buffer (TicketRing.slot B.val pos) with data := rest }).setConsumer
      (.storeSeq k pos (s.buffer (TicketRing.slot B.val pos)).data)) := by
  have owns : s.consumer.owned = some pos := by rw [pc]; rfl
  have ring := TicketRing.inv_step B.two_le linked.ring (linked.ring_read pc rest)
  have ready := linked.ready owns
  obtain ⟨rfl, freed, filled⟩ := linked.consumer_ready owns
  have untaken : s.taken = false := by simp [State.taken, pc]
  have some := Nat.pos_of_neZero B.val
  have entry := linked.ring.stored s.freed (Nat.le_refl _)
    (show s.freed < s.freed + B.val by omega) ready (fun both => by simp [toRing, untaken] at both)
  rw [freed] at entry
  exact ⟨ring, linked.count, linked.producers_apart owns _, rfl, by simpa using filled, entry⟩

theorem Linked.ring_free {log : List (Fin P × T)} {s : State Nat T B P} (linked : Linked log s)
    {k : Overload} {pos : Nat} {value : T} (pc : s.consumer = .storeSeq k pos value) :
    (toRing log s).Step (toRing log ((s.setSlot (TicketRing.slot B.val pos)
        { s.buffer (TicketRing.slot B.val pos) with seq := pos + B.val }).setConsumer
      (.notifyOne k pos value))) := by
  have owns : s.consumer.owned = some pos := by rw [pc]; rfl
  have ready := linked.ready owns
  obtain ⟨rfl, freed, filled⟩ := linked.consumer_ready owns
  have same : toRing log ((s.setSlot (TicketRing.slot B.val s.tail)
        { s.buffer (TicketRing.slot B.val s.tail) with seq := s.tail + B.val }).setConsumer
      (.notifyOne k s.tail value)) =
      { toRing log s with
        seq := Function.update (toRing log s).seq (TicketRing.slot B.val s.freed)
          (s.freed + B.val)
        freed := s.freed + 1
        taken := false } := by
    simp [toRing, State.freed, State.taken, pc, seq_update, data_update]
  rw [same]
  exact .free ready

theorem Linked.free {log : List (Fin P × T)} {s : State Nat T B P} (linked : Linked log s)
    {k : Overload} {pos : Nat} {value : T} (pc : s.consumer = .storeSeq k pos value) :
    Linked log ((s.setSlot (TicketRing.slot B.val pos)
        { s.buffer (TicketRing.slot B.val pos) with seq := pos + B.val }).setConsumer
      (.notifyOne k pos value)) := by
  have owns : s.consumer.owned = some pos := by rw [pc]; rfl
  have ring := TicketRing.inv_step B.two_le linked.ring (linked.ring_free pc)
  obtain ⟨rfl, freed, filled⟩ := linked.consumer_ready owns
  have ok := linked.consumer
  rw [pc] at ok
  exact ⟨ring, linked.count, linked.producers_apart owns _, rfl, ok.2.2⟩

theorem Linked.ring_advance {log : List (Fin P × T)} {s : State Nat T B P}
    (linked : Linked log s) {k : Overload} {pos : Nat} {value : T}
    (pc : s.consumer = .storeTail k pos value) :
    toRing log ({ s with tail := pos + 1 }.setConsumer .idle) = toRing log s := by
  have ok := linked.consumer
  rw [pc] at ok
  obtain ⟨rfl, _⟩ := ok
  simp [toRing, State.freed, State.taken, pc]

theorem Linked.advance {log : List (Fin P × T)} {s : State Nat T B P} (linked : Linked log s)
    {k : Overload} {pos : Nat} {value : T} (pc : s.consumer = .storeTail k pos value) :
    Linked log ({ s with tail := pos + 1 }.setConsumer .idle) where
  ring := by
    rw [linked.ring_advance pc]
    exact linked.ring
  count := linked.count
  producers := linked.producers
  consumer := trivial

/-! The bound on tickets that are out, and what a waiting producer has loaded. -/

theorem Linked.head_le {log : List (Fin P × T)} {s : State Nat T B P} (linked : Linked log s) :
    s.head ≤ s.freed + B.val + P := by
  have bound := TicketRing.issued_le linked.ring Finset.univ fun i _ _ _ => Finset.mem_univ i
  rw [Finset.card_univ, Fintype.card_fin] at bound
  rw [← linked.count]
  exact bound

theorem Linked.seq_between {log : List (Fin P × T)} {s : State Nat T B P}
    (linked : Linked log s) {i : Fin P} {p : Nat} (ticket : (s.producer i).ticket = some p) :
    s.freed ≤ (s.buffer (TicketRing.slot B.val p)).seq ∧
      (s.buffer (TicketRing.slot B.val p)).seq ≤ p := by
  obtain ⟨q, low, high, le, slots, now | now⟩ :=
    TicketRing.seq_of_ticket linked.ring (linked.ring.floor ticket)
  all_goals
    change (s.buffer (TicketRing.slot B.val p)).seq = _ at now
    change s.freed ≤ q at low
    rw [now]
  · exact ⟨low, le⟩
  · refine ⟨by omega, ?_⟩
    by_contra beyond
    have eq : q = p := by omega
    subst eq
    have turn := linked.ring.unfilled ticket high
    change (s.buffer (TicketRing.slot B.val q)).seq = q at turn
    omega

theorem Linked.ticket_lt {log : List (Fin P × T)} {s : State Nat T B P} (linked : Linked log s)
    {i : Fin P} {p : Nat} (ticket : (s.producer i).ticket = some p) : p < s.head := by
  rw [← linked.count]
  exact TicketRing.held_lt linked.ring ticket

theorem Linked.busy {log : List (Fin P × T)} {s : State Nat T B P} (linked : Linked log s)
    (near : s.head ≤ s.freed + 2 ^ 64) {i : Fin P} {u : T} {pos : Nat}
    (pc : s.producer i = .loadSeq u pos)
    (other : (s.buffer (TicketRing.slot B.val pos)).seq ≠ pos) :
    Linked log (s.setProducer i
      (.wait u pos (s.buffer (TicketRing.slot B.val pos)).seq)) := by
  have ticket : (s.producer i).ticket = some pos := by rw [pc]; rfl
  have ok := linked.producers i
  rw [pc] at ok
  have between := linked.seq_between ticket
  have less := linked.ticket_lt ticket
  refine linked.setProducer (by rw [pc]; rfl) ⟨ok, ?_, ?_⟩
  · omega
  · omega

theorem linked_init (E : Element T) : Linked [] (init B.unbounded E P) where
  ring := TicketRing.inv_init B.val fun _ => E.init
  count := rfl
  producers _ := trivial
  consumer := trivial

theorem Linked.step {log : List (Fin P × T)} {E : Element T} {s t : State Nat T B P}
    {a : Action T P} (near : s.head ≤ s.freed + 2 ^ 64) (linked : Linked log s)
    (step : Step B.unbounded E s a t) : Linked (log ++ (ticketOf s a).toList) t := by
  cases step with
  | push i u pc =>
    simp only [ticketOf, Option.toList_none, List.append_nil]
    exact linked.setProducer (by rw [pc]; rfl) trivial
  | refuse i u curHead pc full =>
    simp only [ticketOf, pc, Option.toList_none, List.append_nil]
    exact linked.setProducer (by rw [pc]; rfl) trivial
  | pass i u curHead pc room =>
    simp only [ticketOf, pc, Option.toList_none, List.append_nil]
    exact linked.setProducer (by rw [pc]; rfl) trivial
  | ticket i u curHead curTail pc =>
    simp only [ticketOf, pc, Option.toList_some]
    exact linked.ticket (by rw [pc]; rfl)
  | turn i u pos pc now =>
    have ok := linked.producers i
    rw [pc] at ok
    simp only [ticketOf, pc, Option.toList_none, List.append_nil]
    exact linked.setProducer (by rw [pc]; rfl) ⟨ok, now⟩
  | busy i u pos pc other =>
    simp only [ticketOf, pc, Option.toList_none, List.append_nil]
    exact linked.busy near pc other
  | park i u pos seqVal pc same =>
    have ok := linked.producers i
    rw [pc] at ok
    simp only [ticketOf, pc, Option.toList_none, List.append_nil]
    exact linked.setProducer (by rw [pc]; rfl) ok
  | changed i u pos seqVal pc other =>
    have ok := linked.producers i
    rw [pc] at ok
    simp only [ticketOf, pc, Option.toList_none, List.append_nil]
    exact linked.setProducer (by rw [pc]; rfl) ok.1
  | write i u pos pc =>
    simp only [ticketOf, pc, Option.toList_none, List.append_nil]
    exact linked.write pc
  | publish i u pos pc =>
    simp only [ticketOf, pc, Option.toList_none, List.append_nil]
    exact linked.publish pc
  | spurious i u pos seqVal pc =>
    have ok := linked.producers i
    rw [pc] at ok
    simp only [ticketOf, Option.toList_none, List.append_nil]
    exact linked.setProducer (by rw [pc]; rfl) ok
  | pop k pc =>
    simp only [ticketOf, Option.toList_none, List.append_nil]
    exact linked.setConsumer (by simp [State.freed, pc]) (by simp [State.taken, pc]) rfl
  | empty k pos pc other =>
    simp only [ticketOf, Option.toList_none, List.append_nil]
    exact linked.setConsumer (by simp [State.freed, pc]) (by simp [State.taken, pc]) trivial
  | ready k pos pc filled =>
    have ok := linked.consumer
    rw [pc] at ok
    obtain rfl : pos = s.tail := ok
    simp only [ticketOf, Option.toList_none, List.append_nil]
    exact linked.setConsumer (by simp [State.freed, pc]) (by simp [State.taken, pc]) ⟨rfl, filled⟩
  | read k pos pc =>
    simp only [ticketOf, Option.toList_none, List.append_nil]
    exact linked.read pc _
  | free k pos value pc =>
    simp only [ticketOf, Option.toList_none, List.append_nil]
    exact linked.free pc
  | nobody k pos value pc none =>
    have ok := linked.consumer
    rw [pc] at ok
    simp only [ticketOf, Option.toList_none, List.append_nil]
    exact linked.setConsumer (by simp [State.freed, pc]) (by simp [State.taken, pc]) ok
  | wake i k pos value u ticket seqVal pc parked same =>
    have ok := linked.producers i
    have okc := linked.consumer
    rw [parked] at ok
    rw [pc] at okc
    simp only [ticketOf, Option.toList_none, List.append_nil]
    refine Linked.setProducer ?_ (by rw [setConsumer_producer, parked]; rfl) ok
    exact linked.setConsumer (by simp [State.freed, pc]) (by simp [State.taken, pc]) okc
  | advance k pos value pc =>
    simp only [ticketOf, Option.toList_none, List.append_nil]
    exact linked.advance pc

/-- The queue refines the ring: a step of it is a step of the ring, or none. -/
theorem Linked.refines {log : List (Fin P × T)} {E : Element T} {s t : State Nat T B P}
    {a : Action T P} (linked : Linked log s) (step : Step B.unbounded E s a t) :
    Relation.ReflGen TicketRing.Step (toRing log s) (toRing (log ++ (ticketOf s a).toList) t) := by
  cases step with
  | ticket i u curHead curTail pc =>
    simp only [ticketOf, pc, Option.toList_some]
    exact .single (linked.ring_ticket (by rw [pc]; rfl))
  | write i u pos pc =>
    simp only [ticketOf, pc, Option.toList_none, List.append_nil]
    exact .single (linked.ring_write pc)
  | publish i u pos pc =>
    simp only [ticketOf, pc, Option.toList_none, List.append_nil]
    exact .single (linked.ring_publish pc)
  | read k pos pc =>
    simp only [ticketOf, Option.toList_none, List.append_nil]
    exact .single (linked.ring_read pc _)
  | free k pos value pc =>
    simp only [ticketOf, Option.toList_none, List.append_nil]
    exact .single (linked.ring_free pc)
  | advance k pos value pc =>
    simp only [ticketOf, Option.toList_none, List.append_nil]
    rw [unbounded_succ, linked.ring_advance pc]
  | push i u pc | refuse i u curHead pc full | pass i u curHead pc room | turn i u pos pc now
  | busy i u pos pc other | park i u pos seqVal pc same | changed i u pos seqVal pc other
  | spurious i u pos seqVal pc =>
    simp only [ticketOf, pc, Option.toList_none, List.append_nil]
    rw [toRing_setProducer _ _ (by rw [pc]; rfl)]
  | pop k pc | empty k pos pc other | ready k pos pc filled | nobody k pos value pc none =>
    simp only [ticketOf, Option.toList_none, List.append_nil]
    rw [toRing_setConsumer _ _ (by simp [State.freed, pc]) (by simp [State.taken, pc])]
  | wake i k pos value u ticket seqVal pc parked same =>
    simp only [ticketOf, Option.toList_none, List.append_nil]
    rw [toRing_setProducer _ _ (by rw [setConsumer_producer, parked]; rfl),
      toRing_setConsumer _ _ (by simp [State.freed, pc]) (by simp [State.taken, pc])]

/-- The counters of the queue stay within one turn of `size_t` of each other: there are not
    so many producers, or _head has not wrapped. -/
def Room {κ : Type} (h : List (State κ T B P × Action T P)) : Prop :=
  B.val + P ≤ 2 ^ 64 ∨ (issued h).length < 2 ^ 64

theorem Room.before {κ : Type} {h : List (State κ T B P × Action T P)}
    {x : State κ T B P × Action T P} (room : Room (h ++ [x])) : Room h := by
  rcases room with few | short
  · exact Or.inl few
  · rw [issued, Machine.log_snoc, List.length_append] at short
    exact Or.inr (Nat.lt_of_le_of_lt (Nat.le_add_right _ _) short)

theorem Linked.near {h : List (State Nat T B P × Action T P)} {s : State Nat T B P}
    (linked : Linked (issued h) s) (room : Room h) : s.head ≤ s.freed + 2 ^ 64 := by
  have bound := linked.head_le
  have count := linked.count
  rcases room with few | short <;> omega

theorem linked_run {E : Element T} {h : List (State Nat T B P × Action T P)}
    {s : State Nat T B P} (room : Room h) (run : (machine B.unbounded E P).Run h s) :
    Linked (issued h) s := by
  induction run with
  | start => exact linked_init E
  | next run step ih =>
    have linked := ih room.before
    rw [issued, Machine.log_snoc]
    exact linked.step (linked.near room.before) (step_cases step)

theorem ring_run {E : Element T} {h : List (State Nat T B P × Action T P)}
    {s : State Nat T B P} (room : Room h) (run : (machine B.unbounded E P).Run h s) :
    Relation.ReflTransGen TicketRing.Step (toRing [] (init B.unbounded E P))
      (toRing (issued h) s) := by
  induction run with
  | start => exact .refl
  | next run step ih =>
    rw [issued, Machine.log_snoc]
    exact (ih room.before).trans
      ((linked_run room.before run).refines (step_cases step)).to_reflTransGen

end Mpsc
