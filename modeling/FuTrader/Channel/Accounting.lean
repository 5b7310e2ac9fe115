import FuTrader.Channel.Delivery
import FuTrader.Lib.Tally
import Mathlib.Tactic.Abel

/- Where the values are. Each value given to push is refused, still with its producer,
   in the buffer, in the hand of the consumer or popped, and in one of these only. -/
namespace Mpsc
variable {κ T : Type} {B : BufSize} {P : Nat}

def Producer.held : Producer κ T → Multiset T
  | .idle => 0
  | .loadTail u _ | .fetchAdd u _ _ | .loadSeq u _ | .wait u _ _ | .parked u _ _
  | .writeData u _ | .storeSeq u _ => {u}

def Consumer.hand : Consumer κ T → Multiset T
  | .storeSeq _ _ value | .notifyOne _ _ value | .storeTail _ _ value => {value}
  | _ => 0

/-- The slot whose value was read and which is not yet free. -/
def Consumer.emptying (C : Counters κ B) : Consumer κ T → Option (Fin B.val)
  | .storeSeq _ pos _ => some (C.slot pos)
  | _ => none

/-- Slot `k` holds a value: its seq is one past a ticket of `k`, and pop has not read it. -/
def content (C : Counters κ B) (buffer : Fin B.val → Slot κ T) (emptying : Option (Fin B.val))
    (k : Fin B.val) : Multiset T :=
  if C.slot (buffer k).seq = C.slot (C.succ (C.ofNat k.val)) ∧ emptying ≠ some k then
    {(buffer k).data}
  else 0

def State.held (s : State κ T B P) : Multiset T := ∑ i, (s.producer i).held

def State.stored (C : Counters κ B) (s : State κ T B P) : Multiset T :=
  ∑ k, content C s.buffer (s.consumer.emptying C) k

def pushOf (_ : State κ T B P) : Action T P → Option T
  | .push _ u => some u
  | _ => none

def refuseOf (C : Counters κ B) (s : State κ T B P) : Action T P → Option T
  | .producer i => match s.producer i with
    | .loadTail u curHead => if C.full curHead s.tail then some u else none
    | _ => none
  | _ => none

theorem refuseOf_eq_some_iff {C : Counters κ B} {s : State κ T B P} {a : Action T P} {u : T} :
    refuseOf C s a = some u ↔ ∃ i curHead, a = .producer i ∧ s.producer i = .loadTail u curHead ∧
      C.full curHead s.tail = true := by
  cases a with
  | producer i =>
    cases pc : s.producer i with
    | loadTail v curHead => by_cases full : C.full curHead s.tail <;> simp [refuseOf, pc, full]
    | _ => simp [refuseOf, pc]
  | _ => simp [refuseOf]

def begun (h : List (State κ T B P × Action T P)) : List T := Machine.log pushOf h

def refused (C : Counters κ B) (h : List (State κ T B P × Action T P)) : List T :=
  Machine.log (refuseOf C) h

def acceptedValues (h : List (State κ T B P × Action T P)) : List T := (accepted h).map Prod.snd

/-! What push was given, on any counters. -/

theorem held_update (s : State κ T B P) (i : Fin P) (p : Producer κ T) :
    (fun j => (Function.update s.producer i p j).held) =
      Function.update (fun j => (s.producer j).held) i p.held :=
  Function.comp_update Producer.held s.producer i p

theorem held_same {s : State κ T B P} {i : Fin P} {p : Producer κ T}
    (same : p.held = (s.producer i).held) : (s.setProducer i p).held = s.held := by
  rw [State.held, setProducer_producer, held_update]
  exact Tally.sum_same same

theorem held_gain {s : State κ T B P} {i : Fin P} {p : Producer κ T}
    (idle : s.producer i = .idle) : (s.setProducer i p).held = s.held + p.held := by
  rw [State.held, setProducer_producer, held_update]
  exact Tally.sum_gain (by rw [idle]; rfl) p.held

theorem held_lose (s : State κ T B P) (i : Fin P) :
    (s.setProducer i .idle).held + (s.producer i).held = s.held := by
  rw [State.held, setProducer_producer, held_update]
  exact Tally.sum_lose (fun j => (s.producer j).held) i

theorem begun_step [DecidableEq κ] {C : Counters κ B} {E : Element T} {s t : State κ T B P}
    {a : Action T P} (step : Step C E s a t) :
    s.held + ((pushOf s a).toList : Multiset T) =
      ((acceptOf s a).toList.map Prod.snd : List T) + t.held + (refuseOf C s a).toList := by
  cases step with
  | push i u pc =>
    rw [held_gain pc]
    simp [pushOf, acceptOf, refuseOf, Producer.held]
  | refuse i u curHead pc full =>
    rw [← held_lose s i, pc]
    simp [pushOf, acceptOf, refuseOf, pc, full, Producer.held]
  | publish i u pos pc =>
    rw [← held_lose s i, pc]
    simp [pushOf, acceptOf, refuseOf, pc, Producer.held, State.held, add_comm]
  | pass i u curHead pc room =>
    rw [held_same]
    · simp [pushOf, acceptOf, refuseOf, pc, room]
    · rw [pc]
      rfl
  | ticket i u curHead curTail pc | turn i u pos pc now | busy i u pos pc other
  | park i u pos seqVal pc same | changed i u pos seqVal pc other | write i u pos pc
  | spurious i u pos seqVal pc =>
    rw [held_same]
    · simp [pushOf, acceptOf, refuseOf, pc, State.held]
    · simp only [setSlot_producer, pc]
      rfl
  | wake i k pos value u q seqVal pc parked =>
    rw [held_same]
    · simp [pushOf, acceptOf, refuseOf, State.held]
    · simp only [setConsumer_producer, parked]
      rfl
  | pop k pc | empty k pos pc other | ready k pos pc filled | read k pos pc
  | free k pos value pc | nobody k pos value pc none | advance k pos value pc =>
    simp [State.held, pushOf, acceptOf, refuseOf]

theorem begun_run [DecidableEq κ] {C : Counters κ B} {E : Element T}
    {h : List (State κ T B P × Action T P)} {s : State κ T B P} (run : (machine C E P).Run h s) :
    (begun h : Multiset T) = acceptedValues h + s.held + refused C h := by
  apply Machine.Run.invariant (M := machine C E P)
    (fun h s => (begun h : Multiset T) = acceptedValues h + s.held + refused C h) ?_ ?_ run
  · simp [begun, acceptedValues, accepted, refused, State.held, machine, init, Producer.held]
  intro h s a t _ known step
  have moved := begun_step (step_cases step)
  simp only [begun, acceptedValues, accepted, refused, Machine.log_snoc, List.map_append,
    ← Multiset.coe_add] at known ⊢
  rw [known, add_right_comm, add_assoc _ s.held, moved]
  abel

/-! What the buffer holds, on unbounded counters. -/

section
variable {buffer : Fin B.val → Slot Nat T} {emptying : Option (Fin B.val)} {q : Nat}

theorem content_free {k : Fin B.val} (place : TicketRing.slot B.val q = k)
    (free : (buffer k).seq = q) : content B.unbounded buffer emptying k = 0 := by
  apply if_neg
  intro both
  have same := both.1
  rw [free, unbounded_slot, unbounded_slot, TicketRing.slot_eq_iff, ← place] at same
  simp only [unbounded_succ, unbounded_ofNat, TicketRing.slot, Fin.val_ofNat,
    Nat.mod_add_mod] at same
  exact Counter.succ_mod_ne B.two_le same.symm

theorem content_filled {k : Fin B.val} (place : TicketRing.slot B.val q = k)
    (filled : (buffer k).seq = q + 1) (left : emptying ≠ some k) :
    content B.unbounded buffer emptying k = {(buffer k).data} := by
  refine if_pos ⟨?_, left⟩
  rw [filled, unbounded_slot, unbounded_slot, TicketRing.slot_eq_iff, ← place]
  simp [TicketRing.slot, Nat.mod_add_mod]

theorem content_emptying {k : Fin B.val} : content B.unbounded buffer (some k) k = 0 :=
  if_neg fun both => both.2 rfl

theorem content_update {after : Option (Fin B.val)} {k : Fin B.val} {x : Slot Nat T}
    (others : ∀ j, j ≠ k → (emptying = some j ↔ after = some j)) :
    content B.unbounded (Function.update buffer k x) after =
      Function.update (content B.unbounded buffer emptying) k
        (content B.unbounded (Function.update buffer k x) after k) := by
  funext j
  by_cases here : j = k
  · subst here
    rw [Function.update_self]
  · rw [Function.update_of_ne here]
    simp only [content, Function.update_of_ne here, ne_eq, others j here]

end

theorem stored_update (s : State Nat T B P) {k : Fin B.val} (x : Slot Nat T)
    {c : Consumer Nat T} (others : ∀ j, j ≠ k →
      (s.consumer.emptying B.unbounded = some j ↔ c.emptying B.unbounded = some j)) :
    ((s.setSlot k x).setConsumer c).stored B.unbounded +
        content B.unbounded s.buffer (s.consumer.emptying B.unbounded) k =
      s.stored B.unbounded +
        content B.unbounded (Function.update s.buffer k x) (c.emptying B.unbounded) k := by
  have total := Tally.sum_update (content B.unbounded s.buffer (s.consumer.emptying B.unbounded)) k
    (content B.unbounded (Function.update s.buffer k x) (c.emptying B.unbounded) k)
  rwa [← content_update others] at total

theorem stored_slot (s : State Nat T B P) {k : Fin B.val} (x : Slot Nat T) :
    (s.setSlot k x).stored B.unbounded +
        content B.unbounded s.buffer (s.consumer.emptying B.unbounded) k =
      s.stored B.unbounded + content B.unbounded (Function.update s.buffer k x)
        (s.consumer.emptying B.unbounded) k :=
  stored_update s x (c := s.consumer) fun _ _ => Iff.rfl

@[simp] theorem stored_setProducer (C : Counters κ B) (s : State κ T B P) (i : Fin P)
    (p : Producer κ T) : (s.setProducer i p).stored C = s.stored C := rfl

theorem Linked.owner_not_emptied {log : List (Fin P × T)} {s : State Nat T B P}
    (linked : Linked log s) {i : Fin P} {p : Nat} (owns : (s.producer i).owned = some p) :
    s.consumer.emptying B.unbounded ≠ some (TicketRing.slot B.val p) := by
  intro same
  cases pc : s.consumer with
  | storeSeq k pos value =>
    have apart := linked.owner_not_read owns (show s.consumer.owned = some pos by rw [pc]; rfl)
    rw [pc] at same
    exact apart (Option.some.inj same).symm
  | _ => simp [pc, Consumer.emptying] at same

theorem Linked.stored_step {log : List (Fin P × T)} {E : Element T} {s t : State Nat T B P}
    {a : Action T P} (linked : Linked log s) (step : Step B.unbounded E s a t) :
    s.stored B.unbounded + s.consumer.hand + ((acceptOf s a).toList.map Prod.snd : List T) =
      t.stored B.unbounded + t.consumer.hand + (valueOf s a).toList := by
  cases step with
  | push i u pc => rfl
  | refuse i u curHead pc full | pass i u curHead pc room | ticket i u curHead curTail pc
  | turn i u pos pc now | busy i u pos pc other | park i u pos seqVal pc same
  | changed i u pos seqVal pc other | spurious i u pos seqVal pc =>
    simp [State.stored, acceptOf, valueOf, pc]
  | write i u pos pc =>
    have owns : (s.producer i).owned = some pos := by rw [pc]; rfl
    obtain ⟨_, turn⟩ := linked.owned_turn owns
    have moved := stored_slot s (k := TicketRing.slot B.val pos)
      { s.buffer (TicketRing.slot B.val pos) with data := u }
    rw [content_free rfl turn, content_free rfl (by simpa using turn), add_zero, add_zero] at moved
    simp [acceptOf, valueOf, pc, moved]
  | publish i u pos pc =>
    have owns : (s.producer i).owned = some pos := by rw [pc]; rfl
    obtain ⟨_, turn⟩ := linked.owned_turn owns
    have ok := linked.producers i
    rw [pc] at ok
    have moved := stored_slot s (k := TicketRing.slot B.val pos)
      { s.buffer (TicketRing.slot B.val pos) with seq := pos + 1 }
    rw [content_free rfl turn, content_filled rfl (by simp) (linked.owner_not_emptied owns),
      add_zero] at moved
    simp only [Function.update_self, ok.2.2] at moved
    simp only [acceptOf, valueOf, pc, setProducer_consumer, setSlot_consumer, stored_setProducer,
      unbounded_slot, unbounded_succ, ok.2.2, moved]
    simp [add_right_comm]
  | read k pos pc =>
    have owns : s.consumer.owned = some pos := by rw [pc]; rfl
    obtain ⟨rfl, _, filled⟩ := linked.consumer_ready owns
    have moved := stored_update s (k := TicketRing.slot B.val s.tail)
      { s.buffer (TicketRing.slot B.val s.tail) with
        data := E.moved (s.buffer (TicketRing.slot B.val s.tail)).data }
      (c := .storeSeq k s.tail (s.buffer (TicketRing.slot B.val s.tail)).data)
      (fun j ne => by simp [pc, Consumer.emptying, ne.symm])
    rw [content_filled rfl filled (by simp [pc, Consumer.emptying])] at moved
    simp only [Consumer.emptying, unbounded_slot, content_emptying, add_zero] at moved
    simp [acceptOf, valueOf, pc, ← moved, Consumer.hand]
  | free k pos value pc =>
    have owns : s.consumer.owned = some pos := by rw [pc]; rfl
    obtain ⟨rfl, _, filled⟩ := linked.consumer_ready owns
    have moved := stored_update s (k := TicketRing.slot B.val s.tail)
      { s.buffer (TicketRing.slot B.val s.tail) with seq := s.tail + B.val }
      (c := .notifyOne k s.tail value) (fun j ne => by simp [pc, Consumer.emptying, ne.symm])
    have before : content B.unbounded s.buffer (s.consumer.emptying B.unbounded)
        (TicketRing.slot B.val s.tail) = 0 := by
      rw [pc]
      exact content_emptying
    have lap : TicketRing.slot B.val (s.tail + B.val) = TicketRing.slot B.val s.tail :=
      TicketRing.slot_eq_iff.mpr (Nat.add_mod_right _ _)
    rw [before, content_free lap (by rw [Function.update_self]), add_zero, add_zero] at moved
    simp [acceptOf, valueOf, pc, moved, Consumer.hand]
  | pop k pc | empty k pos pc other | ready k pos pc filled | nobody k pos value pc none
  | advance k pos value pc =>
    simp [State.stored, Consumer.hand, Consumer.emptying, acceptOf, valueOf, pc]
  | wake i k pos value u q seqVal pc parked same =>
    simp [State.stored, Consumer.hand, Consumer.emptying, acceptOf, valueOf, pc]

theorem stored_run {E : Element T} (fits : B.val + P ≤ 2 ^ 64)
    {h : List (State Nat T B P × Action T P)} {s : State Nat T B P}
    (run : (machine B.unbounded E P).Run h s) :
    (acceptedValues h : Multiset T) = popped h + s.consumer.hand + s.stored B.unbounded := by
  apply Machine.Run.invariant (M := machine B.unbounded E P)
    (fun h s => (acceptedValues h : Multiset T) =
      popped h + s.consumer.hand + s.stored B.unbounded) ?_ ?_ run
  · have empty : (init B.unbounded E P).stored B.unbounded = 0 :=
      Finset.sum_eq_zero fun k _ => content_free (q := k.val)
        (Fin.ext (Nat.mod_eq_of_lt k.isLt)) rfl
    simp [acceptedValues, accepted, popped, machine, empty]
    rfl
  intro h s a t run known step
  have moved := (linked_run (.inl fits) run).stored_step (step_cases step)
  simp only [acceptedValues, accepted, popped, Machine.log_snoc, List.map_append,
    ← Multiset.coe_add] at known ⊢
  calc _ = (Machine.log valueOf h : Multiset T) +
        (s.stored B.unbounded + s.consumer.hand +
          ((acceptOf s a).toList.map Prod.snd : List T)) := by
        rw [known]
        abel
    _ = _ := by
        rw [moved]
        abel

theorem stored_image (s : State Nat T B P) :
    s.image.stored B.sizeT = s.stored B.unbounded := by
  have emptied : s.consumer.image.emptying B.sizeT = s.consumer.emptying B.unbounded := by
    cases pc : s.consumer <;> simp [Consumer.image, Consumer.emptying]
  apply Finset.sum_congr rfl
  intro k _
  have next : B.sizeT.ofNat k.val = BitVec.ofNat 64 k.val := rfl
  simp only [content, image_consumer, emptied, image_buffer, image_seq, image_data, sizeT_slot,
    next, sizeT_succ, unbounded_slot, unbounded_succ, unbounded_ofNat]
  congr

theorem accepted_sizeT {E : Element T} (fits : B.val + P ≤ 2 ^ 64)
    {h : List (State SizeT T B P × Action T P)} {s : State SizeT T B P}
    (run : (machine B.sizeT E P).Run h s) :
    (acceptedValues h : Multiset T) = popped h + s.consumer.hand + s.stored B.sizeT := by
  obtain ⟨k, t, below, rfl, rfl⟩ := sizeT_run (.inl fits) run
  have hand : t.image.consumer.hand = t.consumer.hand := by
    cases pc : t.consumer <;> simp [pc, Consumer.image, Consumer.hand]
  rw [acceptedValues, accepted_image, popped_image, hand, stored_image]
  exact stored_run fits below

end Mpsc
