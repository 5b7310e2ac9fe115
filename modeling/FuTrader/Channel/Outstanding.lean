import FuTrader.Channel.Accounting
import FuTrader.Channel.Admission
import Mathlib.Algebra.Order.BigOperators.Group.Finset

/- The tickets drawn that pop has not passed, `_head - _tail`. While no pop runs they
   tell whether a push waits for one, and whether the queue holds a value. -/
namespace Mpsc
variable {T : Type} {B : BufSize} {P : Nat}

def State.outstanding (s : State SizeT T B P) : Nat := (s.head - s.tail).toNat

def Waiting {κ : Type} (C : Counters κ B) (s : State κ T B P) : Prop :=
  ∃ i pos, (s.producer i).ticket = some pos ∧ (s.buffer (C.slot pos)).seq ≠ pos

theorem Linked.outstanding {log : List (Fin P × T)} {s : State Nat T B P}
    (linked : Linked log s) (room : B.val + P + 2 < 2 ^ 64) :
    s.tail ≤ s.head ∧ s.image.outstanding = s.head - s.tail := by
  have old := linked.tail_le
  have bound := linked.head_le
  have freed := freed_le_succ_tail s
  have count := linked.count
  have le : s.tail ≤ s.head := by omega
  exact ⟨le, Counter.toNat_sub le (by omega)⟩

theorem outstanding_le {E : Element T} (room : B.val + P + 2 < 2 ^ 64)
    {s : State SizeT T B P} (reach : (machine B.sizeT E P).Reachable s) :
    s.outstanding ≤ B.val + P + 1 := by
  obtain ⟨log, t, _, linked, rfl⟩ := sizeT_reachable (by omega) reach
  have bound := linked.head_le
  have freed := freed_le_succ_tail t
  rw [(linked.outstanding room).2]
  omega

theorem outstanding_ticket {E : Element T} (room : B.val + P + 2 < 2 ^ 64)
    {s t : State SizeT T B P} {a : Action T P} (reach : (machine B.sizeT E P).Reachable s)
    (step : Step B.sizeT E s a t) (issues : ticketOf s a ≠ none) :
    t.outstanding = s.outstanding + 1 := by
  have bound := outstanding_le room reach
  cases step with
  | ticket i u curHead curTail pc =>
    have next : s.head + 1 - s.tail = s.head - s.tail + 1 := by
      rw [BitVec.sub_eq_add_neg, BitVec.sub_eq_add_neg, BitVec.add_assoc, BitVec.add_comm 1,
        BitVec.add_assoc]
    change (s.head + 1 - s.tail).toNat = (s.head - s.tail).toNat + 1
    change (s.head - s.tail).toNat ≤ B.val + P + 1 at bound
    have one : (1 : SizeT).toNat = 1 := rfl
    rw [next, BitVec.toNat_add, one, Nat.mod_eq_of_lt]
    exact Nat.lt_of_le_of_lt (Nat.add_le_add_right bound 1) room
  | _ => simp [ticketOf, *] at issues

theorem outstanding_kept {E : Element T} {s t : State SizeT T B P} {a : Action T P}
    (step : Step B.sizeT E s a t) (idle : s.consumer = .idle) (none : ticketOf s a = none) :
    t.outstanding = s.outstanding := by
  cases step with
  | ticket i u curHead curTail pc => simp [ticketOf, pc] at none
  | advance k pos value pc => simp [idle] at pc
  | _ => rfl

theorem Linked.waiting_iff {log : List (Fin P × T)} {s : State Nat T B P}
    (linked : Linked log s) (freed : s.freed = s.tail) :
    Waiting B.unbounded s ↔ s.tail + B.val < s.head := by
  have turn : ∀ {i pos}, (s.producer i).ticket = some pos →
      ((s.buffer (TicketRing.slot B.val pos)).seq = pos ↔ pos < s.tail + B.val) := by
    intro i pos ticket
    rw [← freed]
    exact TicketRing.waits_iff B.two_le linked.ring (p := pos) ticket
  constructor
  · rintro ⟨i, pos, ticket, other⟩
    have low := mt (turn ticket).mpr other
    have high := linked.ticket_lt ticket
    omega
  · intro past
    have drawn : s.tail + B.val < log.length := by
      rw [linked.count]
      exact past
    rcases linked.ring.kept (s.tail + B.val)
      (by change s.freed ≤ s.tail + B.val; omega) drawn with ⟨i, holds⟩ | ⟨_, less⟩
    · refine ⟨i, s.tail + B.val, holds, fun now => ?_⟩
      have := (turn holds).mp now
      omega
    · change s.tail + B.val < s.freed + B.val at less
      omega

theorem waiting_image {log : List (Fin P × T)} {s : State Nat T B P} (linked : Linked log s)
    (near : s.head ≤ s.freed + 2 ^ 64) : Waiting B.sizeT s.image ↔ Waiting B.unbounded s := by
  constructor
  · rintro ⟨i, pos, ticket, other⟩
    obtain ⟨q, held, rfl⟩ : ∃ q, (s.producer i).ticket = some q ∧ BitVec.ofNat 64 q = pos := by
      rw [image_producer] at ticket
      cases pc : s.producer i <;> simp_all [Producer.image, Producer.ticket]
    rw [sizeT_slot, image_buffer, image_seq] at other
    exact ⟨i, q, held, fun now => other ((linked.turn_iff near held).mpr now)⟩
  · rintro ⟨i, pos, ticket, other⟩
    refine ⟨i, BitVec.ofNat 64 pos, ?_, ?_⟩
    · rw [image_producer]
      cases pc : s.producer i <;> simp_all [Producer.image, Producer.ticket]
    · rw [sizeT_slot, image_buffer, image_seq]
      exact fun now => other ((linked.turn_iff near ticket).mp now)

theorem image_idle_consumer {s : State Nat T B P} (idle : s.image.consumer = .idle) :
    s.freed = s.tail ∧ s.consumer.emptying B.unbounded = none := by
  rw [image_consumer] at idle
  cases pc : s.consumer <;> simp_all [Consumer.image, State.freed, Consumer.emptying]

/-- Without a pop, a push waits exactly if more than `BufSize` tickets are out. -/
theorem waiting_iff {E : Element T} (room : B.val + P + 2 < 2 ^ 64) {s : State SizeT T B P}
    (reach : (machine B.sizeT E P).Reachable s) (idle : s.consumer = .idle) :
    Waiting B.sizeT s ↔ B.val < s.outstanding := by
  obtain ⟨log, t, _, linked, rfl⟩ := sizeT_reachable (by omega) reach
  obtain ⟨le, count⟩ := linked.outstanding room
  have bound := linked.head_le
  rw [waiting_image linked (by omega), linked.waiting_iff (image_idle_consumer idle).1, count]
  omega

theorem outstanding_admitted {E : Element T} (room : B.val + P + 2 < 2 ^ 64)
    {s : State SizeT T B P} (reach : (machine B.sizeT E P).Reachable s)
    (idle : s.consumer = .idle) : s.outstanding ≤ B.val + (P - 1) := by
  obtain ⟨log, t, below, linked, rfl⟩ := sizeT_reachable (by omega) reach
  have bound := linked.head_lt (admitted_reachable (by omega) below)
  rw [(image_idle_consumer idle).1] at bound
  rw [(linked.outstanding room).2]
  omega

theorem next_slot_free {E : Element T} (room : B.val + P + 2 < 2 ^ 64)
    {s : State SizeT T B P} (reach : (machine B.sizeT E P).Reachable s)
    (idle : s.consumer = .idle) (few : s.outstanding < B.val) :
    (s.buffer (B.sizeT.slot s.head)).seq = s.head := by
  obtain ⟨log, t, _, linked, rfl⟩ := sizeT_reachable (by omega) reach
  obtain ⟨le, count⟩ := linked.outstanding room
  have freed := (image_idle_consumer idle).1
  rw [count] at few
  rw [image_head, sizeT_slot, image_buffer, image_seq]
  congr 1
  rcases linked.ring.turns t.head (show t.freed ≤ t.head by omega)
    (show t.head < t.freed + B.val by omega) with waits | ⟨_, less⟩
  · exact waits
  · exact absurd linked.count (Nat.ne_of_gt less)

/-- With neither push nor pop running, the queue is empty exactly if no ticket is out. -/
theorem Linked.stored_zero_iff {log : List (Fin P × T)} {s : State Nat T B P}
    (linked : Linked log s) (freed : s.freed = s.tail)
    (emptying : s.consumer.emptying B.unbounded = none)
    (quiet : ∀ i, (s.producer i).ticket = none) :
    s.stored B.unbounded = 0 ↔ s.head = s.tail := by
  have size := Nat.pos_of_neZero B.val
  rw [State.stored, emptying]
  constructor
  · intro empty
    by_contra other
    have old := linked.tail_le
    have drawn : s.tail < log.length := by
      have count := linked.count
      omega
    rcases linked.ring.kept s.tail (Nat.le_of_eq freed) drawn with ⟨i, holds⟩ | ⟨filled, _⟩
    · exact absurd holds (by simp [toRing, quiet i])
    · have zero := Finset.sum_eq_zero_iff.mp empty (TicketRing.slot B.val s.tail)
        (Finset.mem_univ _)
      rw [content_filled rfl filled (by simp)] at zero
      simp at zero
  · intro same
    apply Finset.sum_eq_zero
    intro k _
    obtain ⟨q, low, high, residue⟩ := @Counter.window_covers B.val s.tail k k.isLt
    have place : TicketRing.slot B.val q = k := Fin.ext residue
    apply content_free place
    rw [← place]
    rcases linked.ring.turns q (show s.freed ≤ q by omega)
      (show q < s.freed + B.val by omega) with waits | ⟨_, less⟩
    · exact waits
    · have count := linked.count
      change q < log.length at less
      omega

theorem stored_zero_iff {E : Element T} (room : B.val + P + 2 < 2 ^ 64) {s : State SizeT T B P}
    (reach : (machine B.sizeT E P).Reachable s) (idle : s.consumer = .idle)
    (quiet : ∀ i, s.producer i = .idle) : s.stored B.sizeT = 0 ↔ s.outstanding = 0 := by
  obtain ⟨log, t, _, linked, rfl⟩ := sizeT_reachable (by omega) reach
  obtain ⟨le, count⟩ := linked.outstanding room
  obtain ⟨freed, emptying⟩ := image_idle_consumer idle
  have none : ∀ i, (t.producer i).ticket = none := by
    intro i
    have still := quiet i
    rw [image_producer] at still
    cases pc : t.producer i <;> simp_all [Producer.image, Producer.ticket]
  rw [stored_image, linked.stored_zero_iff freed emptying none, count]
  omega

end Mpsc
