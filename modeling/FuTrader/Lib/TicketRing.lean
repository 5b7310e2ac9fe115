import FuTrader.Lib.Counter
import Mathlib.Logic.Function.Basic

/- A ring of `b` slots shared by agents that draw tickets `0, 1, 2, ...`.
   Ticket `q` uses the slot of its residue. The slot's sequence number says
   whose turn it is: `q` when the slot waits for ticket `q`, `q + 1` when it
   holds the value of ticket `q`. Slots are emptied in ticket order. -/
structure TicketRing (ι α : Type) (b : Nat) where
  log : List (ι × α)
  freed : Nat
  taken : Bool
  seq : Fin b → Nat
  data : Fin b → α
  hold : ι → Option Nat

namespace TicketRing
variable {ι α : Type} {b : Nat} [NeZero b]

def slot (b : Nat) [NeZero b] (q : Nat) : Fin b := Fin.ofNat b q

theorem slot_eq_iff {p q : Nat} : slot b p = slot b q ↔ p % b = q % b := Fin.ext_iff

theorem slot_apart {p q : Nat} (less : p < q) (near : q < p + b) : slot b q ≠ slot b p := by
  intro same
  have := Counter.next_lap less (slot_eq_iff.mp same).symm
  omega

def Waits (r : TicketRing ι α b) (q : Nat) : Prop := r.seq (slot b q) = q
def Filled (r : TicketRing ι α b) (q : Nat) : Prop := r.seq (slot b q) = q + 1

/- `taken` is set while the oldest value has left its slot and the slot is not yet free. -/
inductive Step [DecidableEq ι] (r : TicketRing ι α b) : TicketRing ι α b → Prop where
  | issue (i : ι) (u : α) (without : r.hold i = none) :
      Step r { r with
        log := r.log ++ [(i, u)]
        hold := Function.update r.hold i (some r.log.length) }
  | write (i : ι) (p : Nat) (u : α) (holds : r.hold i = some p) (turn : r.Waits p) :
      Step r { r with data := Function.update r.data (slot b p) u }
  | publish (i : ι) (p : Nat) (holds : r.hold i = some p) (turn : r.Waits p)
      (written : r.log[p]? = some (i, r.data (slot b p))) :
      Step r { r with
        seq := Function.update r.seq (slot b p) (p + 1)
        hold := Function.update r.hold i none }
  | take (rest : α) (ready : r.Filled r.freed) :
      Step r { r with
        data := Function.update r.data (slot b r.freed) rest
        taken := true }
  | free (ready : r.Filled r.freed) :
      Step r { r with
        seq := Function.update r.seq (slot b r.freed) (r.freed + b)
        freed := r.freed + 1
        taken := false }

structure Inv (r : TicketRing ι α b) : Prop where
  freed_le : r.freed ≤ r.log.length
  held : ∀ {i p}, r.hold i = some p → ∃ u, r.log[p]? = some (i, u)
  floor : ∀ {i p}, r.hold i = some p → r.freed ≤ p
  turns : ∀ q, r.freed ≤ q → q < r.freed + b → r.Waits q ∨ r.Filled q ∧ q < r.log.length
  unfilled : ∀ {i p}, r.hold i = some p → p < r.freed + b → r.Waits p
  kept : ∀ q, r.freed ≤ q → q < r.log.length →
    (∃ i, r.hold i = some q) ∨ r.Filled q ∧ q < r.freed + b
  stored : ∀ q, r.freed ≤ q → q < r.freed + b → r.Filled q → ¬ (q = r.freed ∧ r.taken = true) →
    ∃ i, r.log[q]? = some (i, r.data (slot b q))

theorem not_waits_of_filled {r : TicketRing ι α b} {q : Nat} (filled : r.Filled q) :
    ¬ r.Waits q := by
  unfold Waits Filled at *
  omega

theorem held_lt {r : TicketRing ι α b} (inv : r.Inv) {i : ι} {p : Nat}
    (holds : r.hold i = some p) : p < r.log.length := by
  obtain ⟨u, entry⟩ := inv.held holds
  exact (List.getElem?_eq_some_iff.mp entry).1

theorem holder_unique {r : TicketRing ι α b} (inv : r.Inv) {i j : ι} {p : Nat}
    (hi : r.hold i = some p) (hj : r.hold j = some p) : i = j := by
  obtain ⟨u, ei⟩ := inv.held hi
  obtain ⟨v, ej⟩ := inv.held hj
  rw [ei] at ej
  exact (Prod.mk.inj (Option.some.inj ej)).1

theorem seq_of_ticket {r : TicketRing ι α b} (inv : r.Inv) {p : Nat} (floor : r.freed ≤ p) :
    ∃ q, r.freed ≤ q ∧ q < r.freed + b ∧ q ≤ p ∧ slot b q = slot b p ∧
      (r.seq (slot b p) = q ∨ r.seq (slot b p) = q + 1) := by
  obtain ⟨q, low, high, le, same⟩ := Counter.window_meets (Nat.pos_of_neZero b) floor
  have slots : slot b q = slot b p := slot_eq_iff.mpr same
  refine ⟨q, low, high, le, slots, ?_⟩
  rw [← slots]
  exact (inv.turns q low high).imp id And.left

theorem waits_lt {r : TicketRing ι α b} (two : 2 ≤ b) (inv : r.Inv) {p : Nat}
    (floor : r.freed ≤ p) (turn : r.Waits p) : p < r.freed + b := by
  obtain ⟨q, low, high, le, same, now | now⟩ := seq_of_ticket inv floor
  · rw [Waits, now] at turn
    omega
  · rw [Waits, now] at turn
    have := Counter.succ_mod_ne two (n := q)
    rw [turn] at this
    exact absurd (slot_eq_iff.mp same).symm this

theorem waits_iff {r : TicketRing ι α b} (two : 2 ≤ b) (inv : r.Inv) {i : ι} {p : Nat}
    (holds : r.hold i = some p) : r.Waits p ↔ p < r.freed + b :=
  ⟨waits_lt two inv (inv.floor holds), inv.unfilled holds⟩

theorem same_turn {r : TicketRing ι α b} {p q : Nat} (turn : r.Waits p) (other : r.Waits q)
    (same : slot b p = slot b q) : p = q := by
  unfold Waits at *
  rw [← turn, same, other]

theorem turn_exclusive {r : TicketRing ι α b} (inv : r.Inv) {i j : ι} {p q : Nat}
    (hi : r.hold i = some p) (turn : r.Waits p) (hj : r.hold j = some q) (other : r.Waits q)
    (same : slot b p = slot b q) : i = j := by
  have eq := same_turn turn other same
  subst eq
  exact holder_unique inv hi hj

theorem turn_not_oldest {r : TicketRing ι α b} (two : 2 ≤ b) (inv : r.Inv) {i : ι} {p : Nat}
    (holds : r.hold i = some p) (turn : r.Waits p) (ready : r.Filled r.freed) :
    slot b p ≠ slot b r.freed := by
  intro same
  have high := waits_lt two inv (inv.floor holds) turn
  have pos := Nat.pos_of_neZero b
  have eq := Counter.window_unique (inv.floor holds) high (Nat.le_refl _) (by omega)
    (slot_eq_iff.mp same)
  subst eq
  exact not_waits_of_filled ready turn

/-- Tickets that are out and not filled are no more than the agents that can hold them. -/
theorem issued_le [Fintype ι] [DecidableEq ι] {r : TicketRing ι α b} (inv : r.Inv)
    (agents : Finset ι) (holders : ∀ i q, r.hold i = some q → r.freed + b ≤ q → i ∈ agents) :
    r.log.length ≤ r.freed + b + agents.card := by
  apply Counter.held_le_card r.hold agents
  intro q low high
  rcases inv.kept q (by omega) high with ⟨i, holds⟩ | ⟨_, less⟩
  · exact ⟨i, holders i q holds low, holds⟩
  · omega

/-! Each step keeps the invariant. -/

theorem inv_init (b : Nat) [NeZero b] (init : Fin b → α) :
    Inv (ι := ι) ⟨[], 0, false, fun k => k.val, init, fun _ => none⟩ := by
  refine ⟨Nat.le_refl _, by simp, by simp, ?_, by simp, by simp, ?_⟩
  · intro q _ high
    left
    exact Nat.mod_eq_of_lt (by simpa using high)
  · intro q _ high filled
    have : q % b = q + 1 := filled
    rw [Nat.mod_eq_of_lt (by simpa using high)] at this
    omega

theorem inv_issue [DecidableEq ι] {r : TicketRing ι α b} (inv : r.Inv) (i : ι) (u : α)
    (without : r.hold i = none) : Inv { r with
      log := r.log ++ [(i, u)]
      hold := Function.update r.hold i (some r.log.length) } := by
  have shorter := inv.freed_le
  have fresh : ∀ {j p}, Function.update r.hold i (some r.log.length) j = some p →
      (j = i ∧ p = r.log.length) ∨ r.hold j = some p := by
    intro j p holds
    by_cases same : j = i
    · subst same
      simp only [Function.update_self, Option.some.injEq] at holds
      exact Or.inl ⟨rfl, holds.symm⟩
    · exact Or.inr (by simpa [same] using holds)
  refine ⟨?_, ?_, ?_, ?_, ?_, ?_, ?_⟩
  · simp only [List.length_append, List.length_singleton]
    omega
  · intro j p holds
    rcases fresh holds with ⟨rfl, rfl⟩ | old
    · exact ⟨u, by simp⟩
    · obtain ⟨v, entry⟩ := inv.held old
      exact ⟨v, by rw [List.getElem?_append_left (held_lt inv old)]; exact entry⟩
  · intro j p holds
    rcases fresh holds with ⟨_, rfl⟩ | old
    · exact shorter
    · exact inv.floor old
  · intro q low high
    rcases inv.turns q low high with waits | ⟨filled, less⟩
    · exact Or.inl waits
    · exact Or.inr ⟨filled, by simp only [List.length_append]; omega⟩
  · intro j p holds high
    rcases fresh holds with ⟨_, rfl⟩ | old
    · rcases inv.turns _ shorter high with waits | ⟨_, less⟩
      · exact waits
      · omega
    · exact inv.unfilled old high
  · intro q low less
    simp only [List.length_append, List.length_singleton] at less
    by_cases last : q = r.log.length
    · exact Or.inl ⟨i, by simp [last]⟩
    · rcases inv.kept q low (by omega) with ⟨j, holds⟩ | filled
      · have other : j ≠ i := by
          rintro rfl
          simp [without] at holds
        exact Or.inl ⟨j, by simpa [other] using holds⟩
      · exact Or.inr filled
  · intro q low high filled left
    obtain ⟨j, entry⟩ := inv.stored q low high filled left
    have less := (List.getElem?_eq_some_iff.mp entry).1
    exact ⟨j, by rw [List.getElem?_append_left less]; exact entry⟩

theorem inv_write {r : TicketRing ι α b} (two : 2 ≤ b) (inv : r.Inv) {i : ι} {p : Nat} (u : α)
    (holds : r.hold i = some p) (turn : r.Waits p) :
    Inv { r with data := Function.update r.data (slot b p) u } := by
  refine ⟨inv.freed_le, inv.held, inv.floor, inv.turns, inv.unfilled, inv.kept, ?_⟩
  intro q low high filled left
  obtain ⟨j, entry⟩ := inv.stored q low high filled left
  have apart : slot b q ≠ slot b p := by
    intro same
    have eq := Counter.window_unique low high (inv.floor holds)
      (waits_lt two inv (inv.floor holds) turn) (slot_eq_iff.mp same)
    subst eq
    exact not_waits_of_filled filled turn
  exact ⟨j, by simpa [apart] using entry⟩

theorem inv_publish [DecidableEq ι] {r : TicketRing ι α b} (two : 2 ≤ b) (inv : r.Inv)
    {i : ι} {p : Nat} (holds : r.hold i = some p) (turn : r.Waits p)
    (written : r.log[p]? = some (i, r.data (slot b p))) : Inv { r with
      seq := Function.update r.seq (slot b p) (p + 1)
      hold := Function.update r.hold i none } := by
  have low := inv.floor holds
  have high := waits_lt two inv low turn
  have other : ∀ {j q}, Function.update r.hold i none j = some q → j ≠ i ∧ r.hold j = some q := by
    intro j q still
    by_cases same : j = i
    · simp [same] at still
    · exact ⟨same, by simpa [same] using still⟩
  have unique : ∀ {q}, r.freed ≤ q → q < r.freed + b → slot b q = slot b p → q = p :=
    fun lowq highq same => Counter.window_unique lowq highq low high (slot_eq_iff.mp same)
  refine ⟨inv.freed_le, ?_, ?_, ?_, ?_, ?_, ?_⟩
  · intro j q still
    exact inv.held (other still).2
  · intro j q still
    exact inv.floor (other still).2
  · intro q lowq highq
    by_cases same : slot b q = slot b p
    · have eq := unique lowq highq same
      subst eq
      exact Or.inr ⟨by simp [Filled], held_lt inv holds⟩
    · simpa [Waits, Filled, same] using inv.turns q lowq highq
  · intro j q still highq
    obtain ⟨ne, holdsj⟩ := other still
    have same : slot b q ≠ slot b p := by
      intro same
      have eq := unique (inv.floor holdsj) highq same
      subst eq
      exact ne (holder_unique inv holdsj holds)
    simpa [Waits, same] using inv.unfilled holdsj highq
  · intro q lowq less
    by_cases now : q = p
    · subst now
      exact Or.inr ⟨by simp [Filled], high⟩
    · rcases inv.kept q lowq less with ⟨j, holdsj⟩ | ⟨filled, highq⟩
      · have ne : j ≠ i := by
          rintro rfl
          exact now (Option.some.inj (holdsj.symm.trans holds))
        exact Or.inl ⟨j, by simpa [ne] using holdsj⟩
      · have same : slot b q ≠ slot b p := fun same => now (unique lowq highq same)
        exact Or.inr ⟨by simpa [Filled, same] using filled, highq⟩
  · intro q lowq highq filled left
    by_cases same : slot b q = slot b p
    · have eq := unique lowq highq same
      subst eq
      exact ⟨i, written⟩
    · exact inv.stored q lowq highq (by simpa [Filled, same] using filled) left

theorem inv_take {r : TicketRing ι α b} (inv : r.Inv) (rest : α) : Inv { r with
      data := Function.update r.data (slot b r.freed) rest
      taken := true } := by
  have pos := Nat.pos_of_neZero b
  refine ⟨inv.freed_le, inv.held, inv.floor, inv.turns, inv.unfilled, inv.kept, ?_⟩
  intro q (low : r.freed ≤ q) (high : q < r.freed + b) filled left
  have newer : q ≠ r.freed := fun eq => left ⟨eq, rfl⟩
  have apart : slot b q ≠ slot b r.freed := by
    intro same
    exact newer (Counter.window_unique low high (Nat.le_refl _) (by omega) (slot_eq_iff.mp same))
  obtain ⟨j, entry⟩ := inv.stored q low high filled fun both => newer both.1
  exact ⟨j, by simpa [apart] using entry⟩

theorem inv_free {r : TicketRing ι α b} (inv : r.Inv) (ready : r.Filled r.freed) : Inv { r with
      seq := Function.update r.seq (slot b r.freed) (r.freed + b)
      freed := r.freed + 1
      taken := false } := by
  have pos := Nat.pos_of_neZero b
  have issued : r.freed < r.log.length := by
    rcases inv.turns r.freed (Nat.le_refl _) (by omega) with waits | ⟨_, less⟩
    · exact absurd waits (not_waits_of_filled ready)
    · exact less
  have beyond : ∀ {i p}, r.hold i = some p → r.freed + 1 ≤ p := by
    intro i p holds
    have floor := inv.floor holds
    by_contra oldest
    have eq : p = r.freed := by omega
    subst eq
    exact not_waits_of_filled ready (inv.unfilled holds (by omega))
  have apart : ∀ {q}, r.freed + 1 ≤ q → q < r.freed + b → slot b q ≠ slot b r.freed := by
    intro q low high same
    have := Counter.window_unique (by omega) high (Nat.le_refl _) (by omega) (slot_eq_iff.mp same)
    omega
  have lap : slot b (r.freed + b) = slot b r.freed := slot_eq_iff.mpr (Nat.add_mod_right _ _)
  refine ⟨issued, inv.held, beyond, ?_, ?_, ?_, ?_⟩
  · intro q (low : r.freed + 1 ≤ q) (high : q < r.freed + 1 + b)
    by_cases last : q = r.freed + b
    · subst last
      exact Or.inl (by simp [Waits, lap])
    · have ne := apart low (by omega)
      simpa [Waits, Filled, ne] using inv.turns q (by omega) (by omega)
  · intro i p holds (high : p < r.freed + 1 + b)
    by_cases last : p = r.freed + b
    · subst last
      simp [Waits, lap]
    · have ne := apart (beyond holds) (by omega)
      simpa [Waits, ne] using inv.unfilled holds (by omega)
  · intro q (low : r.freed + 1 ≤ q) less
    rcases inv.kept q (by omega) less with holder | ⟨filled, high⟩
    · exact Or.inl holder
    · exact Or.inr ⟨by simpa [Filled, apart low high] using filled,
        show q < r.freed + 1 + b by omega⟩
  · intro q (low : r.freed + 1 ≤ q) (high : q < r.freed + 1 + b) filled _
    by_cases last : q = r.freed + b
    · subst last
      simp [Filled, lap] at filled
    · have ne := apart low (by omega)
      exact inv.stored q (by omega) (by omega) (by simpa [Filled, ne] using filled) (by omega)

theorem inv_step [DecidableEq ι] {r t : TicketRing ι α b} (two : 2 ≤ b) (inv : r.Inv)
    (step : r.Step t) : t.Inv := by
  cases step with
  | issue i u without => exact inv_issue inv i u without
  | write i p u holds turn => exact inv_write two inv u holds turn
  | publish i p holds turn written => exact inv_publish two inv holds turn written
  | take rest ready => exact inv_take inv rest
  | free ready => exact inv_free inv ready

end TicketRing
