import Mathlib.Algebra.GroupWithZero.Nat
import Mathlib.Data.Fintype.Card
import Mathlib.Order.Interval.Finset.Nat
import Mathlib.Tactic.Common

/- Free-running counters. A counter of `w` bits is the image of an unbounded
   one, and two images can be told apart while the unbounded values are less
   than one turn of the counter away from each other. -/
namespace Counter

theorem ofNat_eq_iff {w a b : Nat} (left : a < b + 2 ^ w) (right : b < a + 2 ^ w) :
    BitVec.ofNat w a = BitVec.ofNat w b ↔ a = b := by
  constructor
  · intro same
    have images := congrArg BitVec.toNat same
    simp only [BitVec.toNat_ofNat] at images
    rcases Nat.le_total a b with le | le
    · have zero := Nat.sub_mod_eq_zero_of_mod_eq images.symm
      have := Nat.eq_zero_of_dvd_of_lt (Nat.dvd_of_mod_eq_zero zero) (by omega)
      omega
    · have zero := Nat.sub_mod_eq_zero_of_mod_eq images
      have := Nat.eq_zero_of_dvd_of_lt (Nat.dvd_of_mod_eq_zero zero) (by omega)
      omega
  · rintro rfl
    rfl

theorem toNat_sub {w a b : Nat} (le : b ≤ a) (near : a < b + 2 ^ w) :
    (BitVec.ofNat w a - BitVec.ofNat w b).toNat = a - b := by
  obtain ⟨d, rfl⟩ := Nat.exists_eq_add_of_le le
  have image : BitVec.ofNat w (b + d) - BitVec.ofNat w b = BitVec.ofNat w d := by
    rw [BitVec.ofNat_add, BitVec.add_comm, BitVec.add_sub_cancel]
  rw [image, BitVec.toNat_ofNat, Nat.mod_eq_of_lt (by omega), Nat.add_sub_cancel_left]

theorem toNat_and_mask {w k : Nat} (fits : k ≤ w) (n : Nat) :
    (BitVec.ofNat w n &&& BitVec.ofNat w (2 ^ k - 1)).toNat = n % 2 ^ k := by
  have bound : 2 ^ k ≤ 2 ^ w := Nat.pow_le_pow_right (by decide) fits
  have pos := Nat.two_pow_pos k
  rw [BitVec.toNat_and, BitVec.toNat_ofNat, BitVec.toNat_ofNat,
    Nat.mod_eq_of_lt (show 2 ^ k - 1 < 2 ^ w by omega), Nat.and_two_pow_sub_one_eq_mod,
    Nat.mod_mod_of_dvd _ (Nat.pow_dvd_pow 2 fits)]

/-! Windows of `b` consecutive numbers, one for each residue modulo `b`. -/

theorem next_lap {b p q : Nat} (less : p < q) (same : p % b = q % b) : p + b ≤ q := by
  have zero := Nat.sub_mod_eq_zero_of_mod_eq same.symm
  have := Nat.le_of_dvd (by omega) (Nat.dvd_of_mod_eq_zero zero)
  omega

theorem window_unique {b lo p q : Nat} (lop : lo ≤ p) (hip : p < lo + b)
    (loq : lo ≤ q) (hiq : q < lo + b) (same : p % b = q % b) : p = q := by
  rcases Nat.lt_trichotomy p q with less | eq | more
  · have := next_lap less same
    omega
  · exact eq
  · have := next_lap more same.symm
    omega

theorem window_meets {b lo n : Nat} (pos : 0 < b) (le : lo ≤ n) :
    ∃ q, lo ≤ q ∧ q < lo + b ∧ q ≤ n ∧ q % b = n % b := by
  have small := Nat.mod_lt (n - lo) pos
  have less := Nat.mod_le (n - lo) b
  refine ⟨lo + (n - lo) % b, by omega, by omega, by omega, ?_⟩
  rw [Nat.add_mod_mod, Nat.add_sub_cancel' le]

theorem window_covers {b lo i : Nat} (less : i < b) :
    ∃ q, lo ≤ q ∧ q < lo + b ∧ q % b = i := by
  have pos : 0 < b := by omega
  have far : lo ≤ b * lo + i :=
    Nat.le_trans (Nat.le_mul_of_pos_left lo pos) (Nat.le_add_right _ _)
  obtain ⟨q, low, high, _, same⟩ := window_meets pos far
  refine ⟨q, low, high, ?_⟩
  rw [same, Nat.mul_add_mod, Nat.mod_eq_of_lt less]

theorem succ_mod_ne {b n : Nat} (two : 2 ≤ b) : (n + 1) % b ≠ n % b := by
  intro same
  have := next_lap (Nat.lt_succ_self n) same.symm
  omega

/-! Agents that hold at most one number each. -/

theorem held_le_card {ι : Type} [Fintype ι] [DecidableEq ι] (hold : ι → Option Nat)
    (agents : Finset ι) {lo hi : Nat}
    (held : ∀ q, lo ≤ q → q < hi → ∃ i ∈ agents, hold i = some q) : hi ≤ lo + agents.card := by
  have covered : Finset.Ico lo hi ⊆ agents.image fun i => (hold i).getD 0 := by
    intro q member
    obtain ⟨low, high⟩ := Finset.mem_Ico.mp member
    obtain ⟨i, agent, holds⟩ := held q low high
    exact Finset.mem_image.mpr ⟨i, agent, by simp [holds]⟩
  have bound := (Finset.card_le_card covered).trans Finset.card_image_le
  rw [Nat.card_Ico] at bound
  omega

end Counter
