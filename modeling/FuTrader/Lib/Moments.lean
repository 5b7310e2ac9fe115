import Mathlib.Algebra.BigOperators.Ring.List
import Mathlib.Algebra.Field.Basic
import Mathlib.Algebra.Order.Field.Basic
import Mathlib.Algebra.Order.BigOperators.Group.List
import Mathlib.Tactic.FieldSimp
import Mathlib.Tactic.Ring

/- Mean and squared deviations of a list of numbers, from two passes and from the sums of
   the numbers and of their squares. -/
namespace Moments

section
variable {K : Type} [Field K]

def mean (xs : List K) : K := xs.sum / xs.length

def deviations (xs : List K) : K := (xs.map fun x => (x - mean xs) ^ 2).sum

/-- The mean of the `k`-th powers of the deviations from the mean. -/
def central (k : Nat) (xs : List K) : K := mean (xs.map fun x => (x - mean xs) ^ k)

theorem sum_affine (a b : K) (xs : List K) :
    (xs.map fun x => a * x + b).sum = a * xs.sum + xs.length * b := by
  induction xs with
  | nil => simp
  | cons x xs ih =>
    simp only [List.map_cons, List.sum_cons, ih, List.length_cons, Nat.cast_add, Nat.cast_one]
    ring

/-- Squared distances from any point by the sums of the numbers and of their squares. -/
theorem sum_sq_sub (m : K) (xs : List K) :
    (xs.map fun x => (x - m) ^ 2).sum =
      (xs.map fun x => x * x).sum - 2 * m * xs.sum + xs.length * m ^ 2 := by
  induction xs with
  | nil => simp
  | cons x xs ih =>
    simp only [List.map_cons, List.sum_cons, ih, List.length_cons, Nat.cast_add, Nat.cast_one]
    ring

theorem sum_cube_sub (m : K) (xs : List K) :
    (xs.map fun x => (x - m) ^ 3).sum = (xs.map fun x => x * x * x).sum -
      (3 : ℕ) * m * (xs.map fun x => x * x).sum + (3 : ℕ) * m ^ 2 * xs.sum - xs.length * m ^ 3 := by
  induction xs with
  | nil => simp
  | cons x xs ih =>
    simp only [List.map_cons, List.sum_cons, ih, List.length_cons, Nat.cast_add, Nat.cast_one]
    push_cast
    ring

theorem deviations_eq {xs : List K} (some : (xs.length : K) ≠ 0) :
    deviations xs = (xs.map fun x => x * x).sum - xs.sum * xs.sum / xs.length := by
  rw [deviations, sum_sq_sub, mean]
  field_simp
  ring

theorem central_two (xs : List K) : central 2 xs = deviations xs / xs.length := by
  rw [central, mean, List.length_map, deviations]

theorem central_two_eq {xs : List K} (some : (xs.length : K) ≠ 0) :
    central 2 xs = (xs.map fun x => x * x).sum / xs.length - mean xs * mean xs := by
  rw [central_two, deviations_eq some, mean]
  field_simp

theorem central_three_eq {xs : List K} (some : (xs.length : K) ≠ 0) :
    central 3 xs = (xs.map fun x => x * x * x).sum / xs.length -
      (3 : ℕ) * mean xs * central 2 xs - mean xs * mean xs * mean xs := by
  rw [central_two_eq some, central, mean, List.length_map, sum_cube_sub, mean]
  push_cast
  field_simp
  ring

theorem mean_affine (a b : K) {xs : List K} (some : (xs.length : K) ≠ 0) :
    mean (xs.map fun x => a * x + b) = a * mean xs + b := by
  rw [mean, sum_affine, List.length_map, mean]
  field_simp

theorem deviations_affine (a b : K) {xs : List K} (some : (xs.length : K) ≠ 0) :
    deviations (xs.map fun x => a * x + b) = a ^ 2 * deviations xs := by
  have each : ∀ x, (a * x + b - (a * mean xs + b)) ^ 2 = a ^ 2 * (x - mean xs) ^ 2 := by
    intro x
    ring
  rw [deviations, mean_affine a b some, List.map_map, deviations, ← List.sum_map_mul_left]
  simp only [Function.comp_def, each]

end

section
variable {K : Type} [Field K] [LinearOrder K] [IsStrictOrderedRing K]

theorem squares_nonneg (m : K) (xs : List K) : ∀ y ∈ xs.map fun x => (x - m) ^ 2, 0 ≤ y := by
  intro y member
  obtain ⟨x, _, rfl⟩ := List.mem_map.mp member
  exact sq_nonneg _

theorem deviations_nonneg (xs : List K) : 0 ≤ deviations xs :=
  List.sum_nonneg (squares_nonneg _ xs)

theorem central_two_nonneg (xs : List K) : 0 ≤ central 2 xs := by
  rw [central_two]
  exact div_nonneg (deviations_nonneg xs) (Nat.cast_nonneg _)

theorem mean_of_equal {x : K} {xs : List K} (member : x ∈ xs) (equal : ∀ y ∈ xs, y = x) :
    mean xs = x := by
  have same := List.eq_replicate_of_mem equal
  have some : (xs.length : K) ≠ 0 :=
    Nat.cast_ne_zero.mpr (List.length_pos_of_mem member).ne'
  rw [mean, div_eq_iff some]
  conv_lhs => rw [same]
  rw [List.sum_replicate, nsmul_eq_mul, mul_comm]

theorem deviations_eq_zero {xs : List K} :
    deviations xs = 0 ↔ ∀ x ∈ xs, ∀ y ∈ xs, x = y := by
  constructor
  · intro zero
    have each : ∀ x ∈ xs, x = mean xs := by
      intro x member
      have square := List.all_zero_of_le_zero_le_of_sum_eq_zero (squares_nonneg (mean xs) xs) zero
        (List.mem_map_of_mem member)
      exact sub_eq_zero.mp (pow_eq_zero_iff two_ne_zero |>.mp square)
    intro x left y right
    rw [each x left, each y right]
  · intro equal
    rw [deviations, List.sum_eq_zero]
    intro y member
    obtain ⟨x, inside, rfl⟩ := List.mem_map.mp member
    rw [mean_of_equal inside fun y other => equal y other x inside, sub_self]
    exact zero_pow two_ne_zero

theorem central_two_ne_zero {x y : K} {xs : List K} (left : x ∈ xs) (right : y ∈ xs)
    (apart : x ≠ y) : central 2 xs ≠ 0 := by
  have some : (xs.length : K) ≠ 0 := Nat.cast_ne_zero.mpr (List.length_pos_of_mem left).ne'
  rw [central_two]
  apply div_ne_zero _ some
  intro zero
  exact apart (deviations_eq_zero.mp zero x left y right)

end

end Moments
