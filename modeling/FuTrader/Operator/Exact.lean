import FuTrader.Lib.Moments
import FuTrader.Operator.Rolling
import Mathlib.Analysis.Real.Sqrt

/- Exact arithmetic, in which every value that is not finite is one missing value, and what
   rolling.hpp computes in it: the moments of the window. -/
namespace Rolling
open FuTrader SlidingWindow

inductive Exact where
  | missing
  | real (x : ℝ)

namespace Exact

def lift (op : ℝ → ℝ → ℝ) : Exact → Exact → Exact
  | real x, real y => real (op x y)
  | _, _ => missing

def Compares (rel : ℝ → ℝ → Prop) : Exact → Exact → Prop
  | real x, real y => rel x y
  | _, _ => False

noncomputable def div : Exact → Exact → Exact
  | real x, real y => if y = 0 then missing else real (x / y)
  | _, _ => missing

noncomputable def sqrt : Exact → Exact
  | real x => if x < 0 then missing else real (Real.sqrt x)
  | missing => missing

noncomputable def eq : Exact → Exact → Bool
  | real x, real y => decide (x = y)
  | _, _ => false

open Classical in
noncomputable instance : CMath Exact where
  add := lift (· + ·)
  sub := lift (· - ·)
  mul := lift (· * ·)
  div := div
  lt := Compares (· < ·)
  le := Compares (· ≤ ·)
  zero := real 0
  half := real ((2 : Nat) : ℝ)⁻¹
  decLt _ _ := propDecidable _
  decLe _ _ := propDecidable _
  NAN := missing
  sqrt := sqrt
  ofNat n := real n
  eq := eq

theorem not_missing_lt (y : Exact) : ¬ missing < y := id

theorem not_lt_missing (x : Exact) : ¬ x < missing := by
  cases x <;> exact id

theorem missing_add (y : Exact) : missing + y = missing := rfl
theorem missing_sub (y : Exact) : missing - y = missing := rfl
theorem real_add (x y : ℝ) : real x + real y = real (x + y) := rfl
theorem real_sub (x y : ℝ) : real x - real y = real (x - y) := rfl
theorem real_mul (x y : ℝ) : real x * real y = real (x * y) := rfl

theorem real_div (x : ℝ) {y : ℝ} (some : y ≠ 0) : real x / real y = real (x / y) := if_neg some

theorem real_sqrt {x : ℝ} (nonneg : 0 ≤ x) : CMath.sqrt (real x) = real (Real.sqrt x) :=
  if_neg (not_lt.mpr nonneg)

def isMissing : Exact → Bool
  | missing => true
  | real _ => false

def value : Exact → ℝ
  | missing => 0
  | real x => x

theorem nanOrInf_isMissing (x : Exact) : nanOrInf x = x.isMissing := by
  cases x with
  | missing => rfl
  | real x =>
    have zero : CMath.eq (real x - real x) Double.zero = true := decide_eq_true (sub_self x)
    simp [nanOrInf, CMath.ne, zero, isMissing]

def reals : List Exact → Option (List ℝ)
  | [] => some []
  | missing :: _ => none
  | real x :: rest => (reals rest).map (x :: ·)

theorem reals_eq_some {w : List Exact} {ps : List ℝ} : reals w = some ps ↔ w = ps.map real := by
  induction w generalizing ps with
  | nil => cases ps <;> simp [reals]
  | cons x rest ih =>
    cases x with
    | missing => cases ps <;> simp [reals]
    | real x => cases ps <;> simp [reals, ih, and_comm]

theorem reals_eq_none {w : List Exact} : reals w = none ↔ missing ∈ w := by
  induction w with
  | nil => simp [reals]
  | cons x rest ih => cases x <;> simp [reals, ih]

end Exact

open Exact

/-! The sums follow the window. -/

noncomputable def total (w : List Exact) : Exact :=
  if 0 < w.countP isMissing then missing else real (w.map value).sum

theorem total_real (ps : List ℝ) : total (ps.map real) = real ps.sum := by
  have none : (ps.map real).countP isMissing = 0 := by
    simp [List.countP_eq_zero, isMissing]
  have same : (ps.map real).map value = ps := by
    simp [Function.comp_def, value]
  rw [total, if_neg (by omega), same]

theorem total_missing {w : List Exact} (member : missing ∈ w) : total w = missing := by
  have some : 0 < w.countP isMissing := List.countP_pos_iff.mpr ⟨missing, member, rfl⟩
  rw [total, if_pos some]

variable {n : Nat}

structure Sumer.Follows (s : Sumer Exact n) (w : List Exact) : Prop where
  ring : s.container.ring.contents = w
  nanCount : s.nanCount = w.countP isMissing
  sum : s.sum = real (w.map value).sum

theorem Sumer.follows_new (positive : 0 < n) :
    (Sumer.new positive : Sumer Exact n).Follows (List.replicate n missing) := by
  constructor
  · exact Ring.contents_fill positive missing
  · simp [Sumer.new, isMissing, List.countP_replicate]
  · simp [Sumer.new, value]
    rfl

theorem Sumer.update_value (s : Sumer Exact n) (x : Exact) :
    (s.update x).1 = if 0 < (s.update x).2.nanCount then missing else (s.update x).2.sum := rfl

theorem Sumer.update_ring (s : Sumer Exact n) (x : Exact) :
    (s.update x).2.container.ring = s.container.ring.write x := rfl

theorem Sumer.update_nanCount (s : Sumer Exact n) (x : Exact) :
    (s.update x).2.nanCount =
      s.nanCount - (if s.container.head.isMissing then 1 else 0) +
        (if x.isMissing then 1 else 0) := by
  cases old : s.container.head <;> cases x <;>
    simp [Sumer.update, nanOrInf_isMissing, old, isMissing]

theorem Sumer.update_sum {s : Sumer Exact n} {y : ℝ} (sum : s.sum = real y) (x : Exact) :
    (s.update x).2.sum = real (y - s.container.head.value + x.value) := by
  cases old : s.container.head <;> cases x <;>
    simp [Sumer.update, nanOrInf_isMissing, old, isMissing, value, sum, real_add, real_sub]

theorem Sumer.Follows.update {s : Sumer Exact n} {w : List Exact} (follows : s.Follows w)
    (x : Exact) : (s.update x).2.Follows (w.tail ++ [x]) := by
  obtain ⟨rfl, nanCount, sum⟩ := follows
  have split := s.container.ring.contents_cons
  rw [← head_ring] at split
  rw [split] at nanCount sum
  constructor
  · rw [Sumer.update_ring, Ring.contents_write]
  · have slid := countP_slide isMissing s.container.head x s.container.ring.contents.tail
    have inside : (if s.container.head.isMissing then 1 else 0) ≤ s.nanCount := by
      rw [nanCount, List.countP_cons]
      omega
    rw [Sumer.update_nanCount]
    omega
  · rw [Sumer.update_sum sum, sum_slide value s.container.head x]

theorem Sumer.Follows.value {s : Sumer Exact n} {w : List Exact} (follows : s.Follows w)
    (x : Exact) : (s.update x).1 = total (w.tail ++ [x]) := by
  have next := follows.update x
  rw [Sumer.update_value, next.nanCount, next.sum]
  rfl

theorem Sumer.Follows.value_map {s : Sumer Exact n} {g : Exact → Exact} {h : ℝ → ℝ} {w : List Exact}
    (follows : s.Follows (w.map g)) (real_map : ∀ p, g (real p) = real (h p)) {x : Exact}
    {ps : List ℝ} (finite : w.tail ++ [x] = ps.map real) :
    (s.update (g x)).1 = real (ps.map h).sum := by
  have lifted : (ps.map real).map g = (ps.map h).map real := by
    rw [List.map_map, List.map_map]
    exact congrArg (fun f => ps.map f) (funext real_map)
  rw [follows.value, map_slide, finite, lifted, total_real]

/-! Mean and deviation of the window. -/

def Meaner.Follows (s : Meaner Exact n) (w : List Exact) : Prop := s.sumer.Follows w

structure Stder.Follows (s : Stder Exact n) (w : List Exact) : Prop where
  sum : s.sumer.Follows w
  squares : s.sqSumer.Follows (w.map fun x => x * x)

theorem Stder.follows_new (positive : 0 < n) :
    (Stder.new positive : Stder Exact n).Follows (List.replicate n missing) := by
  constructor
  · exact Sumer.follows_new positive
  · rw [List.map_replicate]
    exact Sumer.follows_new positive

theorem Stder.Follows.update {s : Stder Exact n} {w : List Exact} (follows : s.Follows w)
    (x : Exact) : (s.update x).2.Follows (w.tail ++ [x]) := by
  constructor
  · exact follows.sum.update x
  · rw [← map_slide]
    exact follows.squares.update (x * x)

theorem Meaner.Follows.missing {s : Meaner Exact n} {w : List Exact} (follows : s.Follows w)
    {x : Exact} (member : missing ∈ w.tail ++ [x]) : (s.update x).1 = missing := by
  change (s.sumer.update x).1 / CMath.ofNat n = Exact.missing
  rw [Sumer.Follows.value follows, total_missing member]
  rfl

theorem Stder.Follows.missing {s : Stder Exact n} {w : List Exact} (follows : s.Follows w)
    {x : Exact} (member : missing ∈ w.tail ++ [x]) : (s.update x).1 = missing := by
  have squares : Exact.missing ∈ (w.map fun x => x * x).tail ++ [x * x] := by
    rw [map_slide (fun x => x * x)]
    exact List.mem_map_of_mem member
  change CMath.sqrt (((s.sqSumer.update (x * x)).1 - _) / _) = Exact.missing
  rw [follows.squares.value, total_missing squares]
  rfl

/-! Without one they are those of its numbers. -/

theorem Meaner.Follows.value {s : Meaner Exact n} {w : List Exact} (follows : s.Follows w)
    {x : Exact} {ps : List ℝ} (finite : w.tail ++ [x] = ps.map real) (length : ps.length = n)
    (positive : 0 < n) : (s.update x).1 = real (Moments.mean ps) := by
  have some : (n : ℝ) ≠ 0 := Nat.cast_ne_zero.mpr positive.ne'
  change (s.sumer.update x).1 / real n = _
  rw [Sumer.Follows.value follows, finite, total_real, real_div _ some, Moments.mean, length]

/-- The sample standard deviation, with divisor `n - 1`. -/
noncomputable def sampleDeviation (ps : List ℝ) : ℝ :=
  Real.sqrt (Moments.deviations ps / (ps.length - 1 : ℕ))

/-- The sum of squares less the square of the sum is what two passes give. -/
theorem Stder.Follows.variance {s : Stder Exact n} {w : List Exact} (follows : s.Follows w)
    {x : Exact} {ps : List ℝ} (finite : w.tail ++ [x] = ps.map real) (length : ps.length = n)
    (two : 2 ≤ n) : s.variance x = real (Moments.deviations ps / (n - 1 : ℕ)) := by
  have some : (n : ℝ) ≠ 0 := Nat.cast_ne_zero.mpr (by omega)
  have more : ((n - 1 : ℕ) : ℝ) ≠ 0 := Nat.cast_ne_zero.mpr (by omega)
  have squares : (s.sqSumer.update (x * x)).1 = real (ps.map fun p => p * p).sum :=
    follows.squares.value_map (fun p => real_mul p p) finite
  change ((s.sqSumer.update (x * x)).1 -
    (s.sumer.update x).1 * (s.sumer.update x).1 / real n) / real (n - 1 : ℕ) = _
  rw [squares, follows.sum.value, finite, total_real, real_mul, real_div _ some, real_sub,
    real_div _ more, ← length, ← Moments.deviations_eq (by rwa [length])]

theorem variance_nonneg (ps : List ℝ) (n : ℕ) : 0 ≤ Moments.deviations ps / (n - 1 : ℕ) :=
  div_nonneg (Moments.deviations_nonneg ps) (Nat.cast_nonneg _)

theorem Stder.Follows.value {s : Stder Exact n} {w : List Exact} (follows : s.Follows w)
    {x : Exact} {ps : List ℝ} (finite : w.tail ++ [x] = ps.map real) (length : ps.length = n)
    (two : 2 ≤ n) : (s.update x).1 = real (sampleDeviation ps) := by
  rw [Stder.update_value, follows.variance finite length two, real_sqrt (variance_nonneg ps n),
    sampleDeviation, length]

end Rolling
