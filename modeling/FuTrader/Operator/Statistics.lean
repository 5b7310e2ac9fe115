import FuTrader.Operator.Sums
import Mathlib.Analysis.SpecialFunctions.Pow.Real

/- The rolling deviation and the rolling skewness, from running sums, are those of the last
   `n` values from their definitions. -/
namespace Rolling
open FuTrader SlidingWindow Exact
open Moments (deviations central)
variable {n : Nat}

/-! Deviation. -/

theorem Stder.follows_fed (positive : 0 < n) (xs : List Exact) :
    (fed Stder.update (Stder.new positive) xs).Follows (window n missing xs) :=
  follows_window Stder.Follows positive (Stder.follows_new positive)
    (fun _ _ x follows => follows.update x) xs

theorem variance_eq_zero {ps : List ℝ} (two : 2 ≤ n) :
    deviations ps / (n - 1 : ℕ) = 0 ↔ ∀ p ∈ ps, ∀ q ∈ ps, p = q := by
  have more : ((n - 1 : ℕ) : ℝ) ≠ 0 := Nat.cast_ne_zero.mpr (by omega)
  rw [div_eq_zero_iff, or_iff_left more, Moments.deviations_eq_zero]

/-- The sample standard deviation of the last `n` values; the value under the root is never
    negative, and zero where they are all equal. -/
theorem stder_deviation (two : 2 ≤ n) (xs : List Exact) (x : Exact) :
    let s := fed Stder.update (Stder.new (Nat.zero_lt_of_lt two)) xs
    (s.update x).1 = CMath.sqrt (s.variance x) ∧
      (∀ ps, LastReals n (xs ++ [x]) ps →
        s.variance x = real (deviations ps / (n - 1 : ℕ)) ∧
          0 ≤ deviations ps / (n - 1 : ℕ) ∧
          (deviations ps / (n - 1 : ℕ) = 0 ↔ ∀ p ∈ ps, ∀ q ∈ ps, p = q) ∧
          (s.update x).1 = real (sampleDeviation ps)) ∧
      ((¬ ∃ ps, LastReals n (xs ++ [x]) ps) → (s.update x).1 = CMath.NAN) := by
  intro s
  have positive := Nat.zero_lt_of_lt two
  have follows := Stder.follows_fed positive xs
  refine ⟨Stder.update_value s x, ?_, ?_⟩
  · intro ps last
    have finite := last.window
    rw [window_snoc positive] at finite
    exact ⟨follows.variance finite last.length two, variance_nonneg ps n, variance_eq_zero two,
      follows.value finite last.length two⟩
  · intro no
    have member := missing_of_not no
    rw [window_snoc positive] at member
    exact follows.missing member

theorem stder_half :
    (fed Stder.update (Stder.new Nat.two_pos) [missing, real 1]).variance (real 0) =
      real (1 / 2) := by
  have last : LastReals 2 ([missing, real 1] ++ [real 0]) [1, 0] := ⟨rfl, [missing], rfl⟩
  obtain ⟨_, known, _⟩ := stder_deviation (Nat.le_refl 2) [missing, real 1] (real 0)
  rw [(known [1, 0] last).1]
  norm_num [deviations, Moments.mean]

/-! Skewness. -/

noncomputable instance : CPow Exact where
  three := real (3 : ℕ)
  pow15
    | real x => if x < 0 then missing else real (x ^ (1.5 : ℝ))
    | missing => missing

theorem pow15_real {x : ℝ} (nonneg : 0 ≤ x) : CPow.pow15 (real x) = real (x ^ (1.5 : ℝ)) :=
  if_neg (not_lt.mpr nonneg)

structure Skewer.Follows (s : Skewer Exact n) (w : List Exact) : Prop where
  mean : s.meaner.Follows w
  squares : s.sqSumer.Follows (w.map fun x => x * x)
  cubes : s.cbSumer.Follows (w.map fun x => x * x * x)

theorem Skewer.follows_new (positive : 0 < n) :
    (Skewer.new positive : Skewer Exact n).Follows (List.replicate n missing) := by
  constructor
  · exact Sumer.follows_new positive
  · rw [List.map_replicate]
    exact Sumer.follows_new positive
  · rw [List.map_replicate]
    exact Sumer.follows_new positive

theorem Skewer.Follows.update {s : Skewer Exact n} {w : List Exact} (follows : s.Follows w)
    (x : Exact) : (s.update x).2.Follows (w.tail ++ [x]) := by
  constructor
  · exact Sumer.Follows.update follows.mean x
  · rw [← map_slide]
    exact follows.squares.update (x * x)
  · rw [← map_slide]
    exact follows.cubes.update (x * x * x)

theorem Skewer.follows_fed (positive : 0 < n) (xs : List Exact) :
    (fed Skewer.update (Skewer.new positive) xs).Follows (window n missing xs) :=
  follows_window Skewer.Follows positive (Skewer.follows_new positive)
    (fun _ _ x follows => follows.update x) xs

section
variable {s : Skewer Exact n} {w : List Exact} {x : Exact} {ps : List ℝ}

theorem Skewer.Follows.variance (follows : s.Follows w) (finite : w.tail ++ [x] = ps.map real)
    (length : ps.length = n) (positive : 0 < n) : s.variance x = real (central 2 ps) := by
  have some : (n : ℝ) ≠ 0 := Nat.cast_ne_zero.mpr positive.ne'
  have squares : (s.sqSumer.update (x * x)).1 = real (ps.map fun p => p * p).sum :=
    follows.squares.value_map (fun p => real_mul p p) finite
  have mean := Meaner.Follows.value follows.mean finite length positive
  change (s.sqSumer.update (x * x)).1 / real n - (s.meaner.update x).1 * (s.meaner.update x).1 = _
  rw [squares, mean, real_div _ some, real_mul, real_sub, ← length,
    Moments.central_two_eq (by rwa [length])]

theorem Skewer.Follows.numerator (follows : s.Follows w) (finite : w.tail ++ [x] = ps.map real)
    (length : ps.length = n) (positive : 0 < n) : s.numerator x = real (central 3 ps) := by
  have some : (n : ℝ) ≠ 0 := Nat.cast_ne_zero.mpr positive.ne'
  have cubes : (s.cbSumer.update (x * x * x)).1 = real (ps.map fun p => p * p * p).sum :=
    follows.cubes.value_map (fun p => by rw [real_mul, real_mul]) finite
  have mean := Meaner.Follows.value follows.mean finite length positive
  change (s.cbSumer.update (x * x * x)).1 / real n -
    real (3 : ℕ) * (s.meaner.update x).1 * s.variance x -
      (s.meaner.update x).1 * (s.meaner.update x).1 * (s.meaner.update x).1 = _
  rw [cubes, mean, follows.variance finite length positive, real_div _ some, real_mul, real_mul,
    real_mul, real_mul, real_sub, real_sub, ← length, Moments.central_three_eq (by rwa [length])]

end

/-- The population skewness of the last `n` values. -/
theorem skewer_skewness (positive : 0 < n) (xs : List Exact) (x : Exact) :
    let s := fed Skewer.update (Skewer.new positive) xs
    (s.update x).1 = s.numerator x / CPow.pow15 (s.variance x) ∧
      ∀ ps, LastReals n (xs ++ [x]) ps →
        s.numerator x = real (central 3 ps) ∧
          s.variance x = real (central 2 ps) ∧ 0 ≤ central 2 ps ∧
          ((∃ p ∈ ps, ∃ q ∈ ps, p ≠ q) →
            (s.update x).1 = real (central 3 ps / central 2 ps ^ (1.5 : ℝ))) := by
  intro s
  have follows := Skewer.follows_fed positive xs
  refine ⟨Skewer.update_value s x, ?_⟩
  intro ps last
  have finite := last.window
  rw [window_snoc positive] at finite
  have numerator := follows.numerator finite last.length positive
  have variance := follows.variance finite last.length positive
  have nonneg : 0 ≤ central 2 ps := Moments.central_two_nonneg ps
  refine ⟨numerator, variance, nonneg, ?_⟩
  rintro ⟨p, left, q, right, apart⟩
  have some := Moments.central_two_ne_zero left right apart
  rw [Skewer.update_value, numerator, variance, pow15_real nonneg, real_div]
  exact (Real.rpow_pos_of_pos (lt_of_le_of_ne nonneg some.symm) _).ne'

theorem skewer_third :
    ((fed Skewer.update (Skewer.new (Nat.succ_pos 2)) [real 0, real 0]).update (real 1)).1 =
      real (2 / 27 / (2 / 9) ^ (1.5 : ℝ)) := by
  have last : LastReals 3 ([real 0, real 0] ++ [real 1]) [0, 0, 1] := ⟨rfl, [], rfl⟩
  obtain ⟨_, known⟩ := skewer_skewness (Nat.succ_pos 2) [real 0, real 0] (real 1)
  obtain ⟨_, _, _, value⟩ := known [0, 0, 1] last
  rw [value ⟨0, by simp, 1, by simp, zero_ne_one⟩]
  have third : central 3 [(0 : ℝ), 0, 1] = 2 / 27 := by norm_num [central, Moments.mean]
  have second : central 2 [(0 : ℝ), 0, 1] = 2 / 9 := by norm_num [central, Moments.mean]
  rw [third, second]

end Rolling
