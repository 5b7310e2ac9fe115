import FuTrader.StraCta.Bands

/- Aberration on prices that are scaled and shifted: the bands move along, and with a
   negative factor they change sides. -/
namespace FuTrader
open Rolling Exact Moments

noncomputable def rescale (a b : ℝ) (x : Exact) : Exact := real a * x + real b

noncomputable def affine (a b : ℝ) (tick : TickData Exact) : TickData Exact :=
  { tick with last := rescale a b tick.last }

noncomputable def turn (a : ℝ) (position : Int) : Int := if 0 < a then position else -position

noncomputable def redirect (a : ℝ) (direction : DirectionType) : DirectionType :=
  if 0 < a then direction else direction.opposite

noncomputable def turned (a : ℝ) (x : DirectionType × OffsetFlagType × Int) :
    DirectionType × OffsetFlagType × Int := (redirect a x.1, x.2.1, turn a x.2.2)

noncomputable def redirected (a : ℝ) (order : Order) : Order :=
  { order with direction := redirect a order.direction }

variable {a b : ℝ}

/-! The window and its moments. -/

theorem reals_rescale (w : List Exact) :
    reals (w.map (rescale a b)) = (reals w).map (List.map fun p => a * p + b) := by
  induction w with
  | nil => rfl
  | cons x rest ih =>
    cases x with
    | missing => rfl
    | real x =>
      change (reals (rest.map (rescale a b))).map ((a * x + b) :: ·) = _
      rw [ih, reals, Option.map_map, Option.map_map]
      rfl

theorem lastPrices_rescale (n : Nat) (prices : List Exact) :
    lastPrices n (prices.map (rescale a b)) =
      (lastPrices n prices).map (List.map fun p => a * p + b) := by
  unfold lastPrices
  rw [List.length_map, ← List.map_drop, reals_rescale]
  split <;> rfl

theorem sampleDeviation_affine {ps : List ℝ} (some : (ps.length : ℝ) ≠ 0) :
    sampleDeviation (ps.map fun p => a * p + b) = |a| * sampleDeviation ps := by
  rw [sampleDeviation, deviations_affine a b some, List.length_map, mul_div_assoc,
    Real.sqrt_mul (sq_nonneg a), Real.sqrt_sq_eq_abs]
  rfl

theorem getLastD_affine {ps : List ℝ} (some : ps ≠ []) :
    (ps.map fun p => a * p + b).getLastD 0 = a * ps.getLastD 0 + b := by
  obtain ⟨p, last⟩ := Option.ne_none_iff_exists'.mp (mt List.getLast?_eq_none_iff.mp some)
  simp [List.getLastD_eq_getLast?, last]

/-! The signal. -/

theorem turn_zero {p : Int} : turn a p = 0 ↔ p = 0 := by
  unfold turn
  split
  · rfl
  · exact neg_eq_zero

theorem affine_lt (positive : 0 < a) {x y : ℝ} : a * x + b < a * y + b ↔ x < y := by
  rw [add_lt_add_iff_right, mul_lt_mul_iff_right₀ positive]

theorem affine_lt_of_neg (negative : a < 0) {x y : ℝ} : a * x + b < a * y + b ↔ y < x := by
  rw [add_lt_add_iff_right, mul_lt_mul_left_of_neg negative]

theorem upper_affine (mean deviation : ℝ) :
    a * mean + b + 2 * (a * deviation) = a * (mean + 2 * deviation) + b := by ring

theorem lower_affine (mean deviation : ℝ) :
    a * mean + b - 2 * (a * deviation) = a * (mean - 2 * deviation) + b := by ring

theorem signal_scaled (positive : 0 < a) (p : Int) (last mean deviation : ℝ) :
    signal p (a * last + b) (a * mean + b) (a * deviation) = signal p last mean deviation := by
  simp only [signal, upper_affine, lower_affine, affine_lt positive]

theorem signal_reflected (negative : a < 0) (p : Int) {last mean deviation : ℝ}
    (nonneg : 0 ≤ deviation) :
    signal (-p) (a * last + b) (a * mean + b) (-a * deviation) =
      (signal p last mean deviation).map fun x => (x.1.opposite, x.2.1, -x.2.2) := by
  have upper : a * mean + b + 2 * (-a * deviation) = a * (mean - 2 * deviation) + b := by ring
  have lower : a * mean + b - 2 * (-a * deviation) = a * (mean + 2 * deviation) + b := by ring
  unfold signal
  simp only [upper, lower, affine_lt_of_neg negative, neg_eq_zero]
  by_cases flat : p = 0
  · simp only [if_pos flat]
    by_cases high : mean + 2 * deviation < last
    · have notLow : ¬ last < mean - 2 * deviation := by linarith
      simp [high, notLow, DirectionType.opposite]
    · by_cases low : last < mean - 2 * deviation <;> simp [high, low, DirectionType.opposite]
  · simp only [if_neg flat]
    by_cases long : 0 < p
    · have short : ¬ 0 < -p := by omega
      simp only [if_pos long, if_neg short]
      split <;> simp [DirectionType.opposite]
    · have short : 0 < -p := by omega
      simp only [if_neg long, if_pos short]
      split <;> simp [DirectionType.opposite]

theorem signal_affine (nonzero : a ≠ 0) (p : Int) {last mean deviation : ℝ}
    (nonneg : 0 ≤ deviation) :
    signal (turn a p) (a * last + b) (a * mean + b) (|a| * deviation) =
      (signal p last mean deviation).map (turned a) := by
  rcases lt_or_gt_of_ne nonzero with negative | positive
  · have sides : turned a = fun x => (x.1.opposite, x.2.1, -x.2.2) := by
      funext x
      simp [turned, redirect, turn, negative.le.not_gt]
    rw [abs_of_neg negative, sides, turn, if_neg negative.le.not_gt]
    exact signal_reflected negative p nonneg
  · have sides : turned a = id := by
      funext x
      simp [turned, redirect, turn, positive]
    rw [abs_of_pos positive, sides, turn, if_pos positive, signal_scaled positive, Option.map_id]
    rfl

theorem signalOf_affine (nonzero : a ≠ 0) (p : Int) {ps : List ℝ} (some : ps ≠ []) :
    signalOf (turn a p) (ps.map fun x => a * x + b) = (signalOf p ps).map (turned a) := by
  have length : (ps.length : ℝ) ≠ 0 := Nat.cast_ne_zero.mpr (mt List.length_eq_zero_iff.mp some)
  rw [signalOf, getLastD_affine some, mean_affine a b length, sampleDeviation_affine length]
  exact signal_affine nonzero p (Real.sqrt_nonneg _)

/-! The two runs. -/

structure Scaled (a b : ℝ) (s t : Bands) : Prop where
  position : t.position = turn a s.position
  prices : t.prices = s.prices.map (rescale a b)

theorem Scaled.step (nonzero : a ≠ 0) {s t : Bands} (scaled : Scaled a b s t)
    (tick : TickData Exact) :
    (t.onTick (affine a b tick)).2 = (s.onTick tick).2.map (redirected a) ∧
      Scaled a b (s.onTick tick).1 (t.onTick (affine a b tick)).1 := by
  have prices : t.prices ++ [(affine a b tick).last] =
      (s.prices ++ [tick.last]).map (rescale a b) := by
    rw [scaled.prices, List.map_append]
    rfl
  have given : (lastPrices 100 (t.prices ++ [(affine a b tick).last])).bind (signalOf t.position) =
      ((lastPrices 100 (s.prices ++ [tick.last])).bind (signalOf s.position)).map (turned a) := by
    rw [prices, lastPrices_rescale, scaled.position]
    cases last : lastPrices 100 (s.prices ++ [tick.last]) with
    | none => rfl
    | some ps =>
      have some : ps ≠ [] := by
        rintro rfl
        cases lastPrices_length last
      exact signalOf_affine nonzero s.position some
  rw [Bands.onTick_eq, Bands.onTick_eq, given]
  cases (lastPrices 100 (s.prices ++ [tick.last])).bind (signalOf s.position) with
  | none => exact ⟨rfl, scaled.position, prices⟩
  | some x => exact ⟨rfl, rfl, prices⟩

theorem Scaled.run (nonzero : a ≠ 0) {s t : Bands} (scaled : Scaled a b s t)
    (ticks : List (TickData Exact)) :
    returned Bands.onTick t (ticks.map (affine a b)) =
      (returned Bands.onTick s ticks).map (Option.map (redirected a)) := by
  induction ticks generalizing s t with
  | nil => rfl
  | cons tick ticks ih =>
    obtain ⟨same, next⟩ := scaled.step nonzero tick
    rw [List.map_cons, returned, returned, same, ih next, List.map_cons]

/-- On rescaled prices the orders come at the same ticks with the same offsets, and their
    directions are turned round with the sign of the factor. -/
theorem aberration_affine {a : ℝ} (nonzero : a ≠ 0) (b : ℝ) (ticks : List (TickData Exact)) :
    returned Aberration.onTick .fresh (ticks.map (affine a b)) =
      (returned Aberration.onTick .fresh ticks).map (Option.map (redirected a)) := by
  have scaled : Scaled a b Bands.fresh Bands.fresh := ⟨(turn_zero.mpr rfl).symm, rfl⟩
  rw [(refines_fresh.run ticks).1, (refines_fresh.run (ticks.map (affine a b))).1]
  exact scaled.run nonzero ticks

theorem spike_sells :
    (returned Aberration.onTick .fresh
        ((List.replicate 99 (price 0) ++ [price 100]).map (affine (-2) 5))).getLast? =
      some (some (ordered (price 100) (.SELL, .OPEN, -1))) := by
  rw [aberration_affine (by norm_num), returned_snoc, onTick_after, after_short (by simp)]
  have last : lastPrices 100 ((List.replicate 99 (price 0) ++ [price 100]).map TickData.last) =
      some spikePrices := by
    simp [lastPrices, reals_eq_some, spikePrices, price]
  rw [last, Option.bind_some, spike_signal]
  simp [ordered, redirected, redirect, DirectionType.opposite]

end FuTrader
