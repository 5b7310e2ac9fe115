import FuTrader.Operator.Exact
import FuTrader.StraCta.Position

/- What Aberration is for: bands of two standard deviations around the mean of the last
   100 prices, in exact arithmetic, each time from scratch. -/
namespace FuTrader
open Rolling Exact SlidingWindow Moments

/-- The last `n` prices, if there are `n` and all of them are finite. -/
def lastPrices (n : Nat) (prices : List Exact) : Option (List ℝ) :=
  if n ≤ prices.length then reals (prices.drop (prices.length - n)) else none

abbrev Signal := Option (DirectionType × OffsetFlagType × Int)

noncomputable def signal (position : Int) (last mean deviation : ℝ) : Signal :=
  if position = 0 then
    if mean + 2 * deviation < last then some (.BUY, .OPEN, 1)
    else if last < mean - 2 * deviation then some (.SELL, .OPEN, -1)
    else none
  else if 0 < position then
    if last < mean then some (.SELL, .CLOSE, 0) else none
  else
    if mean < last then some (.BUY, .CLOSE, 0) else none

noncomputable def signalOf (position : Int) (ps : List ℝ) : Signal :=
  signal position (ps.getLastD 0) (mean ps) (sampleDeviation ps)

/-- A position, and all the prices so far. -/
structure Bands where
  position : Int
  prices : List Exact

def ordered (tick : TickData Exact) (x : DirectionType × OffsetFlagType × Int) : Order :=
  ⟨Aberration.name, tick.symbol, tick.stamp, 1, x.1, x.2.1⟩

noncomputable def Bands.onTick (s : Bands) (tick : TickData Exact) : Bands × Option Order :=
  let prices := s.prices ++ [tick.last]
  match (lastPrices 100 prices).bind (signalOf s.position) with
  | none => ({ s with prices }, none)
  | some x => (⟨x.2.2, prices⟩, some (ordered tick x))

def Bands.fresh : Bands := ⟨0, []⟩

/-! The last prices and the window. -/

theorem reals_window (n : Nat) (prices : List Exact) :
    reals (window n missing prices) = lastPrices n prices := by
  unfold lastPrices
  split
  · rename_i full
    rw [window_full full]
  · rename_i short
    exact reals_eq_none.mpr (mem_window_of_short (by omega) missing)

theorem lastPrices_length {n : Nat} {prices : List Exact} {ps : List ℝ}
    (finite : lastPrices n prices = some ps) : ps.length = n := by
  rw [← reals_window, reals_eq_some] at finite
  have same := congrArg List.length finite
  rw [window_length, List.length_map] at same
  exact same.symm

theorem lastPrices_eq_none {n : Nat} {prices : List Exact} :
    lastPrices n prices = none ↔
      prices.length < n ∨ missing ∈ prices.drop (prices.length - n) := by
  unfold lastPrices
  split
  · rename_i full
    rw [reals_eq_none]
    simp [full]
  · rename_i short
    simp [Nat.lt_of_not_le short]

theorem lastPrices_last {n : Nat} (positive : 0 < n) {prices : List Exact} {x : Exact} {ps : List ℝ}
    (finite : lastPrices n (prices ++ [x]) = some ps) : x = real (ps.getLastD 0) := by
  rw [← reals_window, reals_eq_some, window_snoc positive] at finite
  have last := congrArg List.getLast? finite
  rw [List.getLast?_append, List.getLast?_singleton, List.getLast?_map] at last
  cases there : ps.getLast? with
  | none => simp [there] at last
  | some p =>
    rw [there] at last
    simpa [List.getLastD_eq_getLast?, there] using last

/-! The strategy follows the bands. -/

def Aberration.place (s : Aberration Exact) (tick : TickData Exact) :
    Signal → Aberration Exact × Option Order
  | none => (s, none)
  | some (direction, offset, position) => s.emit tick direction offset position

theorem Aberration.trade_real (s : Aberration Exact) {tick : TickData Exact} {x : ℝ}
    (last : tick.last = real x) (mean deviation : ℝ) :
    s.trade tick (real mean) (real deviation) =
      s.place tick (signal s.position x mean deviation) := by
  have above : real mean + CMath.ofNat 2 * real deviation < tick.last ↔
      mean + 2 * deviation < x := by
    rw [last]
    rfl
  have below : tick.last < real mean - CMath.ofNat 2 * real deviation ↔
      x < mean - 2 * deviation := by
    rw [last]
    rfl
  have under : tick.last < real mean ↔ x < mean := by
    rw [last]
    rfl
  have beyond : real mean < tick.last ↔ mean < x := by
    rw [last]
    rfl
  unfold trade signal
  simp only [above, below, under, beyond]
  split_ifs <;> rfl

theorem Aberration.trade_missing (s : Aberration Exact) (tick : TickData Exact)
    (deviation : Exact) : s.trade tick missing deviation = (s, none) := by
  unfold trade
  simp only [missing_add, missing_sub, not_missing_lt, not_lt_missing, if_false, ite_self]

structure Refines (a : Aberration Exact) (b : Bands) : Prop where
  meaner : a.meaner.Follows (window 100 missing b.prices)
  stder : a.stder.Follows (window 100 missing b.prices)
  position : a.position = b.position
  lots : a.lots = 1
  name : a.order.stgName = Aberration.name

theorem refines_fresh : Refines Aberration.fresh Bands.fresh := by
  constructor
  · exact Sumer.follows_new hundred_pos
  · exact Stder.follows_new hundred_pos
  · rfl
  · rfl
  · rfl

variable {a : Aberration Exact} {b : Bands}

theorem Refines.rolled (refines : Refines a b) (x : Exact) :
    Refines (a.rolled x) { b with prices := b.prices ++ [x] } := by
  constructor
  · rw [window_snoc hundred_pos]
    exact refines.meaner.update x
  · rw [window_snoc hundred_pos]
    exact refines.stder.update x
  · exact refines.position
  · exact refines.lots
  · exact refines.name

theorem Refines.place (refines : Refines a b) (tick : TickData Exact) (signal : Signal) :
    (a.place tick signal).2 = signal.map (ordered tick) ∧
      Refines (a.place tick signal).1
        { b with position := (signal.map fun x => x.2.2).getD b.position } := by
  obtain ⟨meaner, stder, position, lots, name⟩ := refines
  cases signal with
  | none => exact ⟨rfl, meaner, stder, position, lots, name⟩
  | some x =>
    constructor
    · simp [Aberration.place, Aberration.emit, Aberration.fill, ordered, lots, name]
    · exact ⟨meaner, stder, rfl, lots, name⟩

theorem Refines.trade (refines : Refines a b) (tick : TickData Exact) :
    a.onTick tick = (a.rolled tick.last).place tick
      ((lastPrices 100 (b.prices ++ [tick.last])).bind (signalOf b.position)) := by
  rw [Aberration.onTick_rolled]
  cases last : lastPrices 100 (b.prices ++ [tick.last]) with
  | none =>
    rw [← reals_window, reals_eq_none, window_snoc hundred_pos] at last
    rw [refines.meaner.missing last, Aberration.trade_missing]
    rfl
  | some ps =>
    have length := lastPrices_length last
    have price := lastPrices_last hundred_pos last
    rw [← reals_window, reals_eq_some, window_snoc hundred_pos] at last
    rw [refines.meaner.value last length hundred_pos, refines.stder.value last length (by omega),
      Aberration.trade_real _ price]
    exact congrArg (fun p => (a.rolled tick.last).place tick (signalOf p ps)) refines.position

theorem Bands.onTick_eq (b : Bands) (tick : TickData Exact) :
    b.onTick tick =
      (⟨(((lastPrices 100 (b.prices ++ [tick.last])).bind (signalOf b.position)).map
          fun x => x.2.2).getD b.position, b.prices ++ [tick.last]⟩,
        ((lastPrices 100 (b.prices ++ [tick.last])).bind (signalOf b.position)).map
          (ordered tick)) := by
  unfold Bands.onTick
  dsimp only
  cases (lastPrices 100 (b.prices ++ [tick.last])).bind (signalOf b.position) <;> rfl

theorem Refines.step (refines : Refines a b) (tick : TickData Exact) :
    (a.onTick tick).2 = (b.onTick tick).2 ∧ Refines (a.onTick tick).1 (b.onTick tick).1 := by
  rw [refines.trade, Bands.onTick_eq]
  exact (refines.rolled tick.last).place tick _

theorem Refines.run (refines : Refines a b) (ticks : List (TickData Exact)) :
    returned Aberration.onTick a ticks = returned Bands.onTick b ticks ∧
      Refines (after Aberration.onTick a ticks) (after Bands.onTick b ticks) := by
  induction ticks generalizing a b with
  | nil => exact ⟨rfl, refines⟩
  | cons tick ticks ih =>
    obtain ⟨same, next⟩ := refines.step tick
    obtain ⟨rest, last⟩ := ih next
    constructor
    · rw [returned, returned, same, rest]
    · exact last

theorem after_prices (b : Bands) (ticks : List (TickData Exact)) :
    (after Bands.onTick b ticks).prices = b.prices ++ ticks.map TickData.last := by
  induction ticks generalizing b with
  | nil => simp [after]
  | cons tick ticks ih =>
    rw [after_cons, ih, Bands.onTick_eq]
    simp

theorem onTick_after (ticks : List (TickData Exact)) (tick : TickData Exact) :
    ((after Aberration.onTick .fresh ticks).onTick tick).2 =
      ((lastPrices 100 ((ticks ++ [tick]).map TickData.last)).bind
        (signalOf (after Aberration.onTick .fresh ticks).position)).map (ordered tick) := by
  have refines := (refines_fresh.run ticks).2
  have prices : (after Bands.onTick Bands.fresh ticks).prices ++ [tick.last] =
      (ticks ++ [tick]).map TickData.last := by
    rw [after_prices, List.map_append]
    rfl
  rw [(refines.step tick).1, Bands.onTick_eq, prices, refines.position]

theorem after_short {ticks : List (TickData Exact)} (short : ticks.length < 100) :
    (after Aberration.onTick .fresh ticks).position = 0 := by
  rw [(refines_fresh.run ticks).2.position]
  induction ticks using List.reverseRecOn with
  | nil => rfl
  | append_singleton ticks tick ih =>
    rw [List.length_append, List.length_singleton] at short
    have few : lastPrices 100 ((after Bands.onTick Bands.fresh ticks).prices ++ [tick.last]) =
        none := by
      apply lastPrices_eq_none.mpr
      simp [after_prices, Bands.fresh]
      omega
    rw [after_snoc, Bands.onTick_eq, few]
    exact ih (by omega)

/-- Aberration returns what the bands say; so a price that is not finite, or one too few,
    keeps it silent at the ticks with that price among the last 100, and at no other. -/
theorem aberration_agrees (ticks : List (TickData Exact)) :
    returned Aberration.onTick .fresh ticks = returned Bands.onTick .fresh ticks ∧
      ∀ tick, let prices := (ticks ++ [tick]).map TickData.last
        let s := after Aberration.onTick .fresh ticks
        (prices.length < 100 ∨ missing ∈ prices.drop (prices.length - 100) →
          (s.onTick tick).2 = none) ∧
        ∀ ps, ps.length = 100 → prices.drop (prices.length - 100) = ps.map real →
          (s.onTick tick).2 = (signalOf s.position ps).map (ordered tick) := by
  constructor
  · exact (refines_fresh.run ticks).1
  · intro tick
    constructor
    · intro blocked
      rw [onTick_after, lastPrices_eq_none.mpr blocked]
      rfl
    · intro ps length finite
      have last : lastPrices 100 ((ticks ++ [tick]).map TickData.last) = some ps := by
        have drop := congrArg List.length finite
        simp only [List.length_drop, List.length_map, length] at drop
        have full : 100 ≤ ((ticks ++ [tick]).map TickData.last).length := by
          rw [List.length_map]
          omega
        rw [lastPrices, if_pos full, finite, reals_eq_some]
      rw [onTick_after, last]
      rfl

/-! A price of 100 after 99 prices of 0: the mean is 1, the deviation 10. -/

def price (last : ℝ) : TickData Exact := { TickData.zero (real 0) with last := real last }

def spikePrices : List ℝ := List.replicate 99 0 ++ [100]

theorem spike_signal : signalOf 0 spikePrices = some (.BUY, .OPEN, 1) := by
  have mean : mean spikePrices = 1 := by
    norm_num [Moments.mean, spikePrices]
  have squares : deviations spikePrices = 9900 := by
    rw [deviations, mean]
    norm_num [spikePrices]
  have deviation : sampleDeviation spikePrices = 10 := by
    have ten : (9900 : ℝ) / (spikePrices.length - 1 : ℕ) = 10 ^ 2 := by norm_num [spikePrices]
    rw [sampleDeviation, squares, ten, Real.sqrt_sq (by norm_num)]
  have last : spikePrices.getLastD 0 = 100 := by simp [spikePrices]
  rw [signalOf, signal, mean, deviation, last, if_pos rfl, if_pos (by norm_num)]

theorem spike_buys :
    ((after Aberration.onTick .fresh (List.replicate 99 (price 0))).onTick (price 100)).2 =
      some (ordered (price 100) (.BUY, .OPEN, 1)) := by
  have agrees := ((aberration_agrees (List.replicate 99 (price 0))).2 (price 100)).2 spikePrices
    (by simp [spikePrices]) (by simp [spikePrices, price])
  rw [agrees, after_short (by simp), spike_signal]
  rfl

end FuTrader
