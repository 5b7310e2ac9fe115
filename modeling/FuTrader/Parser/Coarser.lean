import FuTrader.Lib.Collapse
import FuTrader.Parser.Conserved

/- The prices of the bars of a multiple of an interval are those of the bars of the interval,
   merged. -/
namespace TickParser
open FuTrader (BarData)
open Collapse (collapse)
variable {F : Type} [LinearOrder F] [AddCommGroup F] [One F]

def allBars (interval : Int) (ticks : List (DepthMarketData F)) : List (BarData F) :=
  closedBars interval ticks ++ ((BarGenerator.new interval).after ticks).current.toList

/-- The bar without its volume and its amount. -/
def prices (bar : BarData F) : BarData F := { bar with volume := 0, amount := 0 }

def merge (a b : BarData F) : BarData F := { a with
  stampLast := b.stampLast
  high := max a.high b.high
  low := min a.low b.low
  close := b.close
  oi := b.oi }

def coarsen (interval : Int) (bar : BarData F) : BarData F :=
  { bar with stampStart := floorToInterval bar.stampStart (1000 * interval) }

omit [AddCommGroup F] [One F] in
theorem merge_lawful {μ : Type} {key : BarData F → μ}
    (keeps : ∀ a b, key (merge a b) = key a) : Collapse.Lawful key merge where
  key_merge := keeps
  assoc a b c := by simp [merge, max_assoc, min_assoc]

theorem allBars_collapse (interval : Int) (ticks : List (DepthMarketData F)) :
    (allBars interval ticks).map prices =
      collapse BarData.stampStart merge (ticks.map (openBar interval)) := by
  induction ticks using List.reverseRecOn with
  | nil => rfl
  | append_singleton ts t ih =>
    rw [List.map_append, List.map_singleton, Collapse.collapse_snoc (merge_lawful fun _ _ => rfl),
      ← ih]
    rcases List.eq_nil_or_concat ts with rfl | ⟨us, a, rfl⟩
    · rfl
    · rw [List.concat_eq_append]
      obtain ⟨c, _, current⟩ := bars_current (BarGenerator.new interval) us a
      have kept : ((BarGenerator.new interval).after (us ++ [a])).interval = interval :=
        after_interval _ _
      have closed : (closedBars interval (us ++ [a]) ++ [c]).map prices =
          (closedBars interval (us ++ [a])).map prices ++ [prices c] := List.map_append
      rw [allBars, allBars, closedBars_snoc current, current, after_snoc, Option.toList_some,
        closed, Collapse.behind_snoc]
      by_cases same : t.stampStart interval = c.stampStart
      · rw [processTick_within current (by rw [kept, same])]
        simp [same, prices, merge, openBar]
      · rw [processTick_open current (by rw [kept]; exact same), kept]
        simp [same, Ne.symm same, prices, openBar]

/-! An interval within a longer one. -/

theorem tdiv_tdiv (a b c : Int) : (a.tdiv b).tdiv c = a.tdiv (b * c) := by
  obtain ⟨n, rfl | rfl⟩ := a.eq_nat_or_neg <;> obtain ⟨m, rfl | rfl⟩ := b.eq_nat_or_neg <;>
    obtain ⟨k, rfl | rfl⟩ := c.eq_nat_or_neg <;>
      simp only [Int.neg_tdiv, Int.tdiv_neg, neg_neg, neg_mul, mul_neg, ← Int.natCast_mul,
        ← Int.ofNat_tdiv, Nat.div_div_eq_div_mul]

theorem mul_tdiv_mul {a : Int} (nonzero : a ≠ 0) (b c : Int) :
    (a * b).tdiv (a * c) = b.tdiv c := by
  rw [← tdiv_tdiv, Int.mul_tdiv_cancel_left b nonzero]

theorem floorToInterval_eq (t interval : Int) :
    floorToInterval t interval = interval * t.tdiv interval := by
  have split := Int.mul_tdiv_add_tmod t interval
  rw [floorToInterval]
  omega

theorem floor_scaled (t interval : Int) :
    floorToInterval (1000 * t) (1000 * interval) = 1000 * floorToInterval t interval := by
  rw [floorToInterval_eq, floorToInterval_eq, mul_tdiv_mul (by decide), mul_assoc]

theorem floor_floor (t interval m : Int) :
    floorToInterval (floorToInterval t interval) (interval * m) =
      floorToInterval t (interval * m) := by
  by_cases zero : interval = 0
  · simp [zero, floorToInterval]
  · rw [floorToInterval_eq, floorToInterval_eq, floorToInterval_eq, mul_tdiv_mul zero, tdiv_tdiv]

omit [LinearOrder F] in
theorem coarsen_openBar (interval m : Int) (t : DepthMarketData F) :
    coarsen (interval * m) (openBar interval t) = openBar (interval * m) t := by
  have start : floorToInterval (t.stampStart interval) (1000 * (interval * m)) =
      t.stampStart (interval * m) := by
    rw [DepthMarketData.stampStart, floor_scaled, floor_floor, DepthMarketData.stampStart]
  rw [coarsen, show (openBar interval t).stampStart = t.stampStart interval from rfl, start]
  rfl

/-- The bars of a multiple of the interval have the prices of the bars of the interval,
    consecutive ones merged where they fall into one bar of the multiple. -/
theorem coarser_bars_merged (interval m : Int) (ticks : List (DepthMarketData F)) :
    (allBars (interval * m) ticks).map prices =
      collapse BarData.stampStart merge
        (((allBars interval ticks).map prices).map (coarsen (interval * m))) := by
  have finer : ∀ a b : BarData F, a.stampStart = b.stampStart →
      (coarsen (interval * m) a).stampStart = (coarsen (interval * m) b).stampStart :=
    fun a b same => congrArg (floorToInterval · _) same
  have coarse : ∀ bars : List (BarData F),
      collapse BarData.stampStart merge (bars.map (coarsen (interval * m))) =
        (collapse (fun bar => (coarsen (interval * m) bar).stampStart) merge bars).map
          (coarsen (interval * m)) :=
    Collapse.collapse_map (fun _ => rfl) fun _ _ => rfl
  rw [allBars_collapse, allBars_collapse, coarse,
    Collapse.collapse_collapse (merge_lawful fun _ _ => rfl) finer, ← coarse, List.map_map]
  congr 1
  apply List.map_congr_left
  exact fun t _ => (coarsen_openBar interval m t).symm

end TickParser
