import FuTrader.Parser.Bars

/- The volume and the amount of the bars. A bar of a single tick counts nothing, and the
   counters of the next bar start where those of the bar before it did. -/
namespace TickParser
open FuTrader (BarData)
open Runs (IsRun baseline)
variable {F : Type} [LinearOrder F] [AddCommGroup F] [One F]

/-- The counters of a trading day: never negative, and never falling. -/
def Cumulative (day : List (DepthMarketData F)) : Prop :=
  (∀ t ∈ day, 0 ≤ t.volume ∧ 0 ≤ t.turnover) ∧
    day.Pairwise fun a b => a.volume ≤ b.volume ∧ a.turnover ≤ b.turnover

/-- The bar of every maximal run has the volume and amount since the last tick of the run
    before it, or since the very first tick. -/
def VolumeTraded (interval : Int) (ticks : List (DepthMarketData F)) : Prop :=
  ∀ before first rest later, ticks = before ++ first :: rest ++ later →
    IsRun (DepthMarketData.stampStart interval) before first rest later →
    ∃ bar, ((BarGenerator.new interval).bars ticks)[before.length + rest.length]? = some bar ∧
      bar.volume = (rest.getLast?.getD first).volume - (before.getLast?.getD first).volume ∧
      bar.amount = (rest.getLast?.getD first).turnover - (before.getLast?.getD first).turnover

def LoneTicksIdle (interval : Int) (ticks : List (DepthMarketData F)) : Prop :=
  ∀ before p first later, ticks = before ++ [p] ++ first :: later →
    IsRun (DepthMarketData.stampStart interval) (before ++ [p]) first [] later →
    first.volume = p.volume ∧ first.turnover = p.turnover

theorem batchBar_single (interval : Int) (base first : DepthMarketData F) :
    (batchBar interval base first []).volume = 0 ∧ (batchBar interval base first []).amount = 0 :=
  ⟨rfl, rfl⟩

theorem batchBar_more (interval : Int) (base first t : DepthMarketData F)
    (rest : List (DepthMarketData F)) :
    (batchBar interval base first (rest ++ [t])).volume = t.volume - base.volume ∧
      (batchBar interval base first (rest ++ [t])).amount = t.turnover - base.turnover := by
  simp [batchBar]

omit [LinearOrder F] [AddCommGroup F] [One F] in
theorem baseline_counters {interval : Int} {ticks : List (DepthMarketData F)}
    (idle : LoneTicksIdle interval ticks) (ts : List (DepthMarketData F))
    (a x : DepthMarketData F) (later : List (DepthMarketData F)) (split : ticks = ts ++ a :: later)
    (closes : ∀ n ∈ later.head?, n.stampStart interval ≠ a.stampStart interval) :
    (baseline (DepthMarketData.stampStart interval) (ts ++ [a]) x).volume = a.volume ∧
      (baseline (DepthMarketData.stampStart interval) (ts ++ [a]) x).turnover = a.turnover := by
  induction ts using List.reverseRecOn generalizing a later with
  | nil => exact ⟨rfl, rfl⟩
  | append_singleton ts b ih =>
    by_cases same : b.stampStart interval = a.stampStart interval
    · rw [Runs.baseline_continue _ _ _ same]
      exact ⟨rfl, rfl⟩
    · have opens : ∀ p ∈ (ts ++ [b]).getLast?, p.stampStart interval ≠ a.stampStart interval := by
        simpa using same
      obtain ⟨volume, turnover⟩ := idle ts b a later split ⟨opens, by simp, closes⟩
      rw [Runs.baseline_open _ _ _ x same, volume, turnover]
      exact ih b (a :: later) (by simpa using split) (by simpa using Ne.symm same)

/-- The bars carry the volume traded in them exactly if no volume is traded at a tick that is
    alone in its bar, the first bar apart. -/
theorem volume_traded_iff (interval : Int) (ticks : List (DepthMarketData F)) :
    VolumeTraded interval ticks ↔ LoneTicksIdle interval ticks := by
  constructor
  · intro traded before p first later split isRun
    have whole : ticks = (before ++ [p]) ++ first :: [] ++ later := by simpa using split
    obtain ⟨bar, returned, volume, amount⟩ := traded _ first [] later whole isRun
    have known := bar_of_run interval isRun.opens [] later isRun.same
    rw [← whole, returned] at known
    obtain rfl : bar = _ := Option.some.inj known
    obtain ⟨none, nothing⟩ := batchBar_single interval
      (baseline (DepthMarketData.stampStart interval) (before ++ [p]) first) first
    rw [none] at volume
    rw [nothing] at amount
    simp only [List.getLast?_nil, Option.getD_none, List.getLast?_concat, Option.getD_some] at *
    exact ⟨by omega, sub_eq_zero.mp amount.symm⟩
  · intro idle before first rest later split isRun
    have known := bar_of_run interval isRun.opens rest later isRun.same
    rw [← split] at known
    refine ⟨_, known, ?_⟩
    rcases List.eq_nil_or_concat rest with rfl | ⟨us, t, rfl⟩
    · obtain ⟨none, nothing⟩ := batchBar_single interval
        (baseline (DepthMarketData.stampStart interval) before first) first
      rw [none, nothing]
      rcases List.eq_nil_or_concat before with rfl | ⟨ts, p, rfl⟩
      · simp
      · rw [List.concat_eq_append] at *
        obtain ⟨volume, turnover⟩ := idle ts p first later (by simpa using split) isRun
        simp [volume, turnover]
    · rw [List.concat_eq_append] at *
      obtain ⟨volume, amount⟩ := batchBar_more interval
        (baseline (DepthMarketData.stampStart interval) before first) first t us
      rw [volume, amount, List.getLast?_concat, Option.getD_some]
      rcases List.eq_nil_or_concat before with rfl | ⟨ts, p, rfl⟩
      · exact ⟨rfl, rfl⟩
      · rw [List.concat_eq_append] at *
        have apart := isRun.opens p (by simp)
        obtain ⟨volume, turnover⟩ := baseline_counters idle ts p first
          (first :: (us ++ [t]) ++ later) (by simpa using split) (by simpa using Ne.symm apart)
        simp [volume, turnover]

def loneTick : List (DepthMarketData Int) :=
  [evening 19 34 10 2000 22000 100, evening 20 14 11 2600 28600 100,
    evening 21 10 12 2650 29200 100, evening 21 40 12 2700 29800 100]

theorem loneTick_untraded :
    Cumulative loneTick ∧ ((BarGenerator.new 60).bars loneTick).map BarData.volume = [0, 0, 0, 700] ∧
      ¬ VolumeTraded 60 loneTick := by
  refine ⟨by unfold Cumulative; decide, by decide, ?_⟩
  intro traded
  obtain ⟨bar, returned, volume, _⟩ := traded [evening 19 34 10 2000 22000 100]
    (evening 20 14 11 2600 28600 100) []
    [evening 21 10 12 2650 29200 100, evening 21 40 12 2700 29800 100] rfl
    ⟨by decide, by simp, by decide⟩
  have none : (((BarGenerator.new 60).bars loneTick)[1]?).map BarData.volume = some 0 := by decide
  change ((BarGenerator.new 60).bars loneTick)[1]? = some bar at returned
  change bar.volume = 2600 - 2000 at volume
  rw [returned] at none
  obtain zero : bar.volume = 0 := Option.some.inj none
  omega

/-! The sign of the volume. -/

/-- Every tick that is not the first of its bar has counters no less than those of the
    baseline: the last tick of the latest earlier bar of two ticks or more, or the very first
    tick. -/
def AboveBaseline (interval : Int) (ticks : List (DepthMarketData F)) : Prop :=
  ∀ before first rest t later, ticks = before ++ first :: (rest ++ [t]) ++ later →
    (∀ p ∈ before.getLast?, p.stampStart interval ≠ first.stampStart interval) →
    (∀ u ∈ rest ++ [t], u.stampStart interval = first.stampStart interval) →
    (baseline (DepthMarketData.stampStart interval) before first).volume ≤ t.volume ∧
      (baseline (DepthMarketData.stampStart interval) before first).turnover ≤ t.turnover

theorem length_bars (g : BarGenerator F) (ts : List (DepthMarketData F)) :
    (g.bars ts).length = ts.length := by
  induction ts generalizing g with
  | nil => rfl
  | cons t ts ih => exact congrArg Nat.succ (ih _)

theorem bar_cases {interval : Int} {ticks : List (DepthMarketData F)} {bar : BarData F}
    (member : bar ∈ (BarGenerator.new interval).bars ticks) : ∃ before first rest later,
      ticks = before ++ first :: rest ++ later ∧
      (∀ p ∈ before.getLast?, p.stampStart interval ≠ first.stampStart interval) ∧
      (∀ u ∈ rest, u.stampStart interval = first.stampStart interval) ∧
      bar = batchBar interval (baseline (DepthMarketData.stampStart interval) before first)
        first rest := by
  obtain ⟨n, less, returned⟩ := List.mem_iff_getElem.mp member
  rw [length_bars] at less
  obtain ⟨before, first, rest, split, opens, run⟩ :=
    Runs.exists_run (DepthMarketData.stampStart interval) (ticks.take n) ticks[n]
  have same : ∀ u ∈ rest, u.stampStart interval = first.stampStart interval := fun u later =>
    (run u (by simp [later])).trans (run first (by simp)).symm
  have whole : ticks = before ++ first :: rest ++ ticks.drop (n + 1) := by
    rw [← split, List.take_append_getElem, List.take_append_drop]
  have place : before.length + rest.length = n := by
    have lengths := congrArg List.length split
    simp only [List.length_append, List.length_take, List.length_cons, List.length_nil] at lengths
    omega
  have known := bar_of_run interval opens rest (ticks.drop (n + 1)) same
  rw [← whole, place] at known
  refine ⟨before, first, rest, _, whole, opens, same, ?_⟩
  obtain ⟨_, now⟩ := List.getElem?_eq_some_iff.mp known
  exact returned.symm.trans now

variable [IsOrderedAddMonoid F]

/-- No bar is negative exactly if no counter falls below its baseline. When the counters
    start again on a new trading day, the baseline is still that of the day before. -/
theorem never_negative_iff (interval : Int) (ticks : List (DepthMarketData F)) :
    (∀ bar ∈ (BarGenerator.new interval).bars ticks, 0 ≤ bar.volume ∧ 0 ≤ bar.amount) ↔
      AboveBaseline interval ticks := by
  constructor
  · intro positive before first rest t later split opens same
    have known := bar_of_run interval opens (rest ++ [t]) later same
    rw [← split] at known
    obtain ⟨volume, amount⟩ := positive _ (List.mem_of_getElem? known)
    obtain ⟨traded, turned⟩ := batchBar_more interval
      (baseline (DepthMarketData.stampStart interval) before first) first t rest
    rw [traded] at volume
    rw [turned] at amount
    exact ⟨by omega, sub_nonneg.mp amount⟩
  · intro above bar member
    obtain ⟨before, first, rest, later, split, opens, same, rfl⟩ := bar_cases member
    rcases List.eq_nil_or_concat rest with rfl | ⟨us, t, rfl⟩
    · obtain ⟨none, nothing⟩ := batchBar_single interval
        (baseline (DepthMarketData.stampStart interval) before first) first
      exact ⟨none.ge, nothing.ge⟩
    · rw [List.concat_eq_append] at *
      obtain ⟨traded, turned⟩ := batchBar_more interval
        (baseline (DepthMarketData.stampStart interval) before first) first t us
      obtain ⟨volume, amount⟩ := above before first us t later split opens same
      rw [traded, turned]
      exact ⟨by omega, sub_nonneg.mpr amount⟩

theorem firstTicks_above : AboveBaseline 60 [firstTick, secondTick, thirdTick] :=
  (never_negative_iff 60 _).mp (by decide)

def twoDays : List (List (DepthMarketData Int)) :=
  [[evening 10 5 10 100 1000 100], [evening 20 0 10 5 50 100, evening 20 30 10 8 80 100]]

theorem twoDays_negative :
    (∀ day ∈ twoDays, Cumulative day) ∧
      ((BarGenerator.new 60).bars twoDays.flatten).map BarData.volume = [0, 0, -92] ∧
      ¬ ∀ bar ∈ (BarGenerator.new 60).bars twoDays.flatten, 0 ≤ bar.volume ∧ 0 ≤ bar.amount := by
  refine ⟨by unfold Cumulative; decide, by decide, ?_⟩
  decide

end TickParser
