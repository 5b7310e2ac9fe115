import FuTrader.Parser.BarGenerator
import Mathlib.Algebra.Order.Group.Defs
import Mathlib.Algebra.Order.Group.Unbundled.Basic
import Mathlib.Data.List.Induction

/- The bars of a sequence of ticks. Cut into maximal runs of ticks in one interval, each
   run gives the bar that is the aggregate of its ticks; only its volume and amount depend
   on earlier ticks, through one of them. -/
namespace TickParser
open FuTrader (BarData)
open Runs (IsRun continued baseline)
variable {F : Type} [LinearOrder F] [AddCommGroup F] [One F]

/-- The bar of the run `first :: rest`, its counters taken from those of `base` on. A run
    of one tick counts nothing. -/
def batchBar (interval : Int) (base first : DepthMarketData F) (rest : List (DepthMarketData F)) :
    BarData F :=
  let last := rest.getLast?.getD first
  { symbol := first.symbol
    stampStart := first.stampStart interval
    stampLast := last.stampLast
    «open» := first.lastPrice
    high := (rest.map DepthMarketData.lastPrice).foldl max first.lastPrice
    low := (rest.map DepthMarketData.lastPrice).foldl min first.lastPrice
    close := last.lastPrice
    volume := if rest.isEmpty then 0 else last.volume - base.volume
    amount := if rest.isEmpty then 0 else last.turnover - base.turnover
    oi := last.openInterest
    adj := 1 }

structure Running (interval : Int) (base first : DepthMarketData F)
    (rest : List (DepthMarketData F)) (g : BarGenerator F) : Prop where
  kept : g.interval = interval
  current : g.current = some (batchBar interval base first rest)
  volume : g.lastBarVol = base.volume
  amount : g.lastBarAmt = base.turnover

theorem Running.next {interval : Int} {base first t : DepthMarketData F}
    {rest : List (DepthMarketData F)} {g : BarGenerator F}
    (running : Running interval base first rest g)
    (same : t.stampStart interval = first.stampStart interval) :
    Running interval base first (rest ++ [t]) (g.processTick t).2 := by
  obtain ⟨rfl, current, volume, amount⟩ := running
  rw [processTick_within current same]
  refine ⟨rfl, ?_, volume, amount⟩
  simp [batchBar, volume, amount]

/-- When the run of the latest tick closes, the counters of the next bar start from the
    latest tick that had company in its run, or from the very first tick. -/
theorem closed_counters (interval : Int) (ts : List (DepthMarketData F)) (a x : DepthMarketData F) :
    ∃ c, ((BarGenerator.new interval).after (ts ++ [a])).current = some c ∧
      c.stampStart = a.stampStart interval ∧
      ((BarGenerator.new interval).after (ts ++ [a])).lastBarVol + c.volume =
        (baseline (DepthMarketData.stampStart interval) (ts ++ [a]) x).volume ∧
      ((BarGenerator.new interval).after (ts ++ [a])).lastBarAmt + c.amount =
        (baseline (DepthMarketData.stampStart interval) (ts ++ [a]) x).turnover := by
  induction ts using List.reverseRecOn generalizing a with
  | nil =>
    refine ⟨openBar interval a, rfl, rfl, ?_, ?_⟩
    · exact add_zero a.volume
    · exact add_zero a.turnover
  | append_singleton ts b ih =>
    obtain ⟨c, current, start, volume, amount⟩ := ih b
    have kept : ((BarGenerator.new interval).after (ts ++ [b])).interval = interval :=
      after_interval _ _
    rw [after_snoc]
    by_cases same : b.stampStart interval = a.stampStart interval
    · rw [processTick_within current (by rw [kept, start, same]), Runs.baseline_continue _ _ _ same]
      refine ⟨_, rfl, start.trans same, ?_, ?_⟩
      · exact add_sub_cancel _ a.volume
      · exact add_sub_cancel _ a.turnover
    · rw [processTick_open current (by rw [kept, start]; exact Ne.symm same),
        Runs.baseline_open _ _ _ x same, ← volume, ← amount, kept]
      refine ⟨_, rfl, rfl, ?_, ?_⟩
      · exact add_zero _
      · exact add_zero _

theorem running_open (interval : Int) {before : List (DepthMarketData F)} {first : DepthMarketData F}
    (opens : ∀ p ∈ before.getLast?, p.stampStart interval ≠ first.stampStart interval) :
    Running interval (baseline (DepthMarketData.stampStart interval) before first) first []
      ((BarGenerator.new interval).after (before ++ [first])) := by
  rcases List.eq_nil_or_concat before with rfl | ⟨ts, a, rfl⟩
  · exact ⟨rfl, rfl, rfl, rfl⟩
  · obtain ⟨c, current, start, volume, amount⟩ := closed_counters interval ts a first
    have kept : ((BarGenerator.new interval).after (ts ++ [a])).interval = interval :=
      after_interval _ _
    have apart := opens a (by simp)
    rw [List.concat_eq_append] at *
    rw [after_snoc, processTick_open current (by rw [kept, start]; exact Ne.symm apart)]
    refine ⟨kept, ?_, volume, amount⟩
    rw [kept]
    rfl

/-- Streaming is batch aggregation. -/
theorem running (interval : Int) {before : List (DepthMarketData F)} {first : DepthMarketData F}
    (opens : ∀ p ∈ before.getLast?, p.stampStart interval ≠ first.stampStart interval)
    (rest : List (DepthMarketData F))
    (same : ∀ t ∈ rest, t.stampStart interval = first.stampStart interval) :
    Running interval (baseline (DepthMarketData.stampStart interval) before first) first rest
      ((BarGenerator.new interval).after (before ++ first :: rest)) := by
  induction rest using List.reverseRecOn with
  | nil => exact running_open interval opens
  | append_singleton rest t ih =>
    have earlier := ih fun u member => same u (List.mem_append_left _ member)
    rw [← List.cons_append, ← List.append_assoc, after_snoc]
    exact earlier.next (same t (by simp))

theorem bar_of_run (interval : Int) {before : List (DepthMarketData F)} {first : DepthMarketData F}
    (opens : ∀ p ∈ before.getLast?, p.stampStart interval ≠ first.stampStart interval)
    (rest later : List (DepthMarketData F))
    (same : ∀ t ∈ rest, t.stampStart interval = first.stampStart interval) :
    ((BarGenerator.new interval).bars (before ++ first :: rest ++ later))[before.length +
        rest.length]? =
      some (batchBar interval (baseline (DepthMarketData.stampStart interval) before first)
        first rest) := by
  have current := (running interval opens rest same).current
  rcases List.eq_nil_or_concat rest with rfl | ⟨us, t, rfl⟩
  · have returned := bars_getElem (BarGenerator.new interval) before later first
    simp only [List.append_assoc, List.singleton_append, List.length_nil, Nat.add_zero]
    rw [returned, current]
  · have returned := bars_getElem (BarGenerator.new interval) (before ++ first :: us) later t
    have place : (before ++ first :: us).length = before.length + (us.concat t).length := by
      simp
    rw [place] at returned
    simp only [List.concat_eq_append, List.append_assoc, List.cons_append] at returned current ⊢
    rw [List.nil_append, returned, current]

structure DepthMarketData.Valid (t : DepthMarketData F) : Prop where
  date : ∃ d, parseDateTime t.dtStr = some d ∧ 1970 ≤ d.year
  millisec : 0 ≤ t.updateMillisec ∧ t.updateMillisec ≤ 999

structure Aggregate (interval : Int) (run : List (DepthMarketData F)) (bar : BarData F) : Prop where
  start : ∀ t ∈ run, IsGreatest {x | 1000 * interval ∣ x ∧ x ≤ t.stampLast} bar.stampStart
  last : run.getLast?.map DepthMarketData.stampLast = some bar.stampLast
  within : bar.stampStart ≤ bar.stampLast ∧ bar.stampLast < bar.stampStart + 1000 * interval
  «open» : run.head?.map DepthMarketData.lastPrice = some bar.open
  high : IsGreatest {p | p ∈ run.map DepthMarketData.lastPrice} bar.high
  low : IsLeast {p | p ∈ run.map DepthMarketData.lastPrice} bar.low
  close : run.getLast?.map DepthMarketData.lastPrice = some bar.close
  oi : run.getLast?.map DepthMarketData.openInterest = some bar.oi

omit [LinearOrder F] [AddCommGroup F] [One F] in
theorem stampStart_isGreatest {interval : Int} (positive : 0 < interval) {t : DepthMarketData F}
    (valid : t.Valid) :
    IsGreatest {x | 1000 * interval ∣ x ∧ x ≤ t.stampLast} (t.stampStart interval) := by
  obtain ⟨d, parsed, from1970⟩ := valid.date
  obtain ⟨low, high⟩ := valid.millisec
  have nonneg : 0 ≤ t.tpLast := str2tp_nonneg parsed from1970
  obtain ⟨⟨multiple, le⟩, greatest⟩ := floorToInterval_isGreatest positive nonneg
  constructor
  · refine ⟨Int.mul_dvd_mul_left 1000 multiple, ?_⟩
    simp only [DepthMarketData.stampStart, DepthMarketData.stampLast]
    omega
  · rintro _ ⟨⟨k, rfl⟩, le⟩
    have bound : interval * k ≤ t.tpLast := by
      rw [DepthMarketData.stampLast, mul_assoc] at le
      omega
    have := greatest ⟨Dvd.intro k rfl, bound⟩
    rw [DepthMarketData.stampStart, mul_assoc]
    omega

omit [LinearOrder F] [AddCommGroup F] [One F] in
theorem stampLast_within {interval : Int} (positive : 0 < interval) {t : DepthMarketData F}
    (valid : t.Valid) : t.stampStart interval ≤ t.stampLast ∧
      t.stampLast < t.stampStart interval + 1000 * interval := by
  obtain ⟨d, parsed, from1970⟩ := valid.date
  obtain ⟨low, high⟩ := valid.millisec
  have before := lt_floorToInterval_add positive (str2tp_nonneg parsed from1970)
  change t.tpLast < _ at before
  refine ⟨(stampStart_isGreatest positive valid).1.2, ?_⟩
  simp only [DepthMarketData.stampStart, DepthMarketData.stampLast]
  change _ < 1000 * floorToInterval (str2tp t.dtStr) interval + 1000 * interval
  omega

/-- The bar returned for the last tick of a maximal run is the aggregate of the run. -/
theorem bar_is_aggregate {interval : Int} (positive : 0 < interval)
    {before rest later : List (DepthMarketData F)} {first : DepthMarketData F}
    (valid : ∀ t ∈ before ++ first :: rest ++ later, t.Valid)
    (isRun : IsRun (DepthMarketData.stampStart interval) before first rest later) :
    ∃ bar, ((BarGenerator.new interval).bars (before ++ first :: rest ++ later))[before.length +
        rest.length]? = some bar ∧ Aggregate interval (first :: rest) bar := by
  refine ⟨_, bar_of_run interval isRun.opens rest later isRun.same, ?_⟩
  have same : ∀ t ∈ first :: rest, t.stampStart interval = first.stampStart interval :=
    List.forall_mem_cons.mpr ⟨rfl, isRun.same⟩
  have sound : ∀ t ∈ first :: rest, t.Valid := fun t member => valid t (by
    rw [List.append_assoc]
    exact List.mem_append_right _ (List.mem_append_left _ member))
  have last : (first :: rest).getLast? = some (rest.getLast?.getD first) := List.getLast?_cons
  have member : rest.getLast?.getD first ∈ first :: rest := List.mem_of_getLast? last
  constructor
  · intro t member
    have greatest := stampStart_isGreatest positive (sound t member)
    rwa [same t member] at greatest
  · rw [last]
    rfl
  · have inside := stampLast_within positive (sound _ member)
    rwa [same _ member] at inside
  · rfl
  · exact Runs.foldl_max_isGreatest _ _
  · exact Runs.foldl_min_isLeast _ _
  · rw [last]
    rfl
  · rw [last]
    rfl

def evening (minute second : Nat) (price volume turnover openInterest : Int) :
    DepthMarketData Int where
  instrumentID := FuTrader.charArray 81 [114, 98, 50, 53, 49, 48]
  actionDay := FuTrader.charArray 9 [50, 48, 50, 53, 48, 53, 49, 56]
  updateTime := FuTrader.charArray 9 [50, 49, 58,
    48 + (minute / 10).toUInt8, 48 + (minute % 10).toUInt8, 58,
    48 + (second / 10).toUInt8, 48 + (second % 10).toUInt8]
  updateMillisec := 500
  lastPrice := price
  volume := volume
  turnover := turnover
  openInterest := openInterest

def firstTick : DepthMarketData Int := evening 19 34 10 2000 22000 100
def secondTick : DepthMarketData Int := evening 19 59 11 4000 42000 200
def thirdTick : DepthMarketData Int := evening 20 14 12 6500 63000 300

theorem ticks_valid : ∀ t ∈ [firstTick, secondTick, thirdTick], t.Valid := by
  intro t member
  have second : ∃ s, parseDateTime t.dtStr = some s ∧ 1970 ≤ s.year := by
    rcases List.mem_cons.mp member with rfl | member
    · exact ⟨⟨2025, 5, 18, 21, 19, 34⟩, by decide, by decide⟩
    rcases List.mem_cons.mp member with rfl | member
    · exact ⟨⟨2025, 5, 18, 21, 19, 59⟩, by decide, by decide⟩
    · rw [List.mem_singleton.mp member]
      exact ⟨⟨2025, 5, 18, 21, 20, 14⟩, by decide, by decide⟩
  refine ⟨second, ?_⟩
  simp only [List.mem_cons, List.not_mem_nil, or_false] at member
  rcases member with rfl | rfl | rfl <;> decide

theorem firstTwo_aggregate : ∃ bar : BarData Int,
    ((BarGenerator.new 60).bars [firstTick, secondTick, thirdTick])[1]? = some bar ∧
      Aggregate 60 [firstTick, secondTick] bar := by
  have isRun : IsRun (DepthMarketData.stampStart 60) [] firstTick [secondTick] [thirdTick] :=
    ⟨by simp, by decide, by decide⟩
  exact bar_is_aggregate (by decide) ticks_valid isRun

end TickParser
