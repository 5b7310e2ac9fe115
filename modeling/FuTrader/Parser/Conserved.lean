import FuTrader.Parser.Bars
import Mathlib.Algebra.BigOperators.Group.List.Basic

/- The volume and the amount of the closed bars and of the current one, taken together, are
   those since the very first tick, up to the latest tick that opened no bar. What a tick
   that opens a bar brings is counted in a later bar. -/
namespace TickParser
open FuTrader (BarData)
open Runs (baseline closed)
variable {F : Type} [LinearOrder F] [AddCommGroup F] [One F]

def closedBars (interval : Int) (ticks : List (DepthMarketData F)) : List (BarData F) :=
  closed BarData.stampStart ((BarGenerator.new interval).bars ticks)

theorem bars_current (g : BarGenerator F) (ts : List (DepthMarketData F)) (t : DepthMarketData F) :
    ∃ c, g.bars (ts ++ [t]) = g.bars ts ++ [c] ∧ (g.after (ts ++ [t])).current = some c := by
  refine ⟨_, bars_snoc g ts t, ?_⟩
  rw [after_snoc]
  exact processTick_current _ t

theorem closedBars_snoc {interval : Int} {ts : List (DepthMarketData F)} {a : DepthMarketData F}
    {c : BarData F}
    (current : ((BarGenerator.new interval).after (ts ++ [a])).current = some c)
    (t : DepthMarketData F) :
    closedBars interval (ts ++ [a] ++ [t]) = closedBars interval (ts ++ [a]) ++
      if t.stampStart interval = c.stampStart then [] else [c] := by
  obtain ⟨c', snapshots, now⟩ := bars_current (BarGenerator.new interval) ts a
  obtain rfl : c = c' := Option.some.inj (current.symm.trans now)
  have kept : ((BarGenerator.new interval).after (ts ++ [a])).interval = interval :=
    after_interval _ _
  have bar := processTick_current ((BarGenerator.new interval).after (ts ++ [a])) t
  rw [closedBars, closedBars, bars_snoc, snapshots, Runs.closed_snoc]
  by_cases same : t.stampStart interval = c.stampStart
  · rw [processTick_within current (by rw [kept, same])] at bar
    rw [← Option.some.inj bar]
    simp [same]
  · rw [processTick_open current (by rw [kept]; exact same)] at bar
    rw [← Option.some.inj bar, kept]
    simp [openBar, same, Ne.symm same]

theorem cons_snoc {α : Type} (first : α) (rest : List α) : ∃ ts a, first :: rest = ts ++ [a] :=
  ⟨_, _, (List.dropLast_append_getLast (List.cons_ne_nil first rest)).symm⟩

theorem closed_sums (interval : Int) (first : DepthMarketData F) (rest : List (DepthMarketData F)) :
    ((BarGenerator.new interval).after (first :: rest)).lastBarVol =
        first.volume + ((closedBars interval (first :: rest)).map BarData.volume).sum ∧
      ((BarGenerator.new interval).after (first :: rest)).lastBarAmt =
        first.turnover + ((closedBars interval (first :: rest)).map BarData.amount).sum := by
  induction rest using List.reverseRecOn with
  | nil => exact ⟨(add_zero _).symm, (add_zero _).symm⟩
  | append_singleton rest t ih =>
    obtain ⟨ts, a, split⟩ := cons_snoc first rest
    rw [split] at ih
    rw [← List.cons_append, split, after_snoc]
    obtain ⟨volume, amount⟩ := ih
    obtain ⟨c, _, current⟩ := bars_current (BarGenerator.new interval) ts a
    have kept : ((BarGenerator.new interval).after (ts ++ [a])).interval = interval :=
      after_interval _ _
    rw [closedBars_snoc current]
    by_cases same : t.stampStart interval = c.stampStart
    · rw [processTick_within current (by rw [kept, same]), if_pos same, List.append_nil]
      exact ⟨volume, amount⟩
    · rw [processTick_open current (by rw [kept]; exact same), if_neg same]
      constructor
      · simp [volume, add_assoc]
      · simp [amount, add_assoc]

/-- No volume and no amount is lost or counted twice. -/
theorem volume_conserved (interval : Int) (first : DepthMarketData F)
    (rest : List (DepthMarketData F)) :
    ∃ c, ((BarGenerator.new interval).after (first :: rest)).current = some c ∧
      let last := baseline (DepthMarketData.stampStart interval) (first :: rest) first
      ((closedBars interval (first :: rest)).map BarData.volume).sum + c.volume =
          last.volume - first.volume ∧
        ((closedBars interval (first :: rest)).map BarData.amount).sum + c.amount =
          last.turnover - first.turnover ∧
        ((BarGenerator.new interval).after (first :: rest)).lastBarVol + c.volume = last.volume ∧
        ((BarGenerator.new interval).after (first :: rest)).lastBarAmt + c.amount =
          last.turnover := by
  obtain ⟨volume, amount⟩ := closed_sums interval first rest
  obtain ⟨ts, a, split⟩ := cons_snoc first rest
  obtain ⟨c, current, _, counted, turned⟩ := closed_counters interval ts a first
  rw [← split] at current counted turned
  refine ⟨c, current, ?_, ?_, counted, turned⟩
  · rw [← counted, volume]
    omega
  · rw [← turned, amount, add_assoc, add_sub_cancel_left]

end TickParser
