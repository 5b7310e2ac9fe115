import FuTrader.Common.Data
import FuTrader.Lib.Runs
import FuTrader.Parser.TickTime
import Mathlib.Algebra.Group.Basic

/- BarGenerator, which turns the ticks of one instrument into bars. `F` stands for
   double; its sums and differences are taken as exact. -/
namespace TickParser
open FuTrader (SymbolType cString BarData)
variable {F : Type}

/-- The fields of CThostFtdcDepthMarketDataField that process_tick reads. -/
structure DepthMarketData (F : Type) where
  instrumentID : Vector UInt8 81
  actionDay : Vector UInt8 9
  updateTime : Vector UInt8 9
  updateMillisec : Int
  lastPrice : F
  volume : Int
  turnover : F
  openInterest : F

/-- The text of `std::format("{} {}", ActionDay, UpdateTime)`. -/
def DepthMarketData.dtStr (t : DepthMarketData F) : List UInt8 :=
  cString t.actionDay.toList ++ 32 :: cString t.updateTime.toList

def DepthMarketData.tpLast (t : DepthMarketData F) : Int := str2tp t.dtStr

def DepthMarketData.stampLast (t : DepthMarketData F) : Int := 1000 * t.tpLast + t.updateMillisec

def DepthMarketData.stampStart (interval : Int) (t : DepthMarketData F) : Int :=
  1000 * floorToInterval t.tpLast interval

/-- The first `SYMBOL_SIZE - 1` bytes, over zeros. -/
def DepthMarketData.symbol (t : DepthMarketData F) : SymbolType :=
  Vector.ofFn fun i => if i.val < 15 then t.instrumentID.toList.getD i.val 0 else 0

/-- `_last_bar_vol` is a double, and the numbers it holds are integers. -/
structure BarGenerator (F : Type) where
  interval : Int
  current : Option (BarData F)
  lastBarVol : Int
  lastBarAmt : F

variable [LinearOrder F] [AddCommGroup F] [One F]

def BarGenerator.new (interval : Int) : BarGenerator F := ⟨interval, none, 0, 0⟩

def openBar (interval : Int) (t : DepthMarketData F) : BarData F where
  symbol := t.symbol
  stampStart := t.stampStart interval
  stampLast := t.stampLast
  «open» := t.lastPrice
  high := t.lastPrice
  low := t.lastPrice
  close := t.lastPrice
  volume := 0
  amount := 0
  oi := t.openInterest
  adj := 1

/-- The bar that is returned, and the generator after it. -/
def BarGenerator.processTick (g : BarGenerator F) (t : DepthMarketData F) :
    BarData F × BarGenerator F :=
  match g.current with
  | none =>                                                       -- first tick
    let bar := openBar g.interval t
    (bar, { g with lastBarVol := t.volume, lastBarAmt := t.turnover, current := some bar })
  | some c =>
    if t.stampStart g.interval ≠ c.stampStart then                -- c is a closed bar
      let bar := openBar g.interval t
      (bar, { g with
        lastBarVol := g.lastBarVol + c.volume
        lastBarAmt := g.lastBarAmt + c.amount
        current := some bar })
    else
      let bar := { c with
        stampLast := t.stampLast
        high := max c.high t.lastPrice
        low := min c.low t.lastPrice
        close := t.lastPrice
        volume := t.volume - g.lastBarVol
        amount := t.turnover - g.lastBarAmt
        oi := t.openInterest }
      (bar, { g with current := some bar })

def BarGenerator.bars (g : BarGenerator F) : List (DepthMarketData F) → List (BarData F)
  | [] => []
  | t :: ts => (g.processTick t).1 :: bars (g.processTick t).2 ts

def BarGenerator.after (g : BarGenerator F) (ts : List (DepthMarketData F)) : BarGenerator F :=
  ts.foldl (fun g t => (g.processTick t).2) g

theorem after_snoc (g : BarGenerator F) (ts : List (DepthMarketData F)) (t : DepthMarketData F) :
    g.after (ts ++ [t]) = ((g.after ts).processTick t).2 := by
  simp [BarGenerator.after]

theorem processTick_current (g : BarGenerator F) (t : DepthMarketData F) :
    (g.processTick t).2.current = some (g.processTick t).1 := by
  unfold BarGenerator.processTick
  split
  · rfl
  · split <;> rfl

theorem processTick_interval (g : BarGenerator F) (t : DepthMarketData F) :
    (g.processTick t).2.interval = g.interval := by
  unfold BarGenerator.processTick
  split
  · rfl
  · split <;> rfl

theorem after_interval (g : BarGenerator F) (ts : List (DepthMarketData F)) :
    (g.after ts).interval = g.interval := by
  induction ts generalizing g with
  | nil => rfl
  | cons t ts ih => exact (ih _).trans (processTick_interval g t)

theorem bars_getElem (g : BarGenerator F) (ts later : List (DepthMarketData F))
    (t : DepthMarketData F) :
    (g.bars (ts ++ t :: later))[ts.length]? = (g.after (ts ++ [t])).current := by
  induction ts generalizing g with
  | nil => exact (processTick_current g t).symm
  | cons u us ih => exact ih (g.processTick u).2

theorem bars_snoc (g : BarGenerator F) (ts : List (DepthMarketData F)) (t : DepthMarketData F) :
    g.bars (ts ++ [t]) = g.bars ts ++ [((g.after ts).processTick t).1] := by
  induction ts generalizing g with
  | nil => rfl
  | cons u us ih => exact congrArg _ (ih (g.processTick u).2)

/-! The paths of process_tick with a current bar. -/

theorem processTick_open {g : BarGenerator F} {c : BarData F} {t : DepthMarketData F}
    (current : g.current = some c) (apart : t.stampStart g.interval ≠ c.stampStart) :
    (g.processTick t).2 = { g with
      current := some (openBar g.interval t)
      lastBarVol := g.lastBarVol + c.volume
      lastBarAmt := g.lastBarAmt + c.amount } := by
  simp [BarGenerator.processTick, current, apart]

theorem processTick_within {g : BarGenerator F} {c : BarData F} {t : DepthMarketData F}
    (current : g.current = some c) (same : t.stampStart g.interval = c.stampStart) :
    (g.processTick t).2 = { g with current := some { c with
      stampLast := t.stampLast
      high := max c.high t.lastPrice
      low := min c.low t.lastPrice
      close := t.lastPrice
      volume := t.volume - g.lastBarVol
      amount := t.turnover - g.lastBarAmt
      oi := t.openInterest } } := by
  simp [BarGenerator.processTick, current, same]

end TickParser
