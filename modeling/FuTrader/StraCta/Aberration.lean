import FuTrader.Common.Data
import FuTrader.Operator.Rolling

/- The Aberration strategy: two standard deviations from the mean of 100 prices. -/

namespace FuTrader
open Rolling (Meaner Stder)

theorem hundred_pos : 0 < 100 := by decide

structure Aberration (F : Type) where
  meaner : Meaner F 100
  stder : Stder F 100
  position : Int
  lots : UInt32
  order : Order

namespace Aberration
variable {F : Type} [CMath F]

def name : StrategyType := charArray 32 [65, 98, 101, 114, 114, 97, 116, 105, 111, 110]

def fresh : Aberration F where
  meaner := .new hundred_pos
  stder := .new hundred_pos
  position := 0
  lots := 1
  order := ⟨name, Vector.replicate 16 0, 0, 0, .BUY, .OPEN⟩

/-- The order of a tick; it is kept in `_order` and a copy returned. -/
def fill (s : Aberration F) (tick : TickData F) (direction : DirectionType)
    (offset : OffsetFlagType) : Order :=
  { s.order with
    symbol := tick.symbol, timestamp := tick.stamp, volume := s.lots, direction, offset }

def emit (s : Aberration F) (tick : TickData F) (direction : DirectionType)
    (offset : OffsetFlagType) (position : Int) : Aberration F × Option Order :=
  ({ s with order := s.fill tick direction offset, position },
    some (s.fill tick direction offset))

def trade (s : Aberration F) (tick : TickData F) (mean standardDeviation : F) :
    Aberration F × Option Order :=
  if s.position = 0 then
    if mean + CMath.ofNat 2 * standardDeviation < tick.last then s.emit tick .BUY .OPEN 1
    else if tick.last < mean - CMath.ofNat 2 * standardDeviation then
      s.emit tick .SELL .OPEN (-1)
    else (s, none)
  else if 0 < s.position then
    if tick.last < mean then s.emit tick .SELL .CLOSE 0
    else (s, none)
  else
    if mean < tick.last then s.emit tick .BUY .CLOSE 0
    else (s, none)

def onTick (s : Aberration F) (tick : TickData F) : Aberration F × Option Order :=
  let (mean, meaner) := s.meaner.update tick.last
  let (standardDeviation, stder) := s.stder.update tick.last
  { s with meaner, stder }.trade tick mean standardDeviation

def rolled (s : Aberration F) (last : F) : Aberration F :=
  { s with meaner := (s.meaner.update last).2, stder := (s.stder.update last).2 }

theorem onTick_rolled (s : Aberration F) (tick : TickData F) :
    s.onTick tick = (s.rolled tick.last).trade tick (s.meaner.update tick.last).1
      (s.stder.update tick.last).1 := rfl

end Aberration
end FuTrader
