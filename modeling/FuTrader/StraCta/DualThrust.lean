import FuTrader.Common.Data
import FuTrader.Common.Double

/- The DualThrust strategy, over any type that computes like double. -/

namespace FuTrader

structure DualThrust (F : Type) where
  order : Order
  position : Int
  lots : UInt32
  k1 : F
  k2 : F
  «open» : F
  max : F
  min : F
  initialized : Bool

namespace DualThrust
variable {F : Type} [Double F]

def name : StrategyType := charArray 32 [68, 117, 97, 108, 84, 104, 114, 117, 115, 116]

def fresh : DualThrust F where
  order := ⟨name, Vector.replicate 16 0, 0, 0, .BUY, .OPEN⟩
  position := 0
  lots := 1
  k1 := Double.half
  k2 := Double.half
  «open» := Double.zero
  max := Double.zero
  min := Double.zero
  initialized := false

def observe (s : DualThrust F) (last : F) : DualThrust F :=
  if s.initialized then { s with max := stdMax s.max last, min := stdMin s.min last }
  else { s with «open» := last, max := last, min := last, initialized := true }

def buyThreshold (s : DualThrust F) : F := s.open + s.k1 * (s.max - s.min)
def sellThreshold (s : DualThrust F) : F := s.open - s.k2 * (s.max - s.min)

def fill (s : DualThrust F) (tick : TickData F) (direction : DirectionType)
    (offset : OffsetFlagType) : Order :=
  { s.order with
    symbol := tick.symbol, timestamp := tick.stamp, volume := s.lots, direction, offset }

def emit (s : DualThrust F) (tick : TickData F) (direction : DirectionType)
    (offset : OffsetFlagType) (position : Int) (initialized : Bool) :
    DualThrust F × Option Order :=
  ({ s with order := s.fill tick direction offset, position, initialized },
    some (s.fill tick direction offset))

/-- A CLOSE also starts a new range at the next tick. -/
def onTick (s : DualThrust F) (tick : TickData F) : DualThrust F × Option Order :=
  let s := s.observe tick.last
  if s.position = 0 then
    if s.buyThreshold ≤ tick.last then s.emit tick .BUY .OPEN 1 s.initialized
    else if tick.last ≤ s.sellThreshold then s.emit tick .SELL .OPEN (-1) s.initialized
    else (s, none)
  else if 0 < s.position then
    if tick.last < s.open then s.emit tick .SELL .CLOSE 0 false
    else (s, none)
  else
    if s.open < tick.last then s.emit tick .BUY .CLOSE 0 false
    else (s, none)

@[simp] theorem observe_position (s : DualThrust F) (last : F) :
    (s.observe last).position = s.position := by
  unfold observe
  split <;> rfl

@[simp] theorem observe_lots (s : DualThrust F) (last : F) :
    (s.observe last).lots = s.lots := by
  unfold observe
  split <;> rfl

@[simp] theorem observe_order (s : DualThrust F) (last : F) :
    (s.observe last).order = s.order := by
  unfold observe
  split <;> rfl

inductive Trade : Int → DirectionType → OffsetFlagType → Int → Prop where
  | long : Trade 0 .BUY .OPEN 1
  | short : Trade 0 .SELL .OPEN (-1)
  | sell {position : Int} (held : 0 < position) : Trade position .SELL .CLOSE 0
  | cover {position : Int} (held : position < 0) : Trade position .BUY .CLOSE 0

theorem onTick_trades (s : DualThrust F) (tick : TickData F) :
    ((s.onTick tick).2 = none ∧ (s.onTick tick).1.position = s.position) ∨
      ∃ direction offset, (s.onTick tick).2 = some (s.fill tick direction offset) ∧
        Trade s.position direction offset (s.onTick tick).1.position := by
  have same : ∀ direction offset,
      (s.observe tick.last).fill tick direction offset = s.fill tick direction offset := by
    intro direction offset
    simp [fill]
  by_cases flat : s.position = 0
  · by_cases buy : (s.observe tick.last).buyThreshold ≤ tick.last
    · refine Or.inr ⟨.BUY, .OPEN, ?_⟩
      simp only [onTick, observe_position, flat, buy, if_true, emit, same, true_and]
      exact .long
    · by_cases sell : tick.last ≤ (s.observe tick.last).sellThreshold
      · refine Or.inr ⟨.SELL, .OPEN, ?_⟩
        simp only [onTick, observe_position, flat, buy, sell, if_true, if_false, emit, same,
          true_and]
        exact .short
      · exact Or.inl (by simp [onTick, flat, buy, sell])
  · by_cases long : 0 < s.position
    · by_cases below : tick.last < (s.observe tick.last).open
      · refine Or.inr ⟨.SELL, .CLOSE, ?_⟩
        simp only [onTick, observe_position, flat, long, below, if_true, if_false, emit, same,
          true_and]
        exact .sell long
      · exact Or.inl (by simp [onTick, flat, long, below])
    · by_cases above : (s.observe tick.last).open < tick.last
      · refine Or.inr ⟨.BUY, .CLOSE, ?_⟩
        simp only [onTick, observe_position, flat, long, above, if_true, if_false, emit, same,
          true_and]
        exact .cover (by omega)
      · exact Or.inl (by simp [onTick, flat, long, above])

end DualThrust
end FuTrader
