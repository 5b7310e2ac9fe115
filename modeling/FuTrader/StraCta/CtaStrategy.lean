import FuTrader.StraCta.Position
import Mathlib.Data.Rat.Sqrt

/- `CtaStrategy`, which holds an object of either strategy, and what every strategy that
   trades like them puts into its orders. -/
namespace FuTrader

/-- `std::variant<Aberration, DualThrust>`. -/
inductive CtaStrategy (F : Type) where
  | aberration (stg : Aberration F)
  | dualThrust (stg : DualThrust F)

namespace CtaStrategy
variable {F : Type}

def order : CtaStrategy F → Order
  | .aberration stg => stg.order
  | .dualThrust stg => stg.order

def position : CtaStrategy F → Int
  | .aberration stg => stg.position
  | .dualThrust stg => stg.position

def lots : CtaStrategy F → UInt32
  | .aberration stg => stg.lots
  | .dualThrust stg => stg.lots

def stgName (stg : CtaStrategy F) : StrategyType := stg.order.stgName

variable [CMath F]

def onTick : CtaStrategy F → TickData F → CtaStrategy F × Option Order
  | .aberration stg, tick => (.aberration (stg.onTick tick).1, (stg.onTick tick).2)
  | .dualThrust stg, tick => (.dualThrust (stg.onTick tick).1, (stg.onTick tick).2)

def trader : Trader F (CtaStrategy F) where
  onTick := onTick
  position := position
  lots := lots
  kept stg tick := by
    cases stg with
    | aberration stg => exact Aberration.trader.kept stg tick
    | dualThrust stg => exact DualThrust.trader.kept stg tick
  answers stg tick := by
    cases stg with
    | aberration stg => exact Aberration.trader.answers stg tick
    | dualThrust stg => exact DualThrust.trader.answers stg tick

inductive Fresh : CtaStrategy F → Prop where
  | aberration : Fresh (.aberration .fresh)
  | dualThrust : Fresh (.dualThrust .fresh)

theorem Fresh.flat {stg : CtaStrategy F} (fresh : Fresh stg) : stg.position = 0 := by
  cases fresh <;> rfl

theorem Fresh.one_lot {stg : CtaStrategy F} (fresh : Fresh stg) : stg.lots = 1 := by
  cases fresh <;> rfl

theorem onTick_stgName (stg : CtaStrategy F) (tick : TickData F) :
    (stg.onTick tick).1.stgName = stg.stgName ∧
      ∀ o ∈ (stg.onTick tick).2, o.stgName = stg.stgName := by
  cases stg with
  | aberration stg =>
    simp only [onTick, stgName, order, Aberration.onTick_rolled, Aberration.trade]
    split_ifs <;> simp [Aberration.emit, Aberration.fill, Aberration.rolled]
  | dualThrust stg =>
    simp only [onTick, stgName, order, DualThrust.onTick]
    split_ifs <;> simp [DualThrust.emit, DualThrust.fill]

end CtaStrategy

/-- Rational prices and a missing one, on which both strategies can be run. Roots are exact
    where they are rational. -/
structure Price where
  value : Option ℚ
  deriving DecidableEq

namespace Price

def map₂ (f : ℚ → ℚ → Option ℚ) (x y : Price) : Price :=
  ⟨x.value.bind fun a => y.value.bind fun b => f a b⟩

def compare (r : ℚ → ℚ → Bool) (x y : Price) : Bool :=
  (x.value.bind fun a => y.value.map fun b => r a b).getD false

instance : CMath Price where
  add := map₂ fun a b => some (a + b)
  sub := map₂ fun a b => some (a - b)
  mul := map₂ fun a b => some (a * b)
  div := map₂ fun a b => if b = 0 then none else some (a / b)
  lt x y := compare (fun a b => decide (a < b)) x y = true
  le x y := compare (fun a b => decide (a ≤ b)) x y = true
  zero := ⟨some 0⟩
  half := ⟨some (1 / 2)⟩
  decLt _ _ := inferInstanceAs (Decidable (_ = true))
  decLe _ _ := inferInstanceAs (Decidable (_ = true))
  NAN := ⟨none⟩
  sqrt x := ⟨x.value.bind fun a => if a < 0 then none else some (Rat.sqrt a)⟩
  ofNat n := ⟨some n⟩
  eq := compare fun a b => decide (a = b)

end Price
end FuTrader
