import Mathlib.Algebra.Order.Field.Rat

/- The operations of double that the strategies use. No law is assumed of them, so that NaN
   and the infinities are among the values. -/

namespace FuTrader

/-- What the strategies do with a double; no law is assumed, so NaN is one of its values. -/
class Double (F : Type) extends Add F, Sub F, Mul F, LT F, LE F where
  zero : F
  half : F
  decLt : DecidableLT F
  decLe : DecidableLE F

attribute [reducible, instance] Double.decLt Double.decLe

instance : Double ℚ where
  zero := 0
  half := 1 / 2
  decLt := inferInstance
  decLe := inferInstance

def stdMax {F : Type} [Double F] (a b : F) : F := if a < b then b else a
def stdMin {F : Type} [Double F] (a b : F) : F := if b < a then b else a

/-- `eq` is `==`, and `ofNat` the conversion of a size_t. -/
class CMath (F : Type) extends Double F, Div F where
  NAN : F
  sqrt : F → F
  ofNat : Nat → F
  eq : F → F → Bool

/-- `three` is `3.0`, and `pow15 x` is `std::pow(x, 1.5)`. -/
class CPow (F : Type) extends CMath F where
  three : F
  pow15 : F → F

/-- The comparison `!=` holds of NaN and any value. -/
def CMath.ne {F : Type} [CMath F] (x y : F) : Bool := !CMath.eq x y

end FuTrader
