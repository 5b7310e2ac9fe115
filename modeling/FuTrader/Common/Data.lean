import Mathlib.Tactic.Common

/- The records of i_quote.h and i_order.h. `F` stands for double. -/

namespace FuTrader

/-- `char[16]`. -/
abbrev SymbolType := Vector UInt8 16

/-- `char[32]`. -/
abbrev StrategyType := Vector UInt8 32

/-- The std::string of a char array: its bytes before the first NUL. -/
def cString (bytes : List UInt8) : List UInt8 := bytes.takeWhile (· ≠ 0)

/-- The stamps, in milliseconds, and the volume are far from the bounds of `int64_t`. -/
structure BarData (F : Type) where
  symbol : SymbolType
  stampStart : Int
  stampLast : Int
  «open» : F
  high : F
  low : F
  close : F
  volume : Int
  amount : F
  oi : F
  adj : F

structure TickData (F : Type) where
  symbol : SymbolType
  stamp : Int64
  «open» : F
  high : F
  low : F
  last : F
  limitDown : F
  limitUp : F
  preclose : F
  close : F
  presettle : F
  settle : F
  preoi : F
  oi : F
  volume : Int64
  amount : F
  avgprice : F
  ap1 : F
  ap2 : F
  ap3 : F
  ap4 : F
  ap5 : F
  bp1 : F
  bp2 : F
  bp3 : F
  bp4 : F
  bp5 : F
  av1 : Int32
  av2 : Int32
  av3 : Int32
  av4 : Int32
  av5 : Int32
  bv1 : Int32
  bv2 : Int32
  bv3 : Int32
  bv4 : Int32
  bv5 : Int32
  adj : F

/-- `TickData tick{}`, every field zero. -/
def TickData.zero {F : Type} (z : F) : TickData F where
  symbol := Vector.replicate 16 0
  stamp := 0
  «open» := z
  high := z
  low := z
  last := z
  limitDown := z
  limitUp := z
  preclose := z
  close := z
  presettle := z
  settle := z
  preoi := z
  oi := z
  volume := 0
  amount := z
  avgprice := z
  ap1 := z
  ap2 := z
  ap3 := z
  ap4 := z
  ap5 := z
  bp1 := z
  bp2 := z
  bp3 := z
  bp4 := z
  bp5 := z
  av1 := 0
  av2 := 0
  av3 := 0
  av4 := 0
  av5 := 0
  bv1 := 0
  bv2 := 0
  bv3 := 0
  bv4 := 0
  bv5 := 0
  adj := z

inductive DirectionType where
  | BUY
  | SELL
  deriving DecidableEq

inductive OffsetFlagType where
  | OPEN
  | CLOSE
  deriving DecidableEq

structure Order where
  stgName : StrategyType
  symbol : SymbolType
  timestamp : Int64
  volume : UInt32
  direction : DirectionType
  offset : OffsetFlagType
  deriving DecidableEq

def charArray (n : Nat) (bytes : List UInt8) : Vector UInt8 n :=
  Vector.ofFn fun i => bytes.getD i.val 0

theorem charArray_toList {n : Nat} {bytes : List UInt8} (fits : bytes.length ≤ n) :
    (charArray n bytes).toList = bytes ++ List.replicate (n - bytes.length) 0 := by
  apply List.ext_getElem
  · simp
    omega
  · intro i inside _
    simp only [charArray, Vector.getElem_toList, Vector.getElem_ofFn]
    rw [List.getElem_append]
    by_cases within : i < bytes.length
    · simp [within]
    · simp [within]

theorem cString_charArray {n : Nat} {bytes : List UInt8} (fits : bytes.length ≤ n)
    (nonzero : ∀ b ∈ bytes, b ≠ 0) : cString (charArray n bytes).toList = bytes := by
  rw [charArray_toList fits, cString, List.takeWhile_append_of_pos (by simpa using nonzero)]
  cases n - bytes.length <;> simp [List.replicate_succ]
end FuTrader
