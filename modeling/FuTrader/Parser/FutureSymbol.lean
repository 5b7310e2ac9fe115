import Mathlib.Data.List.TakeWhile
import Mathlib.Tactic.Common

/- hashFutureSymbol: the product of a futures contract in 16 bits. The contracts of a product
   have the same hash and those of others have another one, as far as two letters tell. -/
namespace TickParser

def letter (c : UInt8) : Bool := (65 ≤ c ∧ c ≤ 90) ∨ (97 ≤ c ∧ c ≤ 122)

/-- `symbol[i]` of a text that ends in NUL. -/
def charAt (symbol : List UInt8) (i : Nat) : UInt8 := symbol.getD i 0

def hashFutureSymbol (symbol : List UInt8) : UInt16 :=
  let c0 := charAt symbol 0
  if !letter c0 then 0
  else
    let c1 := charAt symbol 1
    if letter c1 then c0.toUInt16 <<< 8 ||| c1.toUInt16
    else c0.toUInt16 <<< 8

/-- The letters that a symbol begins with, two at most. -/
def product (symbol : List UInt8) : List UInt8 := (symbol.takeWhile letter).take 2

def lettersOf (hash : UInt16) : List UInt8 :=
  [(hash >>> 8).toUInt8, hash.toUInt8].filter fun c => c ≠ 0

theorem letter_ne_zero {c : UInt8} (is : letter c = true) : c ≠ 0 := by
  rintro rfl
  simp [letter] at is

theorem pack_toNat (c0 c1 : UInt8) :
    (c0.toUInt16 <<< 8 ||| c1.toUInt16).toNat = c0.toNat * 256 + c1.toNat := by
  have high := c0.toNat_lt
  have low : c1.toNat < 2 ^ 8 := c1.toNat_lt
  have fits : c0.toNat <<< 8 % 2 ^ 16 = c0.toNat <<< 8 := by
    rw [Nat.shiftLeft_eq]
    exact Nat.mod_eq_of_lt (by omega)
  have apart := Nat.shiftLeft_add_eq_or_of_lt low c0.toNat
  rw [Nat.shiftLeft_eq] at apart
  simp only [UInt16.toNat_or, UInt16.toNat_shiftLeft, UInt8.toNat_toUInt16]
  change c0.toNat <<< 8 % 2 ^ 16 ||| c1.toNat = _
  rw [fits, Nat.shiftLeft_eq, ← apart]

theorem pack_high (c0 c1 : UInt8) : ((c0.toUInt16 <<< 8 ||| c1.toUInt16) >>> 8).toUInt8 = c0 := by
  have high := c0.toNat_lt
  have low := c1.toNat_lt
  apply UInt8.toNat_inj.mp
  simp only [UInt16.toNat_toUInt8, UInt16.toNat_shiftRight, pack_toNat]
  change (c0.toNat * 256 + c1.toNat) >>> 8 % 2 ^ 8 = _
  rw [Nat.shiftRight_eq_div_pow]
  omega

theorem pack_low (c0 c1 : UInt8) : (c0.toUInt16 <<< 8 ||| c1.toUInt16).toUInt8 = c1 := by
  have low := c1.toNat_lt
  apply UInt8.toNat_inj.mp
  rw [UInt16.toNat_toUInt8, pack_toNat]
  omega

theorem lettersOf_pack (c0 c1 : UInt8) :
    lettersOf (c0.toUInt16 <<< 8 ||| c1.toUInt16) = [c0, c1].filter fun c => c ≠ 0 := by
  rw [lettersOf, pack_high, pack_low]

theorem hash_one {c0 : UInt8} (rest : List UInt8) (first : letter c0 = true)
    (other : (rest.head?.map letter).getD false = false) :
    hashFutureSymbol (c0 :: rest) = c0.toUInt16 <<< 8 ||| (0 : UInt8).toUInt16 := by
  have none : letter 0 = false := by decide
  cases rest with
  | nil => simp [hashFutureSymbol, charAt, first, none]
  | cons c1 rest =>
    have second : letter c1 = false := other
    simp [hashFutureSymbol, charAt, first, second]

theorem hash_two {c0 c1 : UInt8} {rest : List UInt8} (first : letter c0 = true)
    (second : letter c1 = true) :
    hashFutureSymbol (c0 :: c1 :: rest) = c0.toUInt16 <<< 8 ||| c1.toUInt16 := by
  simp [hashFutureSymbol, charAt, first, second]

theorem lettersOf_hash (symbol : List UInt8) :
    lettersOf (hashFutureSymbol symbol) = product symbol := by
  cases symbol with
  | nil => rfl
  | cons c0 rest =>
    cases first : letter c0 with
    | false => simp [hashFutureSymbol, charAt, product, first, lettersOf]
    | true =>
      have there := letter_ne_zero first
      cases rest with
      | nil =>
        rw [hash_one [] first rfl, lettersOf_pack]
        simp [product, first, there]
      | cons c1 rest =>
        cases second : letter c1 with
        | false =>
          rw [hash_one (c1 :: rest) first second, lettersOf_pack]
          simp [product, first, second, there]
        | true =>
          have there' := letter_ne_zero second
          rw [hash_two first second, lettersOf_pack]
          simp [product, first, second, there, there']

theorem hash_product (symbol : List UInt8) :
    hashFutureSymbol (product symbol) = hashFutureSymbol symbol := by
  cases symbol with
  | nil => rfl
  | cons c0 rest =>
    cases first : letter c0 with
    | false => simp [hashFutureSymbol, charAt, product, first, show letter 0 = false by decide]
    | true =>
      cases rest with
      | nil => simp [product, first]
      | cons c1 rest =>
        cases second : letter c1 with
        | false =>
          rw [hash_one (c1 :: rest) first second, show product (c0 :: c1 :: rest) = [c0] by
            simp [product, first, second], hash_one [] first rfl]
        | true =>
          rw [hash_two first second, show product (c0 :: c1 :: rest) = [c0, c1] by
            simp [product, first, second], hash_two first second]

-- "rb2507", "rb999" and "ao2509"
example : hashFutureSymbol [114, 98, 50, 53, 48, 55] = hashFutureSymbol [114, 98, 57, 57, 57] ∧
    hashFutureSymbol [114, 98, 57, 57, 57] ≠ hashFutureSymbol [97, 111, 50, 53, 48, 57] := by
  decide

end TickParser
