import FuTrader.BtMd.Query
import FuTrader.Common.Data
import Mathlib.Algebra.Order.Round
import Mathlib.Data.Rat.Floor
import Mathlib.Tactic.Linarith

/- The loop of BactestMdClient::start: thirty reads by column number for each row of the
   result, which has twenty-nine columns. -/
namespace BactestMd
open FuTrader (TickData SymbolType cString)
variable {D : Type}

/-- duckdb_value_* of the C API. -/
structure Casts where
  string : Value → List UInt8
  int64 : Value → Int64
  double : Value → ℚ
  uint64 : Value → UInt64
  uint32 : Value → UInt32

structure Casts.Exact (C : Casts) : Prop where
  string : ∀ bytes, C.string (.text bytes) = bytes
  int64 : ∀ n : Int64, C.int64 (.integer n.toInt) = n
  double : ∀ {v x}, v.number = some x → C.double v = x
  uint64 : ∀ {v} {n : Nat}, v.number = some (n : ℚ) → n < 2 ^ 64 → C.uint64 v = UInt64.ofNat n
  uint32 : ∀ {v} {n : Nat}, v.number = some (n : ℚ) → n < 2 ^ 32 → C.uint32 v = UInt32.ofNat n

/-- A column past the last one is read as zero. -/
def read {α : Type} (cast : Value → α) (zero : α) (record : List Value) (i : Nat) : α :=
  match record[i]? with
  | some v => cast v
  | none => zero

/-- memcpy of the code, and the NUL behind it. A code that leaves no room for the NUL is
    written past the end of the array. -/
def copyCode (symbol : SymbolType) (code : List UInt8) : Option SymbolType :=
  if fits : code.length < 16 then
    some ⟨(code ++ 0 :: symbol.toList.drop (code.length + 1)).toArray, by
      simp only [List.size_toArray, List.length_append, List.length_cons, List.length_drop,
        Vector.length_toList]
      omega⟩
  else none

def decodeRow (C : Casts) (tick : TickData ℚ) (record : List Value) : Option (TickData ℚ) :=
  (copyCode tick.symbol (read C.string [] record 0)).map fun symbol => { tick with
    symbol := symbol
    stamp := read C.int64 0 record 1
    last := read C.double 0 record 2
    preclose := read C.double 0 record 3
    presettle := read C.double 0 record 4
    settle := read C.double 0 record 5
    preoi := (read C.uint64 0 record 6).toNat
    oi := (read C.uint64 0 record 7).toNat
    volume := (read C.uint64 0 record 8).toInt64
    amount := read C.double 0 record 9
    ap1 := read C.double 0 record 10
    ap2 := read C.double 0 record 11
    ap3 := read C.double 0 record 12
    ap4 := read C.double 0 record 13
    ap5 := read C.double 0 record 14
    bp1 := read C.double 0 record 15
    bp2 := read C.double 0 record 16
    bp3 := read C.double 0 record 17
    bp4 := read C.double 0 record 18
    bp5 := read C.double 0 record 19
    av1 := (read C.uint32 0 record 20).toInt32
    av2 := (read C.uint32 0 record 21).toInt32
    av3 := (read C.uint32 0 record 22).toInt32
    av4 := (read C.uint32 0 record 23).toInt32
    av5 := (read C.uint32 0 record 24).toInt32
    bv1 := (read C.uint32 0 record 25).toInt32
    bv2 := (read C.uint32 0 record 26).toInt32
    bv3 := (read C.uint32 0 record 27).toInt32
    bv4 := (read C.uint32 0 record 28).toInt32
    bv5 := (read C.uint32 0 record 29).toInt32 }

/-- The ticks handed to the callback; one `tick` is used for all rows. -/
def rowLoop (C : Casts) (tick : TickData ℚ) : List (List Value) → Option (List (TickData ℚ))
  | [] => some []
  | record :: rest => (decodeRow C tick record).bind fun next =>
    (rowLoop C next rest).map fun ticks => next :: ticks

def start (C : Casts) (epochMs : D → Int64) (rows : List (Row D)) :
    Option (List (TickData ℚ)) :=
  (parseSelect selectText).bind fun list =>
    (rows.mapM (Row.record epochMs list)).bind (rowLoop C (TickData.zero 0))

structure Decoded (epochMs : D → Int64) (row : Row D) (tick : TickData ℚ) : Prop where
  symbol : cString tick.symbol.toList = row.code
  stamp : tick.stamp = epochMs row.dt
  last : tick.last = row.last / 10000
  preclose : tick.preclose = row.preclose / 10000
  presettle : tick.presettle = row.presettle / 10000
  settle : tick.settle = row.settle / 10000
  preoi : tick.preoi = row.preoi
  oi : tick.oi = row.oi
  volume : tick.volume.toInt = row.volume
  amount : tick.amount = row.amount / 10000
  ap1 : tick.ap1 = row.ap1 / 10000
  ap2 : tick.ap2 = row.ap2 / 10000
  ap3 : tick.ap3 = row.ap3 / 10000
  ap4 : tick.ap4 = row.ap4 / 10000
  ap5 : tick.ap5 = row.ap5 / 10000
  bp1 : tick.bp1 = row.bp1 / 10000
  bp2 : tick.bp2 = row.bp2 / 10000
  bp3 : tick.bp3 = row.bp3 / 10000
  bp4 : tick.bp4 = row.bp4 / 10000
  bp5 : tick.bp5 = row.bp5 / 10000
  av1 : tick.av1.toInt = row.av1
  av2 : tick.av2.toInt = row.av2
  av3 : tick.av3.toInt = row.av3
  av4 : tick.av4.toInt = row.av4
  av5 : tick.av5.toInt = row.av5
  bv1 : tick.bv1.toInt = row.bv1
  bv2 : tick.bv2.toInt = row.bv2
  bv3 : tick.bv3.toInt = row.bv3
  bv4 : tick.bv4.toInt = row.bv4
  bv5 : tick.bv5.toInt = row.bv5

structure Row.Blank (row : Row D) : Prop where
  preoi : row.preoi = 0
  oi : row.oi = 0
  volume : row.volume = 0
  amount : row.amount = 0
  ap1 : row.ap1 = 0
  ap2 : row.ap2 = 0
  ap3 : row.ap3 = 0
  ap4 : row.ap4 = 0
  ap5 : row.ap5 = 0
  bp1 : row.bp1 = 0
  bp2 : row.bp2 = 0
  bp3 : row.bp3 = 0
  bp4 : row.bp4 = 0
  bp5 : row.bp5 = 0
  av1 : row.av1 = 0
  av2 : row.av2 = 0
  av3 : row.av3 = 0
  av4 : row.av4 = 0
  av5 : row.av5 = 0
  bv1 : row.bv1 = 0
  bv2 : row.bv2 = 0
  bv3 : row.bv3 = 0
  bv4 : row.bv4 = 0
  bv5 : row.bv5 = 0

def Row.Readable (row : Row D) : Prop := row.code.length < 16 ∧ 0 ∉ row.code ∧ row.Blank

def rounded (bound : Nat) (v : Value) : Nat :=
  match v.number with
  | some x => if 0 ≤ round x ∧ round x < bound then (round x).toNat else 0
  | none => 0

def sampleCasts : Casts where
  string
    | .text bytes => bytes
    | _ => []
  int64
    | .integer n => Int64.ofInt n
    | _ => 0
  double v := v.number.getD 0
  uint64 v := UInt64.ofNat (rounded (2 ^ 64) v)
  uint32 v := UInt32.ofNat (rounded (2 ^ 32) v)

theorem rounded_nat {bound n : Nat} {v : Value} (number : v.number = some (n : ℚ))
    (less : n < bound) : rounded bound v = n := by
  simp [rounded, number, less]

theorem sampleCasts_exact : sampleCasts.Exact where
  string _ := rfl
  int64 _ := Int64.ofInt_toInt _
  double number := by simp [sampleCasts, number]
  uint64 number less := by simp only [sampleCasts, rounded_nat number less]
  uint32 number less := by simp only [sampleCasts, rounded_nat number less]

/-! The symbol. -/

theorem cString_copied {code : List UInt8} (rest : List UInt8) :
    cString (code ++ 0 :: rest) = code ↔ 0 ∉ code := by
  induction code with
  | nil => simp [cString]
  | cons b bs ih =>
    by_cases zero : b = 0
    · simp [cString, zero]
    · have other : ¬ 0 = b := fun same => zero same.symm
      simpa [cString, zero, other] using ih

theorem copyCode_cString {symbol copied : SymbolType} {code : List UInt8}
    (copy : copyCode symbol code = some copied) :
    code.length < 16 ∧ (cString copied.toList = code ↔ 0 ∉ code) := by
  unfold copyCode at copy
  split at copy <;> cases copy
  rename_i fits
  exact ⟨fits, cString_copied _⟩

theorem copyCode_fits (symbol : SymbolType) {code : List UInt8} (fits : code.length < 16) :
    ∃ copied, copyCode symbol code = some copied := ⟨_, dif_pos fits⟩

/-! Zero is read as zero by every cast. -/

variable {C : Casts}

theorem Casts.Exact.uint64_zero (exact : C.Exact) {v : Value} (zero : v.number = some 0) :
    C.uint64 v = 0 := exact.uint64 (n := 0) (by simpa using zero) (by decide)

theorem Casts.Exact.uint32_zero (exact : C.Exact) {n : Int} (zero : n = 0) :
    (C.uint32 (.integer n)).toInt32.toInt = 0 := by
  have none := exact.uint32 (v := .integer n) (n := 0) (by simp [Value.number, zero]) (by decide)
  rw [none]
  rfl

theorem Casts.Exact.count_zero (exact : C.Exact) {n : Int} (zero : n = 0) :
    ((C.uint64 (.integer n)).toNat : ℚ) = 0 := by
  rw [exact.uint64_zero (by simp [Value.number, zero])]
  rfl

theorem Casts.Exact.scaled_eq (exact : C.Exact) (x : ℚ) :
    C.double (.double (x / 10000)) = x / 10000 :=
  exact.double rfl

theorem Casts.Exact.shifted (exact : C.Exact) {x y : ℚ}
    (same : C.double (.double (x / 10000)) = y / 10000) (zero : x = 0) : y = 0 := by
  rw [exact.scaled_eq, zero] at same
  linarith

/-- bv5 is read past the last column, and the zero passes up from each column to the one
    that is read in its place. -/
theorem blank_of_decoded (exact : C.Exact) {epochMs : D → Int64} {row : Row D}
    {tick next : TickData ℚ} (decode : decodeRow C tick (row.columns epochMs) = some next)
    (decoded : Decoded epochMs row next) : row.Blank := by
  obtain ⟨symbol, _, rfl⟩ := Option.map_eq_some_iff.mp decode
  have bv5 : row.bv5 = 0 := decoded.bv5.symm
  have bv4 : row.bv4 = 0 := decoded.bv4.symm.trans (exact.uint32_zero bv5)
  have bv3 : row.bv3 = 0 := decoded.bv3.symm.trans (exact.uint32_zero bv4)
  have bv2 : row.bv2 = 0 := decoded.bv2.symm.trans (exact.uint32_zero bv3)
  have bv1 : row.bv1 = 0 := decoded.bv1.symm.trans (exact.uint32_zero bv2)
  have av5 : row.av5 = 0 := decoded.av5.symm.trans (exact.uint32_zero bv1)
  have av4 : row.av4 = 0 := decoded.av4.symm.trans (exact.uint32_zero av5)
  have av3 : row.av3 = 0 := decoded.av3.symm.trans (exact.uint32_zero av4)
  have av2 : row.av2 = 0 := decoded.av2.symm.trans (exact.uint32_zero av3)
  have av1 : row.av1 = 0 := decoded.av1.symm.trans (exact.uint32_zero av2)
  have bp5 : row.bp5 = 0 := by
    have same : C.double (.integer row.av1) = row.bp5 / 10000 := decoded.bp5
    rw [exact.double (show (Value.integer row.av1).number = some (row.av1 : ℚ) from rfl),
      av1] at same
    norm_num at same
    linarith
  have bp4 : row.bp4 = 0 := exact.shifted decoded.bp4 bp5
  have bp3 : row.bp3 = 0 := exact.shifted decoded.bp3 bp4
  have bp2 : row.bp2 = 0 := exact.shifted decoded.bp2 bp3
  have bp1 : row.bp1 = 0 := exact.shifted decoded.bp1 bp2
  have ap5 : row.ap5 = 0 := exact.shifted decoded.ap5 bp1
  have ap4 : row.ap4 = 0 := exact.shifted decoded.ap4 ap5
  have ap3 : row.ap3 = 0 := exact.shifted decoded.ap3 ap4
  have ap2 : row.ap2 = 0 := exact.shifted decoded.ap2 ap3
  have ap1 : row.ap1 = 0 := exact.shifted decoded.ap1 ap2
  have amount : row.amount = 0 := exact.shifted decoded.amount ap1
  have volume : row.volume = 0 := by
    have same : (C.uint64 (.double (row.amount / 10000))).toInt64.toInt = row.volume :=
      decoded.volume
    rw [exact.uint64_zero (by simp [Value.number, amount])] at same
    exact same.symm
  have oi : row.oi = 0 := by
    have same : ((C.uint64 (.integer row.volume)).toNat : ℚ) = row.oi := decoded.oi
    rw [exact.count_zero volume] at same
    exact_mod_cast same.symm
  have preoi : row.preoi = 0 := by
    have same : ((C.uint64 (.integer row.oi)).toNat : ℚ) = row.preoi := decoded.preoi
    rw [exact.count_zero oi] at same
    exact_mod_cast same.symm
  exact ⟨preoi, oi, volume, amount, ap1, ap2, ap3, ap4, ap5, bp1, bp2, bp3, bp4, bp5,
    av1, av2, av3, av4, av5, bv1, bv2, bv3, bv4, bv5⟩

theorem Casts.Exact.blank (exact : C.Exact) {v : Value} {x : ℚ} (zero : v.number = some 0)
    (same : x = 0) : C.double v = x / 10000 := by
  rw [exact.double zero, same]
  norm_num

theorem decoded_of_blank (exact : C.Exact) (epochMs : D → Int64) {row : Row D}
    (blank : row.Blank) {tick next : TickData ℚ}
    (decode : decodeRow C tick (row.columns epochMs) = some next)
    (symbol : cString next.symbol.toList = row.code) : Decoded epochMs row next := by
  obtain ⟨copied, _, rfl⟩ := Option.map_eq_some_iff.mp decode
  have price : ∀ {x : ℚ}, x = 0 → (Value.double (x / 10000)).number = some 0 := fun zero => by
    simp [Value.number, zero]
  have level : ∀ {n : Int}, n = 0 → (Value.integer n).number = some 0 := fun zero => by
    simp [Value.number, zero]
  constructor
  case symbol => exact symbol
  case stamp => exact exact.int64 _
  case last => exact exact.scaled_eq _
  case preclose => exact exact.scaled_eq _
  case presettle => exact exact.scaled_eq _
  case settle => exact exact.scaled_eq _
  case preoi =>
    rw [blank.preoi]
    exact exact.count_zero blank.oi
  case oi =>
    rw [blank.oi]
    exact exact.count_zero blank.volume
  case volume =>
    rw [blank.volume]
    exact congrArg (fun u => (UInt64.toInt64 u).toInt) (exact.uint64_zero (price blank.amount))
  case amount => exact exact.blank (price blank.ap1) blank.amount
  case ap1 => exact exact.blank (price blank.ap2) blank.ap1
  case ap2 => exact exact.blank (price blank.ap3) blank.ap2
  case ap3 => exact exact.blank (price blank.ap4) blank.ap3
  case ap4 => exact exact.blank (price blank.ap5) blank.ap4
  case ap5 => exact exact.blank (price blank.bp1) blank.ap5
  case bp1 => exact exact.blank (price blank.bp2) blank.bp1
  case bp2 => exact exact.blank (price blank.bp3) blank.bp2
  case bp3 => exact exact.blank (price blank.bp4) blank.bp3
  case bp4 => exact exact.blank (price blank.bp5) blank.bp4
  case bp5 => exact exact.blank (level blank.av1) blank.bp5
  case av1 => exact (exact.uint32_zero blank.av2).trans blank.av1.symm
  case av2 => exact (exact.uint32_zero blank.av3).trans blank.av2.symm
  case av3 => exact (exact.uint32_zero blank.av4).trans blank.av3.symm
  case av4 => exact (exact.uint32_zero blank.av5).trans blank.av4.symm
  case av5 => exact (exact.uint32_zero blank.bv1).trans blank.av5.symm
  case bv1 => exact (exact.uint32_zero blank.bv2).trans blank.bv1.symm
  case bv2 => exact (exact.uint32_zero blank.bv3).trans blank.bv2.symm
  case bv3 => exact (exact.uint32_zero blank.bv4).trans blank.bv3.symm
  case bv4 => exact (exact.uint32_zero blank.bv5).trans blank.bv4.symm
  case bv5 => exact blank.bv5.symm

/-! The loop. -/

theorem decodeRow_iff (exact : C.Exact) (epochMs : D → Int64) (row : Row D) (tick : TickData ℚ) :
    (∃ next, decodeRow C tick (row.columns epochMs) = some next ∧ Decoded epochMs row next) ↔
      row.Readable := by
  have code : read C.string [] (row.columns epochMs) 0 = row.code := exact.string row.code
  constructor
  · rintro ⟨next, decode, decoded⟩
    have blank := blank_of_decoded exact decode decoded
    obtain ⟨copied, copy, rfl⟩ := Option.map_eq_some_iff.mp decode
    rw [code] at copy
    obtain ⟨fits, same⟩ := copyCode_cString copy
    exact ⟨fits, same.mp decoded.symbol, blank⟩
  · rintro ⟨fits, nonzero, blank⟩
    obtain ⟨copied, copy⟩ := copyCode_fits tick.symbol fits
    have same := (copyCode_cString copy).2.mpr nonzero
    have decode : ∃ next, decodeRow C tick (row.columns epochMs) = some next ∧
        next.symbol = copied := by
      unfold decodeRow
      rw [code, copy]
      exact ⟨_, rfl, rfl⟩
    obtain ⟨next, decode, symbol⟩ := decode
    refine ⟨next, decode, decoded_of_blank exact epochMs blank decode ?_⟩
    rw [symbol]
    exact same

theorem rowLoop_iff (exact : C.Exact) (epochMs : D → Int64) (rows : List (Row D))
    (tick : TickData ℚ) :
    (∃ ticks, rowLoop C tick (rows.map (Row.columns epochMs)) = some ticks ∧
      List.Forall₂ (Decoded epochMs) rows ticks) ↔ ∀ row ∈ rows, row.Readable := by
  induction rows generalizing tick with
  | nil => simp [rowLoop]
  | cons row rest ih =>
    constructor
    · rintro ⟨ticks, loop, decoded⟩
      obtain ⟨next, decode, later⟩ := Option.bind_eq_some_iff.mp loop
      obtain ⟨others, ran, rfl⟩ := Option.map_eq_some_iff.mp later
      cases decoded with
      | cons first others =>
        exact List.forall_mem_cons.mpr
          ⟨(decodeRow_iff exact epochMs row tick).mp ⟨next, decode, first⟩,
            (ih next).mp ⟨_, ran, others⟩⟩
    · intro readable
      obtain ⟨now, later⟩ := List.forall_mem_cons.mp readable
      obtain ⟨next, decode, first⟩ := (decodeRow_iff exact epochMs row tick).mpr now
      obtain ⟨ticks, loop, others⟩ := (ih next).mpr later
      exact ⟨next :: ticks, by simp [rowLoop, decode, loop], .cons first others⟩

theorem start_eq (C : Casts) (epochMs : D → Int64) (rows : List (Row D)) :
    start C epochMs rows = rowLoop C (TickData.zero 0) (rows.map (Row.columns epochMs)) := by
  have records : rows.mapM (Row.record epochMs selectList) =
      some (rows.map (Row.columns epochMs)) := by
    rw [show Row.record epochMs selectList = fun row => some (row.columns epochMs) from
      funext (record_columns epochMs)]
    exact List.mapM_pure
  rw [start, selectText_parsed, Option.bind_some, records, Option.bind_some]

/-- The ticks are those of the rows exactly if every row has a code that fits and only zeros
    behind settle: the missing comma moves every later read by one column. -/
theorem rows_decoded_iff (exact : C.Exact) (epochMs : D → Int64) (rows : List (Row D)) :
    (∃ ticks, start C epochMs rows = some ticks ∧ List.Forall₂ (Decoded epochMs) rows ticks) ↔
      ∀ row ∈ rows, row.Readable := by
  rw [start_eq]
  exact rowLoop_iff exact epochMs rows _

def quietRow : Row Unit where
  code := [114, 98, 50, 53, 48, 53]
  dt := ()
  last := 34250000
  preclose := 34250000
  presettle := 34180000
  settle := 34310000
  preoi := 0
  oi := 0
  volume := 0
  amount := 0
  ap1 := 0
  ap2 := 0
  ap3 := 0
  ap4 := 0
  ap5 := 0
  bp1 := 0
  bp2 := 0
  bp3 := 0
  bp4 := 0
  bp5 := 0
  av1 := 0
  av2 := 0
  av3 := 0
  av4 := 0
  av5 := 0
  bv1 := 0
  bv2 := 0
  bv3 := 0
  bv4 := 0
  bv5 := 0

theorem quietRow_readable : quietRow.Readable := by
  refine ⟨by decide, by decide, ?_⟩
  constructor <;> rfl

theorem quietRow_decoded : ∃ ticks, start sampleCasts (fun _ => 0) [quietRow] = some ticks ∧
    List.Forall₂ (Decoded fun _ => 0) [quietRow] ticks :=
  (rows_decoded_iff sampleCasts_exact _ _).mpr
    (List.forall_mem_singleton.mpr quietRow_readable)

def tradedRow : Row Unit := { quietRow with preoi := 120, oi := 125, volume := 7, bv5 := 3 }

theorem tradedRow_shifted :
    (start sampleCasts (fun _ => 0) [tradedRow]).map
        (List.map fun tick => (tick.preoi, tick.oi, tick.bv4, tick.bv5)) =
      some [(125, 7, 3, 0)] ∧
    ¬ ∃ ticks, start sampleCasts (fun _ => 0) [tradedRow] = some ticks ∧
      List.Forall₂ (Decoded fun _ => 0) [tradedRow] ticks := by
  constructor
  · decide +kernel
  · intro decoded
    rw [start_eq] at decoded
    have readable := (rowLoop_iff sampleCasts_exact _ _ _).mp decoded tradedRow (by simp)
    have preoi : (120 : Int) = 0 := readable.2.2.preoi
    omega

end BactestMd
