import Mathlib.Algebra.Order.Field.Rat
import Mathlib.Tactic.Common

/- The query of BactestMdClient::start: its SELECT list as SQL reads it, and what the
   list yields for one row of the table. -/
namespace BactestMd

/-- The lines of the query from SELECT to FROM. -/
def selectLines : List String := [
  "code, ",
  "epoch_ms(dt), ",
  "last / 1e4,",
  "preclose / 1e4,",
  "presettle / 1e4,",
  "settle / 1e4",
  "preoi,",
  "oi,",
  "volume,",
  "amount / 1e4,",
  "ap1 / 1e4,",
  "ap2 / 1e4,",
  "ap3 / 1e4,",
  "ap4 / 1e4,",
  "ap5 / 1e4,",
  "bp1 / 1e4,",
  "bp2 / 1e4,",
  "bp3 / 1e4,",
  "bp4 / 1e4,",
  "bp5 / 1e4,",
  "av1,",
  "av2,",
  "av3,",
  "av4,",
  "av5,",
  "bv1,",
  "bv2,",
  "bv3,",
  "bv4,",
  "bv5,"]

def selectText : List Char := selectLines.flatMap fun line => line.toList ++ ['\n']

inductive Column where
  | code | dt | last | preclose | presettle | settle | preoi | oi | volume | amount
  | ap1 | ap2 | ap3 | ap4 | ap5 | bp1 | bp2 | bp3 | bp4 | bp5
  | av1 | av2 | av3 | av4 | av5 | bv1 | bv2 | bv3 | bv4 | bv5
  deriving DecidableEq

def Column.all : List Column := [
  .code, .dt, .last, .preclose, .presettle, .settle, .preoi, .oi, .volume, .amount, .ap1, .ap2,
  .ap3, .ap4, .ap5, .bp1, .bp2, .bp3, .bp4, .bp5, .av1, .av2, .av3, .av4, .av5, .bv1, .bv2, .bv3,
  .bv4, .bv5]

def Column.name : Column → String
  | .code => "code"
  | .dt => "dt"
  | .last => "last"
  | .preclose => "preclose"
  | .presettle => "presettle"
  | .settle => "settle"
  | .preoi => "preoi"
  | .oi => "oi"
  | .volume => "volume"
  | .amount => "amount"
  | .ap1 => "ap1"
  | .ap2 => "ap2"
  | .ap3 => "ap3"
  | .ap4 => "ap4"
  | .ap5 => "ap5"
  | .bp1 => "bp1"
  | .bp2 => "bp2"
  | .bp3 => "bp3"
  | .bp4 => "bp4"
  | .bp5 => "bp5"
  | .av1 => "av1"
  | .av2 => "av2"
  | .av3 => "av3"
  | .av4 => "av4"
  | .av5 => "av5"
  | .bv1 => "bv1"
  | .bv2 => "bv2"
  | .bv3 => "bv3"
  | .bv4 => "bv4"
  | .bv5 => "bv5"

def Column.ofName (word : List Char) : Option Column :=
  Column.all.find? fun c => c.name.toList = word

inductive Expr where
  | column (c : Column)
  | epochMs (c : Column)
  | scaled (c : Column)
  deriving DecidableEq

structure Item where
  expr : Expr
  label : Option (List Char)
  deriving DecidableEq

/-! Reading the text. -/

def lex : List Char → List (List Char)
  | [] => [[]]
  | c :: cs =>
    if c.isWhitespace then [] :: lex cs
    else if c ∈ ['(', ')', '/', ','] then [] :: [c] :: lex cs
    else match lex cs with
      | [] => [[c]]
      | w :: ws => (c :: w) :: ws

def tokens (text : List Char) : List (List Char) := (lex text).filter fun w => !w.isEmpty

def items : List (List Char) → List (List (List Char))
  | [] => [[]]
  | t :: ts =>
    if t = [','] then [] :: items ts
    else match items ts with
      | [] => [[t]]
      | i :: is => (t :: i) :: is

def parseExpr : List (List Char) → Option (Expr × List (List Char))
  | f :: ['('] :: name :: [')'] :: rest =>
    if f = "epoch_ms".toList then (Column.ofName name).map fun c => (.epochMs c, rest) else none
  | name :: ['/'] :: divisor :: rest =>
    if divisor = "1e4".toList then (Column.ofName name).map fun c => (.scaled c, rest) else none
  | name :: rest => (Column.ofName name).map fun c => (.column c, rest)
  | [] => none

def parseItem (ts : List (List Char)) : Option Item :=
  match parseExpr ts with
  | some (expr, []) => some ⟨expr, none⟩
  | some (expr, [name]) => some ⟨expr, some name⟩
  | _ => none

/-- DuckDB takes a comma after the last item. -/
def parseSelect (text : List Char) : Option (List Item) :=
  let parts := items (tokens text)
  (if parts.getLast? = some [] then parts.dropLast else parts).mapM parseItem

/-! The table and the result. -/

/-- A row of the table. `D` stands for the type of dt, prices and amount are in `1e-4`. -/
structure Row (D : Type) where
  code : List UInt8
  dt : D
  (last preclose presettle settle : ℚ)
  (preoi oi volume : Int)
  amount : ℚ
  (ap1 ap2 ap3 ap4 ap5 bp1 bp2 bp3 bp4 bp5 : ℚ)
  (av1 av2 av3 av4 av5 bv1 bv2 bv3 bv4 bv5 : Int)

inductive Value where
  | text (bytes : List UInt8)
  | integer (n : Int)
  | double (x : ℚ)

def Value.number : Value → Option ℚ
  | .text _ => none
  | .integer n => some n
  | .double x => some x

variable {D : Type}

def Row.value (row : Row D) : Column → Option Value
  | .code => some (.text row.code)
  | .dt => none
  | .last => some (.double row.last)
  | .preclose => some (.double row.preclose)
  | .presettle => some (.double row.presettle)
  | .settle => some (.double row.settle)
  | .preoi => some (.integer row.preoi)
  | .oi => some (.integer row.oi)
  | .volume => some (.integer row.volume)
  | .amount => some (.double row.amount)
  | .ap1 => some (.double row.ap1)
  | .ap2 => some (.double row.ap2)
  | .ap3 => some (.double row.ap3)
  | .ap4 => some (.double row.ap4)
  | .ap5 => some (.double row.ap5)
  | .bp1 => some (.double row.bp1)
  | .bp2 => some (.double row.bp2)
  | .bp3 => some (.double row.bp3)
  | .bp4 => some (.double row.bp4)
  | .bp5 => some (.double row.bp5)
  | .av1 => some (.integer row.av1)
  | .av2 => some (.integer row.av2)
  | .av3 => some (.integer row.av3)
  | .av4 => some (.integer row.av4)
  | .av5 => some (.integer row.av5)
  | .bv1 => some (.integer row.bv1)
  | .bv2 => some (.integer row.bv2)
  | .bv3 => some (.integer row.bv3)
  | .bv4 => some (.integer row.bv4)
  | .bv5 => some (.integer row.bv5)

def Expr.eval (epochMs : D → Int64) (row : Row D) : Expr → Option Value
  | .column c => row.value c
  | .epochMs c => if c = .dt then some (.integer (epochMs row.dt).toInt) else none
  | .scaled c => ((row.value c).bind Value.number).map fun x => .double (x / 10000)

def Row.record (epochMs : D → Int64) (list : List Item) (row : Row D) : Option (List Value) :=
  list.mapM fun item => item.expr.eval epochMs row

/-- The list as it is read. No comma follows the sixth item, so `preoi` is its name. -/
def selectList : List Item := [
  ⟨.column .code, none⟩, ⟨.epochMs .dt, none⟩, ⟨.scaled .last, none⟩, ⟨.scaled .preclose, none⟩,
  ⟨.scaled .presettle, none⟩, ⟨.scaled .settle, some "preoi".toList⟩, ⟨.column .oi, none⟩,
  ⟨.column .volume, none⟩, ⟨.scaled .amount, none⟩, ⟨.scaled .ap1, none⟩, ⟨.scaled .ap2, none⟩,
  ⟨.scaled .ap3, none⟩, ⟨.scaled .ap4, none⟩, ⟨.scaled .ap5, none⟩, ⟨.scaled .bp1, none⟩,
  ⟨.scaled .bp2, none⟩, ⟨.scaled .bp3, none⟩, ⟨.scaled .bp4, none⟩, ⟨.scaled .bp5, none⟩,
  ⟨.column .av1, none⟩, ⟨.column .av2, none⟩, ⟨.column .av3, none⟩, ⟨.column .av4, none⟩,
  ⟨.column .av5, none⟩, ⟨.column .bv1, none⟩, ⟨.column .bv2, none⟩, ⟨.column .bv3, none⟩,
  ⟨.column .bv4, none⟩, ⟨.column .bv5, none⟩]

theorem selectText_parsed : parseSelect selectText = some selectList := by decide +kernel

def Row.columns (epochMs : D → Int64) (row : Row D) : List Value := [
  .text row.code, .integer (epochMs row.dt).toInt, .double (row.last / 10000),
  .double (row.preclose / 10000), .double (row.presettle / 10000),
  .double (row.settle / 10000), .integer row.oi, .integer row.volume,
  .double (row.amount / 10000), .double (row.ap1 / 10000), .double (row.ap2 / 10000),
  .double (row.ap3 / 10000), .double (row.ap4 / 10000), .double (row.ap5 / 10000),
  .double (row.bp1 / 10000), .double (row.bp2 / 10000), .double (row.bp3 / 10000),
  .double (row.bp4 / 10000), .double (row.bp5 / 10000), .integer row.av1, .integer row.av2,
  .integer row.av3, .integer row.av4, .integer row.av5, .integer row.bv1, .integer row.bv2,
  .integer row.bv3, .integer row.bv4, .integer row.bv5]

theorem record_columns (epochMs : D → Int64) (row : Row D) :
    row.record epochMs selectList = some (row.columns epochMs) := rfl

end BactestMd
