import FuTrader.Parser.TickTime
import Mathlib.Data.List.Induction
import Mathlib.Data.List.TakeWhile

/- string_parser.hpp: text to an int. -/
namespace StringParser
open TickParser (digit number)

inductive Errc where
  | invalidArgument
  | resultOutOfRange

/-- `std::from_chars` for int, base 10: the longest text of the form that it begins with. -/
def fromChars (text : List UInt8) : Except Errc Int :=
  let minus : Bool := text.head? = some 45
  let digits := (if minus then text.tail else text).takeWhile fun b => (digit b).isSome
  if digits.isEmpty then .error .invalidArgument
  else
    let magnitude : Int := (number digits).getD 0
    let value := if minus then -magnitude else magnitude
    if -2 ^ 31 ≤ value ∧ value < 2 ^ 31 then .ok value else .error .resultOutOfRange

def sv2int (input : List UInt8) : Except String Int :=
  match fromChars input with
  | .ok value => .ok value
  | .error .invalidArgument => .error "Invalid number format"
  | .error .resultOutOfRange => .error "Number out of range"

theorem digit_minus : digit 45 = none := by decide

/-! The text as a whole. -/

/-- An optional '-' and one or more decimal digits, and the integer they write. -/
inductive Integer : List UInt8 → Int → Prop where
  | plain {digits : List UInt8} {n : Nat} (nonempty : digits ≠ [])
      (value : number digits = some n) : Integer digits n
  | minus {digits : List UInt8} {n : Nat} (nonempty : digits ≠ [])
      (value : number digits = some n) : Integer (45 :: digits) (-n)

abbrev Fits (v : Int) : Prop := -2 ^ 31 ≤ v ∧ v < 2 ^ 31

structure Exactly (text : List UInt8) : Prop where
  value : ∀ v, sv2int text = .ok v ↔ Integer text v ∧ Fits v
  range : sv2int text = .error "Number out of range" ↔ ∃ v, Integer text v ∧ ¬ Fits v
  format : sv2int text = .error "Invalid number format" ↔ ¬ ∃ v, Integer text v

def Trailing (text : List UInt8) : Prop :=
  ∃ integer v b rest, Integer integer v ∧ digit b = none ∧ text = integer ++ b :: rest

theorem number_snoc (ds : List UInt8) (b : UInt8) :
    number (ds ++ [b]) = (number ds).bind fun n => (digit b).map fun d => 10 * n + d := by
  simp [number, List.foldlM_append]

theorem number_snoc_eq_some {ds : List UInt8} {b : UInt8} {n : Nat}
    (value : number (ds ++ [b]) = some n) :
    ∃ m d, number ds = some m ∧ digit b = some d ∧ n = 10 * m + d := by
  rw [number_snoc, Option.bind_eq_some_iff] at value
  obtain ⟨m, before, last⟩ := value
  obtain ⟨d, known, rfl⟩ := Option.map_eq_some_iff.mp last
  exact ⟨m, d, before, known, rfl⟩

theorem number_digits {ds : List UInt8} {n : Nat} (value : number ds = some n) :
    ∀ b ∈ ds, (digit b).isSome = true := by
  induction ds using List.reverseRecOn generalizing n with
  | nil => simp
  | append_singleton ds a ih =>
    obtain ⟨m, d, before, known, _⟩ := number_snoc_eq_some value
    intro b member
    rcases List.mem_append.mp member with old | new
    · exact ih before b old
    · rw [List.mem_singleton.mp new, known]
      rfl

theorem number_of_digits {ds : List UInt8} (digits : ∀ b ∈ ds, (digit b).isSome = true) :
    ∃ n, number ds = some n := by
  induction ds using List.reverseRecOn with
  | nil => exact ⟨0, rfl⟩
  | append_singleton ds a ih =>
    obtain ⟨n, before⟩ := ih fun b member => digits b (List.mem_append_left _ member)
    obtain ⟨d, last⟩ := Option.isSome_iff_exists.mp (digits a (by simp))
    exact ⟨10 * n + d, by rw [number_snoc, before, last]; rfl⟩

theorem number_unsigned {ds : List UInt8} {n : Nat} (value : number ds = some n) :
    ds.head? ≠ some 45 := by
  intro first
  have member := number_digits value 45 (List.mem_of_mem_head? first)
  rw [digit_minus] at member
  cases member

theorem takeWhile_stop {α : Type} {p : α → Bool} {ds : List α} (all : ∀ b ∈ ds, p b = true)
    (rest : List α) (stop : ∀ b ∈ rest.head?, p b = false) : (ds ++ rest).takeWhile p = ds := by
  rw [List.takeWhile_append_of_pos all]
  cases rest with
  | nil => simp
  | cons b rest =>
    rw [List.takeWhile_cons_of_neg (by simp [stop b rfl]), List.append_nil]

/-! from_chars takes the integer that the text begins with. -/

theorem fromChars_plain {ds rest : List UInt8} {n : Nat} (nonempty : ds ≠ [])
    (value : number ds = some n) (stop : ∀ b ∈ rest.head?, digit b = none) :
    fromChars (ds ++ rest) = if Fits n then .ok (n : Int) else .error .resultOutOfRange := by
  have unsigned : (ds ++ rest).head? ≠ some 45 := by
    cases ds with
    | nil => exact absurd rfl nonempty
    | cons a ds =>
      intro first
      exact number_unsigned value first
  have taken := takeWhile_stop (number_digits value) rest
    fun b first => by rw [stop b first]; rfl
  generalize ds ++ rest = text at unsigned taken ⊢
  simp [fromChars, unsigned, taken, nonempty, value, Fits]

theorem fromChars_minus {ds rest : List UInt8} {n : Nat} (nonempty : ds ≠ [])
    (value : number ds = some n) (stop : ∀ b ∈ rest.head?, digit b = none) :
    fromChars (45 :: ds ++ rest) =
      if Fits (-n) then .ok (-n : Int) else .error .resultOutOfRange := by
  have taken := takeWhile_stop (number_digits value) rest
    fun b first => by rw [stop b first]; rfl
  simp [fromChars, taken, nonempty, value, Fits]

theorem fromChars_integer {integer : List UInt8} {v : Int} (is : Integer integer v)
    (rest : List UInt8) (stop : ∀ b ∈ rest.head?, digit b = none) :
    fromChars (integer ++ rest) = if Fits v then .ok v else .error .resultOutOfRange := by
  cases is with
  | plain nonempty value => exact fromChars_plain nonempty value stop
  | minus nonempty value => exact fromChars_minus nonempty value stop

theorem digits_split (text : List UInt8) : ∃ ds rest, text = ds ++ rest ∧
    ds = text.takeWhile (fun b => (digit b).isSome) ∧ (∃ n, number ds = some n) ∧
    ∀ b ∈ rest.head?, digit b = none := by
  refine ⟨_, text.dropWhile fun b => (digit b).isSome, List.takeWhile_append_dropWhile.symm, rfl,
    ?_, ?_⟩
  · apply number_of_digits
    intro b member
    have taken := List.mem_takeWhile_imp member
    exact taken
  · intro b first
    have stop := List.head?_dropWhile_not (fun b => (digit b).isSome) text
    rw [Option.mem_def.mp first] at stop
    simpa using stop

theorem fromChars_cases (text : List UInt8) :
    (∃ integer v rest, Integer integer v ∧ (∀ b ∈ rest.head?, digit b = none) ∧
      text = integer ++ rest) ∨ fromChars text = .error .invalidArgument := by
  by_cases minus : text.head? = some 45
  · obtain ⟨tail, rfl⟩ : ∃ tail, text = 45 :: tail := List.head?_eq_some_iff.mp minus
    obtain ⟨ds, rest, split, taken, ⟨n, value⟩, stop⟩ := digits_split tail
    by_cases none : ds = []
    · right
      simp [fromChars, ← taken, none]
    · left
      exact ⟨45 :: ds, -n, rest, .minus none value, stop, by rw [split]; rfl⟩
  · obtain ⟨ds, rest, split, taken, ⟨n, value⟩, stop⟩ := digits_split text
    by_cases none : ds = []
    · right
      simp [fromChars, minus, ← taken, none]
    · left
      exact ⟨ds, n, rest, .plain none value, stop, split⟩

/-! A text is an integer in one way at most. -/

theorem Integer.nonempty {text : List UInt8} {v : Int} (is : Integer text v) : text ≠ [] := by
  cases is with
  | plain nonempty value => exact nonempty
  | minus nonempty value => simp

theorem Integer.digits {text : List UInt8} {v : Int} (is : Integer text v) :
    ∀ b ∈ text.tail, (digit b).isSome = true := by
  cases is with
  | plain nonempty value =>
    intro b member
    exact number_digits value b (List.mem_of_mem_tail member)
  | minus nonempty value => exact number_digits value

theorem Integer.unique {text : List UInt8} {v w : Int} (is : Integer text v)
    (other : Integer text w) : v = w := by
  cases is with
  | plain nonempty value =>
    cases other with
    | plain nonempty' value' =>
      rw [value] at value'
      exact congrArg _ (Option.some.inj value')
    | minus nonempty' value' => exact absurd rfl (number_unsigned value)
  | minus nonempty value =>
    cases other with
    | plain nonempty' value' => exact absurd rfl (number_unsigned value')
    | minus nonempty' value' =>
      rw [value] at value'
      exact congrArg _ (congrArg _ (Option.some.inj value'))

theorem Integer.no_more {integer rest : List UInt8} {v w : Int} {b : UInt8}
    (is : Integer integer v) (stop : digit b = none) : ¬ Integer (integer ++ b :: rest) w := by
  intro whole
  have member : b ∈ (integer ++ b :: rest).tail := by
    rw [List.tail_append_of_ne_nil is.nonempty]
    simp
  have digit := whole.digits b member
  rw [stop] at digit
  cases digit

/-! What sv2int returns. -/

theorem sv2int_integer {integer : List UInt8} {v : Int} (is : Integer integer v)
    (rest : List UInt8) (stop : ∀ b ∈ rest.head?, digit b = none) :
    sv2int (integer ++ rest) = if Fits v then .ok v else .error "Number out of range" := by
  rw [sv2int, fromChars_integer is rest stop]
  by_cases fits : Fits v
  · rw [if_pos fits, if_pos fits]
  · rw [if_neg fits, if_neg fits]

theorem sv2int_digits {text : List UInt8} {n : Nat} (nonempty : text ≠ [])
    (value : number text = some n) (fits : n < 2 ^ 31) : sv2int text = .ok n := by
  have result := sv2int_integer (.plain nonempty value) [] (by simp)
  rw [List.append_nil, if_pos ⟨by omega, by omega⟩] at result
  exact result

theorem exactly_integer {text : List UInt8} {v : Int} (is : Integer text v) : Exactly text := by
  have result := sv2int_integer is [] (by simp)
  rw [List.append_nil] at result
  by_cases fits : Fits v
  · rw [if_pos fits] at result
    constructor
    · intro w
      constructor
      · intro same
        obtain rfl : v = w := Except.ok.inj (result.symm.trans same)
        exact ⟨is, fits⟩
      · rintro ⟨other, _⟩
        rw [result, is.unique other]
    · rw [result]
      simp only [reduceCtorEq, false_iff]
      rintro ⟨w, other, beyond⟩
      exact beyond (is.unique other ▸ fits)
    · rw [result]
      simp only [reduceCtorEq, false_iff, not_not]
      exact ⟨v, is⟩
  · rw [if_neg fits] at result
    constructor
    · intro w
      rw [result]
      simp only [reduceCtorEq, false_iff]
      rintro ⟨other, inside⟩
      exact fits (is.unique other ▸ inside)
    · exact iff_of_true result ⟨v, is, fits⟩
    · rw [result]
      simp only [Except.error.injEq, String.reduceEq, false_iff, not_not]
      exact ⟨v, is⟩

theorem exactly_invalid {text : List UInt8} (result : fromChars text = .error .invalidArgument)
    (none : ¬ ∃ v, Integer text v) : Exactly text := by
  have invalid : sv2int text = .error "Invalid number format" := by rw [sv2int, result]
  constructor
  · intro v
    rw [invalid]
    simp only [reduceCtorEq, false_iff]
    rintro ⟨is, _⟩
    exact none ⟨v, is⟩
  · rw [invalid]
    simp only [Except.error.injEq, String.reduceEq, false_iff]
    rintro ⟨v, is, _⟩
    exact none ⟨v, is⟩
  · exact iff_of_true invalid none

theorem exactly_iff (text : List UInt8) : Exactly text ↔ ¬ Trailing text := by
  constructor
  · rintro exactly ⟨integer, v, b, rest, is, stop, rfl⟩
    have result := sv2int_integer is (b :: rest) (by simpa using stop)
    by_cases fits : Fits v
    · rw [if_pos fits] at result
      exact is.no_more stop ((exactly.value v).mp result).1
    · rw [if_neg fits] at result
      obtain ⟨w, whole, _⟩ := exactly.range.mp result
      exact is.no_more stop whole
  · intro clean
    rcases fromChars_cases text with ⟨integer, v, rest, is, stop, rfl⟩ | invalid
    · cases rest with
      | nil =>
        rw [List.append_nil]
        exact exactly_integer is
      | cons b rest => exact absurd ⟨integer, v, b, rest, is, stop b rfl, rfl⟩ clean
    · apply exactly_invalid invalid
      rintro ⟨v, is⟩
      have found := fromChars_integer is [] (by simp)
      rw [List.append_nil, invalid] at found
      split at found <;> cases found

/-! Texts with one value. -/

def stripped (text : List UInt8) : List UInt8 :=
  if text.head? = some 45 then
    let digits := text.tail.dropWhile (· = 48)
    if digits = [] then [] else 45 :: digits
  else text.dropWhile (· = 48)

theorem digit_eq_some {b : UInt8} {d : Nat} :
    digit b = some d ↔ b.toNat = 48 + d ∧ d < 10 := by
  have range : (48 ≤ b ∧ b ≤ 57) ↔ 48 ≤ b.toNat ∧ b.toNat ≤ 57 := Iff.rfl
  unfold digit
  split
  · rename_i inside
    rw [Option.some_inj]
    have bounds := range.mp inside
    omega
  · rename_i outside
    rw [range] at outside
    simp only [reduceCtorEq, false_iff]
    omega

theorem digit_inj {a b : UInt8} {d : Nat} (left : digit a = some d) (right : digit b = some d) :
    a = b := by
  obtain ⟨code, _⟩ := digit_eq_some.mp left
  obtain ⟨code', _⟩ := digit_eq_some.mp right
  exact UInt8.toNat_inj.mp (code.trans code'.symm)

theorem digit_zero {a : UInt8} (known : digit a = some 0) : a = 48 :=
  digit_inj known (by decide)

theorem number_zero {ds : List UInt8} (value : number ds = some 0) :
    ds.dropWhile (· = 48) = [] := by
  induction ds using List.reverseRecOn with
  | nil => rfl
  | append_singleton ds b ih =>
    obtain ⟨m, d, before, known, zero⟩ := number_snoc_eq_some value
    obtain ⟨rfl, rfl⟩ : m = 0 ∧ d = 0 := by omega
    rw [List.dropWhile_append, ih before, digit_zero known]
    rfl

theorem number_inj {ds es : List UInt8} {n : Nat} (left : number ds = some n)
    (right : number es = some n) : ds.dropWhile (· = 48) = es.dropWhile (· = 48) := by
  induction ds using List.reverseRecOn generalizing es n with
  | nil =>
    obtain rfl : 0 = n := Option.some.inj left
    exact (number_zero right).symm
  | append_singleton ds a ih =>
    rcases List.eq_nil_or_concat es with rfl | ⟨es, b, rfl⟩
    · obtain rfl : 0 = n := Option.some.inj right
      exact number_zero left
    · rw [List.concat_eq_append] at *
      obtain ⟨m, d, before, last, rfl⟩ := number_snoc_eq_some left
      obtain ⟨k, e, before', last', same⟩ := number_snoc_eq_some right
      obtain ⟨_, small⟩ := digit_eq_some.mp last
      obtain ⟨_, small'⟩ := digit_eq_some.mp last'
      obtain ⟨rfl, rfl⟩ : m = k ∧ d = e := by omega
      rw [List.dropWhile_append, List.dropWhile_append, ih before before', digit_inj last last']

theorem stripped_plain {digits : List UInt8} {n : Nat} (value : number digits = some n) :
    stripped digits = digits.dropWhile (· = 48) := if_neg (number_unsigned value)

theorem stripped_minus (digits : List UInt8) : stripped (45 :: digits) =
    if digits.dropWhile (· = 48) = [] then [] else 45 :: digits.dropWhile (· = 48) := if_pos rfl

theorem Integer.stripped_eq {s t : List UInt8} {v : Int} (left : Integer s v)
    (right : Integer t v) : stripped s = stripped t := by
  generalize same : v = w at right
  cases left with
  | @plain digits n nonempty value =>
    cases right with
    | plain nonempty' value' =>
      obtain rfl := Int.ofNat.inj same
      rw [stripped_plain value, stripped_plain value', number_inj value value']
    | @minus digits' m nonempty' value' =>
      obtain ⟨rfl, rfl⟩ : n = 0 ∧ m = 0 := by omega
      rw [stripped_plain value, stripped_minus, number_zero value, if_pos (number_zero value')]
  | @minus digits n nonempty value =>
    cases right with
    | @plain digits' m nonempty' value' =>
      obtain ⟨rfl, rfl⟩ : n = 0 ∧ m = 0 := by omega
      rw [stripped_plain value', stripped_minus, number_zero value', if_pos (number_zero value)]
    | minus nonempty' value' =>
      obtain rfl := Int.ofNat.inj (Int.neg_inj.mp same)
      rw [stripped_minus, stripped_minus, number_inj value value']

/-- sv2int reads a text as what it is exactly if nothing follows the integer that the text
    begins with; and two such texts with one value differ by leading zeros or -0. -/
theorem sv2int_exact_iff (text : List UInt8) : (Exactly text ↔ ¬ Trailing text) ∧
    ∀ other v, ¬ Trailing text → ¬ Trailing other → sv2int text = .ok v → sv2int other = .ok v →
      stripped text = stripped other := by
  refine ⟨exactly_iff text, ?_⟩
  intro other v clean clean' left right
  have is := (((exactly_iff text).mpr clean).value v).mp left
  have is' := (((exactly_iff other).mpr clean').value v).mp right
  exact is.1.stripped_eq is'.1

theorem twelve_accepted : sv2int [49, 50, 97, 98] = .ok 12 ∧ ¬ Exactly [49, 50, 97, 98] := by
  have result : sv2int [49, 50, 97, 98] = .ok 12 := rfl
  refine ⟨result, ?_⟩
  intro exactly
  have digits := ((exactly.value 12).mp result).1.digits 97 (by decide)
  revert digits
  decide

end StringParser
