import FuTrader.Lib.Quoting

/- BactestMdClient::subscribe: the text for `code IN (...)`, and what SQL reads there. -/
namespace BactestMd
open Quoting

/-- `_symbols_holder` after one more call. -/
def subscribe (holder : List UInt8) (symbols : List (List UInt8)) : List UInt8 :=
  holder ++ [39] ++ joinWith [39, 44, 39] symbols ++ [39]

def sqlSigns : Signs UInt8 where
  quote := 39
  comma := 44
  blank x := x ∈ [9, 10, 11, 12, 13, 32]
  apart := by decide
  solid := by decide

def symbolsHolder (calls : List (List (List UInt8))) : List UInt8 := calls.foldl subscribe []

theorem symbolsHolder_eq (calls : List (List (List UInt8))) :
    symbolsHolder calls = calls.flatMap (quoted sqlSigns) := by
  have appended : ∀ holder, calls.foldl subscribe holder =
      holder ++ calls.flatMap (quoted sqlSigns) := by
    induction calls with
    | nil => simp
    | cons symbols calls ih =>
      intro holder
      rw [List.foldl_cons, ih, List.flatMap_cons, subscribe]
      simp [quoted, sqlSigns]
  exact appended []

def idle (calls : List (List (List UInt8))) : Nat := calls.countP List.isEmpty

def listing (calls : List (List (List UInt8))) : Nat := calls.countP fun c => !c.isEmpty

theorem count_holder (calls : List (List (List UInt8))) :
    (calls.flatMap (quoted sqlSigns)).count sqlSigns.quote =
      2 * calls.flatten.length + quotes sqlSigns calls.flatten + 2 * idle calls := by
  induction calls with
  | nil => rfl
  | cons c calls ih =>
    rw [List.flatMap_cons, List.count_append, ih]
    cases c with
    | nil =>
      simp [quoted, joinWith, idle]
      omega
    | cons s rest =>
      rw [count_quoted (List.cons_ne_nil s rest)]
      simp [idle, quotes]
      omega

theorem length_holder (calls : List (List (List UInt8))) :
    (calls.flatMap (quoted sqlSigns)).length + listing calls =
      3 * calls.flatten.length + signs calls.flatten + 2 * idle calls := by
  induction calls with
  | nil => rfl
  | cons c calls ih =>
    rw [List.flatMap_cons, List.length_append]
    cases c with
    | nil =>
      simp [quoted, joinWith, idle, listing] at *
      omega
    | cons s rest =>
      have first := length_quoted (g := sqlSigns) (List.cons_ne_nil s rest)
      simp [idle, signs, listing] at *
      omega

theorem one_listing {calls : List (List (List UInt8))} (one : listing calls = 1) :
    ∃ i j symbols, symbols ≠ [] ∧
      calls = List.replicate i [] ++ symbols :: List.replicate j [] := by
  induction calls with
  | nil => cases one
  | cons c calls ih =>
    cases c with
    | nil =>
      obtain ⟨i, j, symbols, some, rfl⟩ := ih (by simpa [listing] using one)
      exact ⟨i + 1, j, symbols, some, rfl⟩
    | cons s rest =>
      have others : listing calls = 0 := by simpa [listing] using one
      refine ⟨0, calls.length, s :: rest, List.cons_ne_nil s rest, ?_⟩
      have empty : calls = List.replicate calls.length [] := by
        apply List.eq_replicate_of_mem
        intro c member
        have none := List.countP_eq_zero.mp others c member
        simpa using none
      rw [← empty]
      rfl

theorem idle_text (i : Nat) : (List.replicate i ([] : List (List UInt8))).flatMap
    (quoted sqlSigns) = List.replicate (2 * i) sqlSigns.quote := by
  induction i with
  | zero => rfl
  | succ i ih =>
    rw [List.replicate_succ, List.flatMap_cons, ih, Nat.mul_succ, Nat.add_comm,
      List.replicate_add]
    rfl

theorem flatten_one (i j : Nat) (symbols : List (List UInt8)) :
    (List.replicate i [] ++ symbols :: List.replicate j []).flatten = symbols := by
  simp

theorem one_text_iff {i j : Nat} {symbols : List (List UInt8)} (some : symbols ≠ []) :
    (List.replicate i [] ++ symbols :: List.replicate j []).flatMap (quoted sqlSigns) =
        write sqlSigns symbols ↔
      Padded sqlSigns (2 * i) (2 * j) symbols := by
  rw [padded_iff some, List.flatMap_append, List.flatMap_cons, idle_text, idle_text, quoted,
    write, quoted]
  simp only [List.cons_append, List.append_assoc]
  rw [replicate_push, List.nil_append, List.replicate_succ, List.cons_append, List.cons.injEq,
    ← List.replicate_succ, List.replicate_succ', ← List.append_assoc, ← List.append_assoc,
    List.append_left_inj, List.append_assoc]
  simp

/-- If the symbols are read back, their quotes are as many as those of the idle calls, and
    then the text has room for one list only and for no blanks. -/
theorem counts_of_within {calls : List (List (List UInt8))} (some : calls.flatten ≠ [])
    (within : Within sqlSigns (write sqlSigns calls.flatten)
      (calls.flatMap (quoted sqlSigns))) :
    listing calls = 1 ∧
      (calls.flatMap (quoted sqlSigns)).length ≤ (write sqlSigns calls.flatten).length := by
  have lengths := within.sublist.length_le
  have counts := within.quotes
  have text := length_holder calls
  rw [count_holder, count_write some] at counts
  have written := length_write (g := sqlSigns) some
  have here : listing calls ≠ 0 := by
    intro none
    apply some
    rw [List.flatten_eq_nil_iff]
    intro c member
    simpa using List.countP_eq_zero.mp none c member
  omega

/-- The symbols are read back exactly when one call alone has symbols, and these have no
    quotes but as many at the start of the first one and at the end of the last one as the
    other calls put around the list. -/
theorem symbols_read_iff (calls : List (List (List UInt8))) :
    parse sqlSigns (symbolsHolder calls) = some calls.flatten ↔
      ∃ i j symbols, calls = List.replicate i [] ++ symbols :: List.replicate j [] ∧
        Padded sqlSigns (2 * i) (2 * j) symbols := by
  rw [symbolsHolder_eq]
  constructor
  · intro reads
    obtain ⟨some, within⟩ := read_within reads
    obtain ⟨one, most⟩ := counts_of_within some within
    obtain ⟨i, j, symbols, more, rfl⟩ := one_listing one
    refine ⟨i, j, symbols, rfl, (one_text_iff more).mp ?_⟩
    have same := within.eq_of_length most
    rw [flatten_one] at same
    exact same.symm
  · rintro ⟨i, j, symbols, rfl, padded⟩
    have some : symbols ≠ [] := by
      rintro rfl
      exact padded
    rw [(one_text_iff some).mpr padded, parse_write sqlSigns some, flatten_one]

/-- `subscribe({"a"}); subscribe({"b"});` leaves `'a''b'`, one literal. -/
theorem two_calls_misread :
    ¬ ∀ calls : List (List (List UInt8)), calls ≠ [] →
      parse sqlSigns (symbolsHolder calls) = some calls.flatten := by
  intro always
  have reads := always [[[97]], [[98]]] (by decide)
  revert reads
  decide

end BactestMd
