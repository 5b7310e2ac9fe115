import Mathlib.Algebra.Ring.Nat
import Mathlib.Data.List.Basic
import Mathlib.Tactic.Common

/- Lists of quoted texts with separators between them. A doubled quote inside a text stands
   for one quote, and blanks may stand around the texts. -/
namespace Quoting

def joinWith {α : Type} (sep : List α) : List (List α) → List α
  | [] => []
  | [s] => s
  | s :: t :: rest => s ++ sep ++ joinWith sep (t :: rest)

structure Signs (α : Type) where
  quote : α
  comma : α
  blank : α → Bool
  apart : comma ≠ quote
  solid : blank quote = false ∧ blank comma = false

/- Where the reader is: before a text, in it, behind a quote in it, behind the text. -/
inductive Place where
  | before
  | inside
  | atQuote
  | behind

section joins
variable {α : Type}

theorem joinWith_push (sep : List α) (front s : List α) (rest : List (List α)) :
    joinWith sep ((front ++ s) :: rest) = front ++ joinWith sep (s :: rest) := by
  cases rest <;> simp [joinWith]

theorem joinWith_empty (sep : List α) {texts : List (List α)} (some : texts ≠ []) :
    joinWith sep ([] :: texts) = sep ++ joinWith sep texts := by
  cases texts with
  | nil => exact absurd rfl some
  | cons s rest => rfl

theorem joinWith_sum (f : List α → Nat) (add : ∀ s t, f (s ++ t) = f s + f t) (sep : List α)
    {texts : List (List α)} (some : texts ≠ []) :
    f (joinWith sep texts) + f sep = (texts.map f).sum + texts.length * f sep := by
  induction texts with
  | nil => exact absurd rfl some
  | cons s rest ih =>
    cases rest with
    | nil => simp [joinWith]
    | cons t rest =>
      have known := ih (List.cons_ne_nil t rest)
      rw [joinWith, add, add, List.map_cons, List.sum_cons, List.length_cons, Nat.succ_mul]
      omega

end joins

variable {α : Type} [DecidableEq α] (g : Signs α)

def pushHead (x : α) : List (List α) → List (List α)
  | [] => []
  | s :: rest => (x :: s) :: rest

/-- The texts from here on; inside a text, the first one is what is left of it. -/
def read : Place → List α → Option (List (List α))
  | .before, [] | .inside, [] => none
  | .atQuote, [] | .behind, [] => some [[]]
  | .before, x :: xs =>
    if x = g.quote then read .inside xs
    else if g.blank x then read .before xs else none
  | .inside, x :: xs =>
    if x = g.quote then read .atQuote xs else (read .inside xs).map (pushHead x)
  | .atQuote, x :: xs =>
    if x = g.quote then (read .inside xs).map (pushHead x)
    else if x = g.comma then (read .before xs).map ([] :: ·)
    else if g.blank x then read .behind xs else none
  | .behind, x :: xs =>
    if x = g.comma then (read .before xs).map ([] :: ·)
    else if g.blank x then read .behind xs else none

def parse (text : List α) : Option (List (List α)) := read g .before text

def double (s : List α) : List α := s.flatMap fun x => if x = g.quote then [x, x] else [x]

def quoted (texts : List (List α)) : List α :=
  g.quote :: joinWith [g.quote, g.comma, g.quote] texts ++ [g.quote]

def write (texts : List (List α)) : List α := quoted g (texts.map (double g))

def body (texts : List (List α)) : List α :=
  joinWith [g.quote, g.comma, g.quote] (texts.map (double g)) ++ [g.quote]

theorem write_eq (texts : List (List α)) : write g texts = g.quote :: body g texts := rfl

theorem double_cons (x : α) (s : List α) :
    double g (x :: s) = (if x = g.quote then [x, x] else [x]) ++ double g s := rfl

theorem body_pushHead (x : α) {texts : List (List α)} (some : texts ≠ []) :
    body g (pushHead x texts) = (if x = g.quote then [x, x] else [x]) ++ body g texts := by
  cases texts with
  | nil => exact absurd rfl some
  | cons s rest =>
    rw [body, pushHead, List.map_cons, double_cons, joinWith_push, List.append_assoc]
    rfl

theorem body_empty {texts : List (List α)} (some : texts ≠ []) :
    body g ([] :: texts) = g.quote :: g.comma :: write g texts := by
  have mapped : texts.map (double g) ≠ [] := by simpa using some
  rw [body, List.map_cons]
  change joinWith _ ([] :: texts.map (double g)) ++ _ = _
  rw [joinWith_empty _ mapped]
  rfl

/-! What is written is read. -/

theorem read_push (x : α) (rest : List α) :
    read g .inside ((if x = g.quote then [x, x] else [x]) ++ rest) =
      (read g .inside rest).map (pushHead x) := by
  by_cases same : x = g.quote <;> simp [read, same]

theorem read_body {texts : List (List α)} (some : texts ≠ []) :
    read g .inside (body g texts) = .some texts := by
  induction texts with
  | nil => exact absurd rfl some
  | cons s rest ih =>
    induction s with
    | nil =>
      cases rest with
      | nil => simp [body, double, joinWith, read]
      | cons t rest =>
        have more : t :: rest ≠ [] := List.cons_ne_nil t rest
        rw [body_empty g more, write_eq]
        simp [read, g.apart, ih more]
    | cons x s known =>
      have grown := body_pushHead g x (List.cons_ne_nil s rest)
      rw [pushHead] at grown
      rw [grown, read_push, known (List.cons_ne_nil s rest)]
      rfl

theorem parse_write {texts : List (List α)} (some : texts ≠ []) :
    parse g (write g texts) = .some texts := by
  simp [parse, write_eq, read, read_body g some]

/-! What is read is written, but for blanks. -/

/-- `text` is `kept` with some signs between that are no quotes. -/
structure Within (kept text : List α) : Prop where
  sublist : kept.Sublist text
  quotes : text.count g.quote = kept.count g.quote

variable {g}

theorem Within.cons {kept text : List α} (within : Within g kept text) (x : α) :
    Within g (x :: kept) (x :: text) := by
  constructor
  · exact within.sublist.cons_cons x
  · rw [List.count_cons, List.count_cons, within.quotes]

theorem Within.skip {kept text : List α} {x : α} (front : List α)
    (within : Within g kept (front ++ text)) (other : x ≠ g.quote) :
    Within g kept (front ++ x :: text) := by
  constructor
  · exact within.sublist.trans ((List.sublist_cons_self x text).append_left front)
  · rw [← within.quotes]
    simp [List.count_append, other]

theorem Within.eq_of_length {kept text : List α} (within : Within g kept text)
    (most : text.length ≤ kept.length) : kept = text :=
  within.sublist.eq_of_length_le most

omit [DecidableEq α] in
theorem ne_quote_of_blank {x : α} (blank : g.blank x = true) : x ≠ g.quote := by
  rintro rfl
  rw [g.solid.1] at blank
  cases blank

def Place.whole (g : Signs α) : Place → List α → List α
  | .before, text | .inside, text => text
  | .atQuote, text | .behind, text => g.quote :: text

def Place.written (g : Signs α) : Place → List (List α) → List α
  | .before, texts => write g texts
  | .inside, texts | .atQuote, texts | .behind, texts => body g texts

omit [DecidableEq α] in
theorem pushHead_ne_nil {x : α} {texts : List (List α)} (some : texts ≠ []) :
    pushHead x texts ≠ [] := by
  cases texts with
  | nil => exact absurd rfl some
  | cons s rest => exact List.cons_ne_nil _ rest

theorem read_within {p : Place} {text : List α} {texts : List (List α)}
    (reads : read g p text = some texts) :
    texts ≠ [] ∧ Within g (p.written g texts) (p.whole g text) := by
  induction text generalizing p texts with
  | nil =>
    cases p with
    | before | inside => cases reads
    | atQuote | behind =>
      cases reads
      exact ⟨by simp, .refl _, rfl⟩
  | cons x xs ih =>
    have after : read g .behind (x :: xs) = some texts →
        texts ≠ [] ∧ Within g (body g texts) (g.quote :: x :: xs) := by
      intro reads
      simp only [read] at reads
      split at reads
      · rename_i comma
        obtain ⟨rest, known, rfl⟩ := Option.map_eq_some_iff.mp reads
        obtain ⟨more, within⟩ := ih (p := .before) known
        refine ⟨List.cons_ne_nil _ _, ?_⟩
        rw [body_empty g more, comma]
        exact (within.cons _).cons _
      · split at reads
        · rename_i blank
          obtain ⟨more, within⟩ := ih (p := .behind) reads
          exact ⟨more, Within.skip [g.quote] within (ne_quote_of_blank blank)⟩
        · cases reads
    cases p with
    | before =>
      simp only [read] at reads
      split at reads
      · rename_i quote
        obtain ⟨more, within⟩ := ih reads
        subst quote
        exact ⟨more, within.cons _⟩
      · split at reads
        · rename_i blank
          obtain ⟨more, within⟩ := ih reads
          exact ⟨more, Within.skip [] within (ne_quote_of_blank blank)⟩
        · cases reads
    | inside =>
      simp only [read] at reads
      split at reads
      · rename_i quote
        subst quote
        exact ih (p := .atQuote) reads
      · rename_i other
        obtain ⟨rest, known, rfl⟩ := Option.map_eq_some_iff.mp reads
        obtain ⟨more, within⟩ := ih (p := .inside) known
        refine ⟨pushHead_ne_nil more, ?_⟩
        rw [Place.written, body_pushHead g x more, if_neg other]
        exact within.cons x
    | atQuote =>
      simp only [read] at reads
      split at reads
      · rename_i quote
        obtain ⟨rest, known, rfl⟩ := Option.map_eq_some_iff.mp reads
        obtain ⟨more, within⟩ := ih (p := .inside) known
        refine ⟨pushHead_ne_nil more, ?_⟩
        rw [Place.written, body_pushHead g x more, if_pos quote]
        subst quote
        exact (within.cons _).cons _
      · exact after (by rwa [read])
    | behind => exact after reads

/-! Signs and quotes, counted. -/

theorem length_double (s : List α) : (double g s).length = s.length + s.count g.quote := by
  induction s with
  | nil => rfl
  | cons x s ih =>
    rw [double_cons, List.length_append, ih, List.count_cons, List.length_cons]
    by_cases same : x = g.quote
    · simp [same]
      omega
    · simp [same]
      omega

theorem count_double (s : List α) : (double g s).count g.quote = 2 * s.count g.quote := by
  induction s with
  | nil => rfl
  | cons x s ih =>
    rw [double_cons, List.count_append, ih, List.count_cons]
    by_cases same : x = g.quote
    · simp [same]
      omega
    · simp [same]

def quotes (g : Signs α) (texts : List (List α)) : Nat := (texts.map (List.count g.quote)).sum

def signs (texts : List (List α)) : Nat := (texts.map List.length).sum

theorem signs_double (texts : List (List α)) :
    signs (texts.map (double g)) = signs texts + quotes g texts := by
  induction texts with
  | nil => rfl
  | cons s rest ih =>
    simp only [signs, quotes, List.map_cons, List.sum_cons, length_double] at *
    omega

theorem quotes_double (texts : List (List α)) :
    quotes g (texts.map (double g)) = 2 * quotes g texts := by
  induction texts with
  | nil => rfl
  | cons s rest ih =>
    simp only [quotes, List.map_cons, List.sum_cons, count_double] at *
    omega

omit [DecidableEq α] in
theorem length_quoted {texts : List (List α)} (some : texts ≠ []) :
    (quoted g texts).length + 1 = 3 * texts.length + signs texts := by
  have sum := joinWith_sum List.length (fun _ _ => List.length_append)
    [g.quote, g.comma, g.quote] some
  simp only [List.length_cons, List.length_nil] at sum
  simp only [quoted, signs, List.length_append, List.length_cons, List.length_nil]
  omega

theorem count_quoted {texts : List (List α)} (some : texts ≠ []) :
    (quoted g texts).count g.quote = 2 * texts.length + quotes g texts := by
  have sum := joinWith_sum (List.count g.quote) (fun _ _ => List.count_append)
    [g.quote, g.comma, g.quote] some
  simp only [List.count_cons, List.count_nil, beq_self_eq_true, g.apart, ↓reduceIte,
    beq_iff_eq] at sum
  simp only [quoted, quotes, List.count_append, List.count_cons, List.count_nil,
    beq_self_eq_true, ↓reduceIte]
  omega

theorem length_write {texts : List (List α)} (some : texts ≠ []) :
    (write g texts).length + 1 = 3 * texts.length + signs texts + quotes g texts := by
  have mapped : texts.map (double g) ≠ [] := by simpa using some
  rw [write, length_quoted mapped, signs_double, List.length_map, Nat.add_assoc]

theorem count_write {texts : List (List α)} (some : texts ≠ []) :
    (write g texts).count g.quote = 2 * texts.length + 2 * quotes g texts := by
  have mapped : texts.map (double g) ≠ [] := by simpa using some
  rw [write, count_quoted mapped, quotes_double, List.length_map]

/-! Texts that come out right without doubling, with quotes put around the list. -/

/-- No quotes but the first `a` of the first text and the last `b` of the last one. -/
def Padded (g : Signs α) (a b : Nat) : List (List α) → Prop
  | [] => False
  | [s] => ∃ r, g.quote ∉ r ∧ s = List.replicate a g.quote ++ r ++ List.replicate b g.quote
  | s :: t :: rest =>
    (∃ r, g.quote ∉ r ∧ s = List.replicate a g.quote ++ r) ∧ Padded g 0 b (t :: rest)

theorem double_free {s : List α} (free : g.quote ∉ s) : double g s = s := by
  induction s with
  | nil => rfl
  | cons x s ih =>
    rw [List.mem_cons, not_or] at free
    obtain ⟨other, rest⟩ := free
    rw [double_cons, if_neg (Ne.symm other), ih rest]
    rfl

theorem double_append (s t : List α) : double g (s ++ t) = double g s ++ double g t :=
  List.flatMap_append

theorem double_replicate (n : Nat) :
    double g (List.replicate n g.quote) =
      List.replicate n g.quote ++ List.replicate n g.quote := by
  rw [← List.replicate_add]
  induction n with
  | zero => rfl
  | succ n ih =>
    have twice : n + 1 + (n + 1) = n + n + 2 := by omega
    rw [List.replicate_succ, double_cons, ih, twice]
    simp [List.replicate_succ]

theorem write_of_padded {a b : Nat} {texts : List (List α)} (padded : Padded g a b texts) :
    List.replicate a g.quote ++ joinWith [g.quote, g.comma, g.quote] texts ++
        List.replicate b g.quote =
      joinWith [g.quote, g.comma, g.quote] (texts.map (double g)) := by
  induction texts generalizing a with
  | nil => exact padded.elim
  | cons s rest ih =>
    cases rest with
    | nil =>
      obtain ⟨r, free, rfl⟩ := padded
      simp only [joinWith, List.map_cons, List.map_nil, double_append, double_replicate,
        double_free free, List.append_assoc]
    | cons t rest =>
      obtain ⟨⟨r, free, rfl⟩, others⟩ := padded
      have known := ih others
      rw [List.replicate_zero, List.nil_append, List.map_cons] at known
      rw [List.map_cons, List.map_cons, joinWith, joinWith, ← known, double_append,
        double_replicate, double_free free]
      simp only [List.append_assoc]

omit [DecidableEq α] in
theorem replicate_push (n : Nat) (x : α) (s : List α) :
    List.replicate n x ++ x :: s = List.replicate (n + 1) x ++ s := by
  rw [List.replicate_succ', List.append_assoc]
  rfl

theorem ahead_cons {x : α} {s u v : List α} {n : Nat}
    (same : (x :: s) ++ u = List.replicate (n + 1) g.quote ++ (double g (x :: s) ++ v)) :
    x = g.quote ∧ s ++ u = List.replicate (n + 2) g.quote ++ (double g s ++ v) := by
  rw [List.replicate_succ, List.cons_append, List.cons_append, List.cons.injEq] at same
  obtain ⟨rfl, tail⟩ := same
  refine ⟨rfl, ?_⟩
  rwa [double_cons, if_pos rfl, List.append_assoc, List.cons_append, List.cons_append,
    List.nil_append, replicate_push, replicate_push] at tail

theorem not_ahead {s rest rest' : List α} {n : Nat} :
    s ++ g.quote :: g.comma :: rest ≠
      List.replicate (n + 1) g.quote ++ (double g s ++ g.quote :: g.comma :: rest') := by
  induction s generalizing n with
  | nil =>
    intro same
    cases n <;> simp [List.replicate_succ, double, g.apart] at same
  | cons x s ih =>
    intro same
    exact ih (ahead_cons same).2

/-- Up to the next separator, a text that is its own doubling has no quotes. -/
theorem free_of_double {s rest rest' : List α}
    (same : s ++ g.quote :: g.comma :: rest = double g s ++ g.quote :: g.comma :: rest') :
    g.quote ∉ s ∧ rest = rest' := by
  induction s with
  | nil => simpa [double] using same
  | cons x s ih =>
    by_cases quote : x = g.quote
    · subst quote
      rw [double_cons, if_pos rfl, List.append_assoc, List.cons_append, List.cons_append,
        List.cons.injEq] at same
      exact absurd same.2 (not_ahead (n := 0))
    · rw [double_cons, if_neg quote, List.append_assoc, List.cons_append, List.cons_append,
        List.cons.injEq] at same
      obtain ⟨free, tails⟩ := ih same.2
      exact ⟨by simp [Ne.symm quote, free], tails⟩

theorem padded_cons {a : Nat} {s rest rest' : List α} (some : s ≠ [])
    (same : List.replicate (a + 1) g.quote ++ (s ++ rest) = double g s ++ rest') :
    ∃ t, s = g.quote :: t ∧ List.replicate a g.quote ++ (t ++ rest) = double g t ++ rest' := by
  cases s with
  | nil => exact absurd rfl some
  | cons x t =>
    by_cases quote : x = g.quote
    · subst quote
      refine ⟨t, rfl, ?_⟩
      rw [double_cons, if_pos rfl, List.cons_append, replicate_push] at same
      simpa only [List.replicate_succ, List.cons_append, List.nil_append, List.cons.injEq,
        true_and] using same
    · rw [double_cons, if_neg quote, List.replicate_succ] at same
      exact absurd (List.cons.inj same).1 (Ne.symm quote)

theorem padded_first {a : Nat} {s rest rest' : List α}
    (same : List.replicate a g.quote ++ (s ++ g.quote :: g.comma :: rest) =
      double g s ++ g.quote :: g.comma :: rest') :
    (∃ r, g.quote ∉ r ∧ s = List.replicate a g.quote ++ r) ∧ rest = rest' := by
  induction a generalizing s with
  | zero =>
    obtain ⟨free, tails⟩ := free_of_double same
    exact ⟨⟨s, free, rfl⟩, tails⟩
  | succ a ih =>
    have some : s ≠ [] := by
      rintro rfl
      rw [List.nil_append, replicate_push] at same
      simp [List.replicate_succ, double, Ne.symm g.apart] at same
    obtain ⟨t, rfl, less⟩ := padded_cons some same
    obtain ⟨⟨r, free, rfl⟩, tails⟩ := ih less
    exact ⟨⟨r, free, rfl⟩, tails⟩

theorem all_quotes {s : List α} {n b : Nat}
    (same : s ++ List.replicate b g.quote = List.replicate (n + 1) g.quote ++ double g s) :
    ∃ m, s = List.replicate m g.quote ∧ b = n + 1 + m := by
  induction s generalizing n with
  | nil =>
    have lengths := congrArg List.length same
    simp only [List.nil_append, List.length_replicate, double, List.flatMap_nil,
      List.append_nil] at lengths
    exact ⟨0, rfl, lengths⟩
  | cons x s ih =>
    obtain ⟨rfl, less⟩ := ahead_cons (v := []) (by simpa using same)
    obtain ⟨m, rfl, count⟩ := ih (n := n + 1) (by simpa using less)
    exact ⟨m + 1, rfl, by omega⟩

theorem free_at_end {s : List α} {b : Nat}
    (same : s ++ List.replicate b g.quote = double g s) :
    ∃ r, g.quote ∉ r ∧ s = r ++ List.replicate b g.quote := by
  induction s with
  | nil =>
    have lengths := congrArg List.length same
    simp only [List.nil_append, List.length_replicate, double, List.flatMap_nil,
      List.length_nil] at lengths
    exact ⟨[], List.not_mem_nil, by rw [lengths]; rfl⟩
  | cons x s ih =>
    by_cases quote : x = g.quote
    · subst quote
      rw [double_cons, if_pos rfl, List.cons_append, List.cons_append, List.cons.injEq] at same
      obtain ⟨m, rfl, rfl⟩ := all_quotes (n := 0) same.2
      refine ⟨[], List.not_mem_nil, ?_⟩
      rw [Nat.zero_add, Nat.add_comm, List.replicate_succ]
      rfl
    · rw [double_cons, if_neg quote, List.cons_append, List.cons_append, List.cons.injEq] at same
      obtain ⟨r, free, rfl⟩ := ih same.2
      exact ⟨x :: r, by simp [Ne.symm quote, free], rfl⟩

theorem padded_last {s : List α} {a b : Nat}
    (same : List.replicate a g.quote ++ (s ++ List.replicate b g.quote) = double g s) :
    ∃ r, g.quote ∉ r ∧ s = List.replicate a g.quote ++ r ++ List.replicate b g.quote := by
  induction a generalizing s with
  | zero => exact free_at_end same
  | succ a ih =>
    have some : s ≠ [] := by
      rintro rfl
      simp [List.replicate_succ, double] at same
    rw [← List.append_nil (double g s)] at same
    obtain ⟨t, rfl, less⟩ := padded_cons some same
    rw [List.append_nil] at less
    obtain ⟨r, free, rfl⟩ := ih less
    exact ⟨r, free, rfl⟩

theorem padded_iff {a b : Nat} {texts : List (List α)} (some : texts ≠ []) :
    Padded g a b texts ↔
      List.replicate a g.quote ++ joinWith [g.quote, g.comma, g.quote] texts ++
          List.replicate b g.quote =
        joinWith [g.quote, g.comma, g.quote] (texts.map (double g)) := by
  refine ⟨write_of_padded, fun same => ?_⟩
  induction texts generalizing a with
  | nil => exact absurd rfl some
  | cons s rest ih =>
    cases rest with
    | nil =>
      rw [List.append_assoc] at same
      exact padded_last same
    | cons t rest =>
      rw [List.map_cons, List.map_cons, joinWith, joinWith] at same
      simp only [List.append_assoc, List.cons_append, List.nil_append] at same
      obtain ⟨first, tails⟩ := padded_first same
      refine ⟨first, ih (List.cons_ne_nil t rest) ?_⟩
      exact (List.cons.inj tails).2

end Quoting
