import Mathlib.Data.List.Basic
import Mathlib.Tactic.Common

/- Runs of consecutive elements with one key, each merged into one element. -/
namespace Collapse
variable {α β κ μ : Type}

section
variable [DecidableEq κ] (key : α → κ) (merge : α → α → α)

def front (a : α) : List α → List α
  | [] => [a]
  | b :: bs => if key a = key b then merge a b :: bs else a :: b :: bs

def collapse : List α → List α
  | [] => []
  | a :: as => front key merge a (collapse as)

def behind (b : α) : List α → List α
  | [] => [b]
  | [a] => if key a = key b then [merge a b] else [a, b]
  | a :: as => a :: behind b as

end

/-- Merging is associative, and keeps the key of the first of two elements. -/
structure Lawful (key : α → κ) (merge : α → α → α) : Prop where
  key_merge : ∀ a b, key (merge a b) = key a
  assoc : ∀ a b c, merge (merge a b) c = merge a (merge b c)

variable [DecidableEq κ] [DecidableEq μ] {key : α → κ} {merge : α → α → α}

theorem behind_snoc (as : List α) (a b : α) :
    behind key merge b (as ++ [a]) =
      as ++ if key a = key b then [merge a b] else [a, b] := by
  induction as with
  | nil => rfl
  | cons c cs ih =>
    cases cs with
    | nil => exact congrArg (c :: ·) ih
    | cons d ds => exact congrArg (c :: ·) ih

theorem front_behind (lawful : Lawful key merge) (a b : α) (bs : List α) :
    front key merge a (behind key merge b bs) =
      behind key merge b (front key merge a bs) := by
  cases bs with
  | nil => by_cases same : key a = key b <;> simp [front, behind, same]
  | cons c cs =>
    cases cs with
    | nil =>
      by_cases first : key a = key c
      · by_cases last : key c = key b <;>
          simp [front, behind, first, last, lawful.key_merge, lawful.assoc]
      · by_cases last : key c = key b
        · have apart : key a ≠ key b := last ▸ first
          simp [front, behind, last, apart, lawful.key_merge]
        · simp [front, behind, first, last]
    | cons d ds =>
      by_cases first : key a = key c <;> simp [front, behind, first]

theorem collapse_snoc (lawful : Lawful key merge) (as : List α) (b : α) :
    collapse key merge (as ++ [b]) = behind key merge b (collapse key merge as) := by
  induction as with
  | nil => rfl
  | cons a as ih => rw [List.cons_append, collapse, ih, front_behind lawful, collapse]

theorem front_merge {coarse : α → μ} (lawful : Lawful coarse merge) {a b : α}
    (same : coarse a = coarse b) (bs : List α) :
    front coarse merge (merge a b) bs = front coarse merge a (front coarse merge b bs) := by
  cases bs with
  | nil => simp [front, same]
  | cons c cs =>
    by_cases next : coarse b = coarse c
    · simp [front, same, next, lawful.key_merge, lawful.assoc]
    · simp [front, same, next, lawful.key_merge]

theorem collapse_front {coarse : α → μ} (lawful : Lawful coarse merge)
    (finer : ∀ a b, key a = key b → coarse a = coarse b) (a : α) (bs : List α) :
    collapse coarse merge (front key merge a bs) =
      front coarse merge a (collapse coarse merge bs) := by
  cases bs with
  | nil => rfl
  | cons b bs =>
    by_cases same : key a = key b
    · rw [front, if_pos same, collapse, front_merge lawful (finer a b same), collapse]
    · rw [front, if_neg same, collapse]

/-- Merging by a finer key first makes no difference. -/
theorem collapse_collapse {coarse : α → μ} (lawful : Lawful coarse merge)
    (finer : ∀ a b, key a = key b → coarse a = coarse b) (as : List α) :
    collapse coarse merge (collapse key merge as) = collapse coarse merge as := by
  induction as with
  | nil => rfl
  | cons a as ih => rw [collapse, collapse_front lawful finer, ih, collapse]

theorem collapse_map {key' : β → κ} {merge' : β → β → β} {f : α → β}
    (keeps : ∀ a, key' (f a) = key a) (respects : ∀ a b, f (merge a b) = merge' (f a) (f b))
    (as : List α) :
    collapse key' merge' (as.map f) = (collapse key merge as).map f := by
  induction as with
  | nil => rfl
  | cons a as ih =>
    rw [List.map_cons, collapse, ih, collapse]
    cases collapse key merge as with
    | nil => rfl
    | cons b bs => by_cases same : key a = key b <;> simp [front, keeps, respects, same]

end Collapse
