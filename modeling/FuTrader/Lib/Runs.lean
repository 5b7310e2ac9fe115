import Mathlib.Data.List.Induction
import Mathlib.Order.Bounds.Basic
import Mathlib.Order.MinMax

/- Runs of consecutive elements with one key. -/
namespace Runs
variable {α κ : Type} (key : α → κ)

/-- `first :: rest` is a maximal run of `before ++ first :: rest ++ later`. -/
structure IsRun (before : List α) (first : α) (rest later : List α) : Prop where
  opens : ∀ p ∈ before.getLast?, key p ≠ key first
  same : ∀ a ∈ rest, key a = key first
  closes : ∀ n ∈ later.head?, key n ≠ key first

variable [DecidableEq κ]

def continued : List α → List α
  | a :: b :: rest =>
    if key a = key b then b :: continued (b :: rest) else continued (b :: rest)
  | _ => []

/-- The last element of the latest run of two or more, or the very first element. -/
def baseline (before : List α) (first : α) : α :=
  (continued key before).getLast?.getD (before.head?.getD first)

theorem continued_snoc (as : List α) (a b : α) : continued key (as ++ [a] ++ [b]) =
    continued key (as ++ [a]) ++ if key a = key b then [b] else [] := by
  induction as with
  | nil => by_cases same : key a = key b <;> simp [continued, same]
  | cons c cs ih =>
    cases cs with
    | nil => by_cases same : key c = key a <;> simp [continued, same] at ih ⊢
    | cons d ds =>
      by_cases same : key c = key d
      · simpa [continued, same] using ih
      · simpa [continued, same] using ih

theorem baseline_continue (as : List α) {a b : α} (first : α) (same : key a = key b) :
    baseline key (as ++ [a] ++ [b]) first = b := by
  rw [baseline, continued_snoc, if_pos same, List.getLast?_concat, Option.getD_some]

theorem baseline_open (as : List α) {a b : α} (first other : α) (apart : key a ≠ key b) :
    baseline key (as ++ [a] ++ [b]) first = baseline key (as ++ [a]) other := by
  have heads : (as ++ [a] ++ [b]).head? = (as ++ [a]).head? := by cases as <;> rfl
  obtain ⟨c, head⟩ : ∃ c, (as ++ [a]).head? = some c := by cases as <;> exact ⟨_, rfl⟩
  rw [baseline, baseline, continued_snoc, heads, head]
  simp [apart]

def closed : List α → List α
  | a :: b :: rest => if key a = key b then closed (b :: rest) else a :: closed (b :: rest)
  | _ => []

theorem closed_snoc (as : List α) (a b : α) : closed key (as ++ [a] ++ [b]) =
    closed key (as ++ [a]) ++ if key a = key b then [] else [a] := by
  induction as with
  | nil => by_cases same : key a = key b <;> simp [closed, same]
  | cons c cs ih =>
    cases cs with
    | nil => by_cases same : key c = key a <;> simp [closed, same] at ih ⊢
    | cons d ds =>
      by_cases same : key c = key d
      · simpa [closed, same] using ih
      · simpa [closed, same] using ih

theorem exists_run (as : List α) (b : α) : ∃ before first rest,
    as ++ [b] = before ++ first :: rest ∧ (∀ p ∈ before.getLast?, key p ≠ key first) ∧
      ∀ a ∈ first :: rest, key a = key b := by
  induction as using List.reverseRecOn generalizing b with
  | nil => exact ⟨[], b, [], rfl, by simp, by simp⟩
  | append_singleton as a ih =>
    by_cases same : key a = key b
    · obtain ⟨before, first, rest, split, opens, run⟩ := ih a
      refine ⟨before, first, rest ++ [b], ?_, opens, ?_⟩
      · rw [split, List.append_assoc, List.cons_append]
      · intro c member
        rcases List.mem_append.mp (show c ∈ (first :: rest) ++ [b] from member) with old | new
        · exact (run c old).trans same
        · rw [List.mem_singleton.mp new]
    · exact ⟨as ++ [a], b, [], rfl, by simpa using same, by simp⟩

/-! The greatest and the least element met so far. -/

theorem foldl_max_isGreatest {F : Type} [LinearOrder F] (x : F) (xs : List F) :
    IsGreatest {y | y ∈ x :: xs} (xs.foldl max x) := by
  induction xs generalizing x with
  | nil => simp [IsGreatest, upperBounds]
  | cons z zs ih =>
    obtain ⟨member, bound⟩ := ih (max x z)
    constructor
    · change zs.foldl max (max x z) ∈ x :: z :: zs
      rcases List.mem_cons.mp member with top | later
      · rw [top]
        rcases max_choice x z with left | right
        · simp [left]
        · simp [right]
      · simp [later]
    · intro y found
      have above : max x z ≤ zs.foldl max (max x z) := bound (by simp)
      rcases List.mem_cons.mp found with rfl | found
      · exact (le_max_left _ z).trans above
      · rcases List.mem_cons.mp found with rfl | later
        · exact (le_max_right x _).trans above
        · exact bound (by simp [later])

theorem foldl_min_isLeast {F : Type} [LinearOrder F] (x : F) (xs : List F) :
    IsLeast {y | y ∈ x :: xs} (xs.foldl min x) :=
  foldl_max_isGreatest (F := Fᵒᵈ) x xs

end Runs
