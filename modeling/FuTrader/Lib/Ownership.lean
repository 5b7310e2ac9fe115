import Mathlib.Algebra.Order.Group.Multiset
import Mathlib.Data.Finset.Erase
import Mathlib.Data.Finset.Insert
import Mathlib.Logic.Function.Basic

/- Handles with one owner each. A place holds one handle or none, and a handle is live as long
   as a place holds it. -/
namespace Ownership
variable {ι η : Type}

/-- The live handles are those held, each in one place. -/
structure Sole (own : ι → Option η) (live : Finset η) : Prop where
  held : ∀ i h, own i = some h → h ∈ live
  kept : ∀ h ∈ live, ∃ i, own i = some h
  one : ∀ i j h, own i = some h → own j = some h → i = j

theorem sole_nothing : Sole (fun _ : ι => (none : Option η)) ∅ :=
  ⟨by simp, by simp, by simp⟩

variable [DecidableEq ι] {own : ι → Option η} {live : Finset η} {i j : ι}

theorem update_eq_some {x : Option η} {k : ι} {h : η} :
    Function.update own i x k = some h ↔ k = i ∧ x = some h ∨ k ≠ i ∧ own k = some h := by
  by_cases here : k = i <;> simp [here]

theorem Sole.gain [DecidableEq η] (sole : Sole own live) (nothing : own i = none) {h : η}
    (new : h ∉ live) : Sole (Function.update own i (some h)) (insert h live) where
  held k g here := by
    rcases update_eq_some.mp here with ⟨_, same⟩ | ⟨_, old⟩
    · exact Option.some.inj same ▸ Finset.mem_insert_self h live
    · exact Finset.mem_insert_of_mem (sole.held k g old)
  kept g member := by
    rcases Finset.mem_insert.mp member with rfl | old
    · exact ⟨i, update_eq_some.mpr (.inl ⟨rfl, rfl⟩)⟩
    · obtain ⟨k, here⟩ := sole.kept g old
      refine ⟨k, update_eq_some.mpr (.inr ⟨?_, here⟩)⟩
      rintro rfl
      simp [nothing] at here
  one k l g here there := by
    rcases update_eq_some.mp here with ⟨rfl, same⟩ | ⟨_, old⟩ <;>
      rcases update_eq_some.mp there with ⟨rfl, same'⟩ | ⟨_, old'⟩
    · rfl
    · exact absurd (Option.some.inj same ▸ sole.held l g old') new
    · exact absurd (Option.some.inj same' ▸ sole.held k g old) new
    · exact sole.one k l g old old'

def released [DecidableEq η] (own : ι → Option η) (live : Finset η) (i : ι) : Finset η :=
  (own i).elim live live.erase

omit [DecidableEq ι] in
theorem mem_released [DecidableEq η] {h : η} :
    h ∈ released own live i ↔ h ∈ live ∧ own i ≠ some h := by
  cases gone : own i with
  | none => simp [released, gone]
  | some g => simp [released, gone, and_comm, eq_comm]

theorem Sole.release [DecidableEq η] (sole : Sole own live) (i : ι) :
    Sole (Function.update own i none) (released own live i) where
  held k h here := by
    rcases update_eq_some.mp here with ⟨_, none⟩ | ⟨other, old⟩
    · cases none
    · exact mem_released.mpr ⟨sole.held k h old, fun there => other (sole.one k i h old there)⟩
  kept h member := by
    obtain ⟨old, other⟩ := mem_released.mp member
    obtain ⟨k, here⟩ := sole.kept h old
    exact ⟨k, update_eq_some.mpr (.inr ⟨fun same => other (same ▸ here), here⟩)⟩
  one k l h here there := by
    rcases update_eq_some.mp here with ⟨_, none⟩ | ⟨_, old⟩
    · cases none
    rcases update_eq_some.mp there with ⟨_, none⟩ | ⟨_, old'⟩
    · cases none
    exact sole.one k l h old old'

omit [DecidableEq ι] in
theorem Sole.released_count [DecidableEq η] (sole : Sole own live) (i : ι) :
    live.val = ((own i).toList : Multiset η) + (released own live i).val := by
  cases held : own i with
  | none => simp [released, held]
  | some h =>
    have member := sole.held i h held
    simp only [released, held, Option.elim_some, Option.toList_some, Multiset.coe_singleton,
      Finset.erase_val, Multiset.singleton_add]
    exact (Multiset.cons_erase member).symm

/-- Place `i`, which holds nothing, takes what `j` holds. -/
theorem Sole.transfer (sole : Sole own live) (nothing : own i = none) :
    Sole (Function.update (Function.update own i (own j)) j none) live := by
  -- what `i` holds afterwards `j` has held before
  have moved : ∀ {k h}, Function.update (Function.update own i (own j)) j none k = some h ↔
      k ≠ j ∧ (k = i ∧ own j = some h ∨ k ≠ i ∧ own k = some h) := by
    intro k h
    rw [update_eq_some, update_eq_some]
    simp
  constructor
  · intro k h here
    rcases (moved.mp here).2 with ⟨_, old⟩ | ⟨_, old⟩ <;> exact sole.held _ h old
  · intro h member
    obtain ⟨k, here⟩ := sole.kept h member
    have other : k ≠ i := by
      rintro rfl
      simp [nothing] at here
    by_cases last : k = j
    · subst last
      exact ⟨i, moved.mpr ⟨other.symm, .inl ⟨rfl, here⟩⟩⟩
    · exact ⟨k, moved.mpr ⟨last, .inr ⟨other, here⟩⟩⟩
  · intro k l h here there
    obtain ⟨k_other, k_held⟩ := moved.mp here
    obtain ⟨l_other, l_held⟩ := moved.mp there
    rcases k_held with ⟨rfl, old⟩ | ⟨_, old⟩ <;> rcases l_held with ⟨rfl, old'⟩ | ⟨_, old'⟩
    · rfl
    · exact absurd (sole.one l j h old' old) l_other
    · exact absurd (sole.one k j h old old') k_other
    · exact sole.one k l h old old'

end Ownership
