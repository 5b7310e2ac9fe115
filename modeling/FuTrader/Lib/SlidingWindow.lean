import Mathlib.Algebra.BigOperators.Group.List.Basic
import Mathlib.Algebra.Group.Basic
import Mathlib.Data.List.Induction
import Mathlib.Data.List.Rotate
import Mathlib.Tactic.Common

/- The last `n` entries of a sequence, the ring buffer that keeps them, and sums that follow
   them one entry in and one entry out. -/
namespace SlidingWindow
variable {α : Type}

/-- The last `n` entries of a sequence that starts with `n` times `d`, the oldest first. -/
def window (n : Nat) (d : α) (xs : List α) : List α := (List.replicate n d ++ xs).drop xs.length

@[simp] theorem window_length (n : Nat) (d : α) (xs : List α) : (window n d xs).length = n := by
  simp [window]

theorem window_snoc {n : Nat} (positive : 0 < n) (d : α) (xs : List α) (x : α) :
    window n d (xs ++ [x]) = (window n d xs).tail ++ [x] := by
  have inside : xs.length + 1 ≤ (List.replicate n d ++ xs).length := by
    simp
    omega
  rw [window, window, List.tail_drop, ← List.append_assoc, List.length_append,
    List.length_singleton, List.drop_append_of_le_length inside]

theorem window_full {n : Nat} {xs : List α} (full : n ≤ xs.length) (d : α) :
    window n d xs = xs.drop (xs.length - n) := by
  rw [window, List.drop_append, List.length_replicate, List.drop_eq_nil_of_le (by simpa using full),
    List.nil_append]

theorem mem_window_of_short {n : Nat} {xs : List α} (short : xs.length < n) (d : α) :
    d ∈ window n d xs := by
  rw [window, List.drop_append_of_le_length (by simpa using Nat.le_of_lt short)]
  apply List.mem_append_left
  rw [List.drop_replicate, List.mem_replicate]
  exact ⟨by omega, rfl⟩

/-- What follows the window in one step follows it along every sequence. -/
theorem follows_window {S : Type} {step : S → α → S} (Follows : S → List α → Prop) {n : Nat}
    (positive : 0 < n) {d : α} {s : S} (start : Follows s (List.replicate n d))
    (next : ∀ s w x, Follows s w → Follows (step s x) (w.tail ++ [x])) (xs : List α) :
    Follows (xs.foldl step s) (window n d xs) := by
  induction xs using List.reverseRecOn with
  | nil => simpa [window] using start
  | append_singleton xs x ih =>
    rw [List.foldl_append, window_snoc positive]
    exact next _ _ x ih

/-! The ring. -/

structure Ring (α : Type) (n : Nat) where
  cells : Vector α n
  head : Fin n

namespace Ring
variable {n : Nat}

def place (start : Fin n) (i : Nat) : Fin n := ⟨(start + i) % n, Nat.mod_lt _ start.pos⟩

/-- The entries from the head on; the one at the head is the oldest. -/
def get (r : Ring α n) (i : Nat) : α := r.cells[place r.head i]

def write (r : Ring α n) (x : α) : Ring α n := ⟨r.cells.set r.head x, place r.head 1⟩

def contents (r : Ring α n) : List α := List.ofFn fun i : Fin n => r.get i

def fill {n : Nat} (positive : 0 < n) (d : α) : Ring α n := ⟨Vector.replicate n d, ⟨0, positive⟩⟩

@[simp] theorem contents_length (r : Ring α n) : r.contents.length = n := List.length_ofFn

theorem contents_getElem (r : Ring α n) {i : Nat} (inside : i < r.contents.length) :
    r.contents[i] = r.get i := by
  simp [contents]

theorem contents_fill (positive : 0 < n) (d : α) :
    (fill positive d).contents = List.replicate n d := by
  apply List.ext_getElem
  · simp
  · intro i inside _
    rw [contents_getElem]
    simp [fill, get]

theorem place_place (start : Fin n) (i : Nat) : place (place start 1) i = place start (i + 1) := by
  apply Fin.ext
  change ((start + 1) % n + i) % n = (start + (i + 1)) % n
  rw [Nat.mod_add_mod, Nat.add_assoc, Nat.add_comm 1]

theorem place_val (start : Fin n) {i : Nat} (inside : i < n) :
    (start : Nat) = (place start (i + 1)).val ↔ i + 1 = n := by
  have low := start.isLt
  change (start : Nat) = (start + (i + 1)) % n ↔ i + 1 = n
  rcases Nat.lt_or_ge (start + (i + 1)) n with less | more
  · rw [Nat.mod_eq_of_lt less]
    omega
  · rw [Nat.mod_eq_sub_mod more, Nat.mod_eq_of_lt (by omega)]
    omega

theorem get_write (r : Ring α n) (x : α) {i : Nat} (inside : i < n) :
    (r.write x).get i = if i + 1 = n then x else r.get (i + 1) := by
  have index : (r.write x).get i = (r.cells.set r.head x)[(place r.head (i + 1)).val] :=
    congrArg (fun p : Fin n => (r.cells.set r.head x)[p]) (place_place r.head i)
  rw [index, Vector.getElem_set]
  by_cases last : i + 1 = n
  · rw [if_pos ((place_val r.head inside).mpr last), if_pos last]
  · rw [if_neg fun back => last ((place_val r.head inside).mp back), if_neg last]
    rfl

theorem contents_write (r : Ring α n) (x : α) :
    (r.write x).contents = r.contents.tail ++ [x] := by
  have positive := r.head.pos
  apply List.ext_getElem
  · simp
    omega
  · intro i inside _
    have within : i < n := by simpa using inside
    rw [contents_getElem, get_write r x within, List.getElem_append]
    by_cases last : i + 1 = n
    · have beyond : ¬ i < r.contents.tail.length := by
        simp
        omega
      rw [if_pos last, dif_neg beyond, List.getElem_singleton]
    · have early : i < r.contents.tail.length := by
        simp
        omega
      rw [if_neg last, dif_pos early, List.getElem_tail, contents_getElem]

theorem contents_cons (r : Ring α n) : r.contents = r.get 0 :: r.contents.tail := by
  have positive : 0 < r.contents.length := by
    rw [contents_length]
    exact r.head.pos
  rw [← contents_getElem r positive, List.getElem_zero_eq_head, List.cons_head_tail]

theorem contents_perm (r : Ring α n) : r.contents.Perm r.cells.toList := by
  have turned : r.contents = r.cells.toList.rotate r.head := by
    apply List.ext_getElem
    · simp
    · intro i inside _
      rw [contents_getElem, List.getElem_rotate]
      simp [get, place, Nat.add_comm]
  rw [turned]
  exact List.rotate_perm _ _

end Ring

/-! Sums over the window. -/

theorem map_slide {β : Type} (g : α → β) (w : List α) (x : α) :
    (w.map g).tail ++ [g x] = (w.tail ++ [x]).map g := by
  rw [List.map_append, List.map_tail, List.map_singleton]

theorem sum_slide {M : Type} [AddCommGroup M] (g : α → M) (old new : α) (l : List α) :
    ((l ++ [new]).map g).sum = ((old :: l).map g).sum - g old + g new := by
  simp

theorem countP_slide (p : α → Bool) (old new : α) (l : List α) :
    (l ++ [new]).countP p + (if p old then 1 else 0) =
      (old :: l).countP p + (if p new then 1 else 0) := by
  simp only [List.countP_append, List.countP_cons, List.countP_nil]
  omega

end SlidingWindow
