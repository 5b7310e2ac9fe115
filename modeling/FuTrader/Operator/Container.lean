import FuTrader.Operator.Exact

/- The container is a window: it has the last `n` values, NaN where there were none yet, and
   its head is the one that goes next. -/
namespace Rolling
open FuTrader SlidingWindow Exact
variable {F : Type} {n : Nat}

def Container.after (c : Container F n) (xs : List F) : Container F n := xs.foldl Container.update c

theorem after_snoc (c : Container F n) (xs : List F) (x : F) :
    c.after (xs ++ [x]) = (c.after xs).update x := by
  simp [Container.after]

theorem tail_update (c : Container F n) (x : F) : (c.update x).tail = x := by
  simp [Container.update, Container.tail]

theorem get_update_last (c : Container F n) (x : F) : (c.update x).get (n - 1) = x := by
  have positive := c.headIdx.pos
  have last := Ring.get_write c.ring x (by omega : n - 1 < n)
  rw [if_pos (by omega)] at last
  exact last

theorem contents_update (c : Container F n) (x : F) :
    c.ring.contents = c.head :: (c.update x).ring.contents.dropLast := by
  have written : (c.update x).ring.contents = c.ring.contents.tail ++ [x] :=
    Ring.contents_write c.ring x
  rw [written, List.dropLast_concat, head_ring, ← Ring.contents_cons]

variable [CMath F]

structure Container.Holds (c : Container F n) (xs : List F) : Prop where
  get : ∀ i, i < n → (window n CMath.NAN xs)[i]? = some (c.get i)
  head : c.head = c.get 0
  evicts : ∀ x, c.ring.contents = c.head :: (c.update x).ring.contents.dropLast
  tail : ∀ before x, xs = before ++ [x] → c.tail = c.get (n - 1) ∧ c.tail = x
  headIdx : c.headIdx.val < n ∧ c.headIdx.val = xs.length % n
  tailIdx : c.tailIdx.val < n ∧ c.tailIdx.val = (xs.length - 1) % n

theorem contents_after (positive : 0 < n) (xs : List F) :
    ((Container.new positive).after xs).ring.contents = window n CMath.NAN xs := by
  apply follows_window (fun (c : Container F n) w => c.ring.contents = w) positive
  · exact Ring.contents_fill positive CMath.NAN
  · rintro c _ x rfl
    exact Ring.contents_write c.ring x

theorem headIdx_after (positive : 0 < n) (xs : List F) :
    ((Container.new positive).after xs).headIdx.val = xs.length % n := by
  induction xs using List.reverseRecOn with
  | nil => exact (Nat.zero_mod n).symm
  | append_singleton xs x ih =>
    rw [after_snoc, List.length_append, List.length_singleton]
    change (((Container.new positive).after xs).headIdx.val + 1) % n = _
    rw [ih, Nat.mod_add_mod]

theorem tailIdx_after (positive : 0 < n) (xs : List F) :
    ((Container.new positive).after xs).tailIdx.val = (xs.length - 1) % n := by
  rcases List.eq_nil_or_concat xs with rfl | ⟨before, x, rfl⟩
  · exact (Nat.zero_mod n).symm
  · rw [List.concat_eq_append, after_snoc, List.length_append, List.length_singleton,
      Nat.add_sub_cancel]
    exact headIdx_after positive before

/-- The container is the window of the last `n` values. -/
theorem container_window (positive : 0 < n) (xs : List F) :
    ((Container.new positive).after xs).Holds xs := by
  constructor
  · intro i inside
    rw [← contents_after positive xs, List.getElem?_eq_getElem (by simpa using inside),
      Ring.contents_getElem]
    rfl
  · exact head_ring _
  · exact contents_update _
  · rintro before x rfl
    rw [after_snoc, tail_update, get_update_last]
    exact ⟨rfl, rfl⟩
  · exact ⟨Fin.isLt _, headIdx_after positive xs⟩
  · exact ⟨Fin.isLt _, tailIdx_after positive xs⟩

theorem container_three :
    ((Container.new Nat.two_pos).after [real 1, missing, real 0]).head = missing ∧
      ((Container.new Nat.two_pos).after [real 1, missing, real 0]).tail = real 0 := by
  have holds := container_window Nat.two_pos [real 1, missing, real 0]
  constructor
  · rw [holds.head]
    exact (Option.some.inj (holds.get 0 Nat.two_pos)).symm
  · exact (holds.tail [real 1, missing] (real 0) rfl).2

end Rolling
