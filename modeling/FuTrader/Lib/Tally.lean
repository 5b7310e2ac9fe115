import Mathlib.Algebra.BigOperators.Group.Finset.Basic
import Mathlib.Algebra.Order.Group.Multiset
import Mathlib.Data.Fintype.BigOperators

/- Totals over a finite family when one member changes. -/
namespace Tally
variable {ι M : Type} [Fintype ι] [DecidableEq ι] [AddCommMonoid M]

theorem sum_update (f : ι → M) (i : ι) (x : M) :
    ∑ j, Function.update f i x j + f i = ∑ j, f j + x := by
  rw [← Finset.add_sum_erase _ _ (Finset.mem_univ i),
    ← Finset.add_sum_erase _ f (Finset.mem_univ i), Function.update_self]
  have others : ∑ j ∈ Finset.univ.erase i, Function.update f i x j =
      ∑ j ∈ Finset.univ.erase i, f j :=
    Finset.sum_congr rfl fun j member => Function.update_of_ne (Finset.ne_of_mem_erase member) _ _
  rw [others, add_assoc, add_comm (f i), add_comm x]

theorem sum_gain {f : ι → M} {i : ι} (zero : f i = 0) (x : M) :
    ∑ j, Function.update f i x j = ∑ j, f j + x := by
  have total := sum_update f i x
  rwa [zero, add_zero] at total

theorem sum_lose (f : ι → M) (i : ι) : ∑ j, Function.update f i 0 j + f i = ∑ j, f j := by
  have total := sum_update f i 0
  rwa [add_zero] at total

theorem sum_same {f : ι → M} {i : ι} {x : M} (same : x = f i) :
    ∑ j, Function.update f i x j = ∑ j, f j := by
  rw [same, Function.update_eq_self]

end Tally
