import Mathlib.Algebra.BigOperators.Group.Finset.Basic
import Mathlib.Algebra.Order.BigOperators.Group.Finset
import Mathlib.Algebra.Order.Group.Multiset
import Mathlib.Data.Fintype.BigOperators

/- Streams merged into one log, which tells where each value came from. Every stream ends in
   a marker, and once a beginning of the log has all the markers it has all the values. -/
namespace Merged
variable {ι T : Type} [DecidableEq ι]

def ofSource (i : ι) (log : List (ι × T)) : List T :=
  log.filterMap fun x => if x.1 = i then some x.2 else none

theorem ofSource_mono {log more : List (ι × T)} (i : ι) (longer : log <+: more) :
    ofSource i log <+: ofSource i more := longer.filterMap _

theorem sum_ofSource [Fintype ι] (log : List (ι × T)) :
    ∑ i, (ofSource i log : Multiset T) = log.map Prod.snd := by
  induction log with
  | nil => simp [ofSource]
  | cons x rest ih =>
    have one : ∀ i, (ofSource i (x :: rest) : Multiset T) =
        (if x.1 = i then {x.2} else 0) + (ofSource i rest : Multiset T) := by
      intro i
      by_cases same : x.1 = i
      · simp only [ofSource, List.filterMap_cons, same, if_true]
        rfl
      · simp [ofSource, same]
    simp [one, Finset.sum_add_distrib, ih]

section markers
variable {stop : T}

theorem whole_of_marker {body part : List T} (unmarked : stop ∉ body)
    (beginning : part <+: body ++ [stop]) (marked : stop ∈ part) : part = body ++ [stop] := by
  obtain ⟨rest, split⟩ := beginning
  rcases List.eq_nil_or_concat rest with rfl | ⟨others, last, rfl⟩
  · simpa using split
  · rw [List.concat_eq_append, ← List.append_assoc] at split
    have short := (List.append_inj' split rfl).1
    exact absurd (short ▸ List.mem_append_left others marked) unmarked

variable [DecidableEq T]

theorem count_le_one {body part : List T} (unmarked : stop ∉ body)
    (beginning : part <+: body ++ [stop]) : part.count stop ≤ 1 := by
  have within := beginning.sublist.count_le stop
  rwa [List.count_append, List.count_eq_zero.mpr unmarked, List.count_singleton_self] at within

variable [Fintype ι]

theorem sum_count (log : List (ι × T)) :
    ∑ i, (ofSource i log).count stop = (log.map Prod.snd).count stop := by
  have total := congrArg (Multiset.count stop) (sum_ofSource log)
  simpa only [Multiset.count_sum', Multiset.coe_count] using total

variable {body : ι → List T} {log early : List (ι × T)}

theorem streams_complete (unmarked : ∀ i, stop ∉ body i)
    (within : ∀ i, ofSource i log <+: body i ++ [stop])
    (marked : Fintype.card ι ≤ (log.map Prod.snd).count stop) (i : ι) :
    ofSource i log = body i ++ [stop] := by
  have atMost : ∀ i ∈ Finset.univ, (ofSource i log).count stop ≤ 1 :=
    fun i _ => count_le_one (unmarked i) (within i)
  have total : ∑ i, (ofSource i log).count stop = ∑ _i : ι, 1 := by
    apply Nat.le_antisymm (Finset.sum_le_sum atMost)
    rwa [sum_count, Finset.sum_const, Finset.card_univ, Nat.nsmul_eq_mul, mul_one]
  have one := (Finset.sum_eq_sum_iff_of_le atMost).mp total i (Finset.mem_univ i)
  exact whole_of_marker (unmarked i) (within i) (List.count_pos_iff.mp (by omega))

/-- A beginning of the log with all the markers is the log, and has the values of all streams. -/
theorem early_complete (unmarked : ∀ i, stop ∉ body i)
    (within : ∀ i, ofSource i log <+: body i ++ [stop]) (beginning : early <+: log)
    (marked : Fintype.card ι ≤ (early.map Prod.snd).count stop) :
    early = log ∧ ((early.map Prod.snd : List T) : Multiset T) =
      ∑ i, (body i : Multiset T) + Multiset.replicate (Fintype.card ι) stop := by
  have whole := streams_complete unmarked
    (fun i => (ofSource_mono i beginning).trans (within i)) marked
  have all : ∀ i, ofSource i log = ofSource i early := by
    intro i
    have longer := (ofSource_mono i beginning).length_le
    have shorter := (within i).length_le
    rw [← whole i] at shorter
    exact ((ofSource_mono i beginning).eq_of_length_le shorter).symm
  have same : (log.map Prod.snd).length = (early.map Prod.snd).length := by
    have values := sum_ofSource log
    rw [Finset.sum_congr rfl fun i _ => congrArg _ (all i), sum_ofSource early] at values
    exact congrArg Multiset.card values.symm
  refine ⟨beginning.eq_of_length (by simpa using same.symm), ?_⟩
  rw [← sum_ofSource, Finset.sum_congr rfl fun i _ => congrArg _ (whole i)]
  simp only [← Multiset.coe_add, Finset.sum_add_distrib]
  congr 1
  rw [Finset.sum_const, Finset.card_univ, Multiset.coe_singleton, Multiset.nsmul_singleton]

end markers
end Merged
