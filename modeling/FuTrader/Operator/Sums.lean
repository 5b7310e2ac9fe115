import FuTrader.Operator.Exact

/- The rolling sum is the sum of the last `n` values, whatever was missing before them. -/
namespace Rolling
open FuTrader SlidingWindow Exact
variable {n : Nat}

structure LastReals (n : Nat) (xs : List Exact) (ps : List ℝ) : Prop where
  length : ps.length = n
  suffix : ps.map real <:+ xs

theorem LastReals.window {xs : List Exact} {ps : List ℝ} (last : LastReals n xs ps) :
    window n missing xs = ps.map real := by
  obtain ⟨before, rfl⟩ := last.suffix
  have many : n ≤ (before ++ ps.map real).length := by
    rw [List.length_append, List.length_map, last.length]
    omega
  rw [window_full many, List.length_append, List.length_map, last.length, Nat.add_sub_cancel,
    List.drop_left]

theorem missing_or_lastReals (n : Nat) (xs : List Exact) :
    missing ∈ window n missing xs ∨ ∃ ps, LastReals n xs ps := by
  by_cases many : n ≤ xs.length
  · cases known : reals (window n missing xs) with
    | none => exact .inl (reals_eq_none.mp known)
    | some ps =>
      have same := reals_eq_some.mp known
      have length := congrArg List.length same
      rw [window_length, List.length_map] at length
      rw [window_full many] at same
      exact .inr ⟨ps, length.symm, same ▸ List.drop_suffix _ _⟩
  · exact .inl (mem_window_of_short (by omega) missing)

theorem missing_of_not {xs : List Exact} (no : ¬ ∃ ps, LastReals n xs ps) :
    missing ∈ window n missing xs := (missing_or_lastReals n xs).resolve_right no

theorem Sumer.follows_fed (positive : 0 < n) (xs : List Exact) :
    (fed Sumer.update (Sumer.new positive) xs).Follows (window n missing xs) :=
  follows_window Sumer.Follows positive (Sumer.follows_new positive)
    (fun _ _ x follows => follows.update x) xs

theorem Sumer.Follows.buffer {s : Sumer Exact n} {w : List Exact} (follows : s.Follows w) :
    s.nanCount = s.container.buf.toList.countP fun x => nanOrInf x := by
  have same : (fun x : Exact => nanOrInf x) = isMissing := funext nanOrInf_isMissing
  rw [follows.nanCount, ← follows.ring, same]
  exact (Ring.contents_perm s.container.ring).countP_eq isMissing

theorem Sumer.Follows.counted {s : Sumer Exact n} {w : List Exact} (follows : s.Follows w)
    (gone : nanOrInf s.container.head = true) : 0 < s.nanCount := by
  rw [nanOrInf_isMissing, head_ring] at gone
  rw [follows.nanCount, ← follows.ring, s.container.ring.contents_cons,
    List.countP_cons_of_pos gone]
  omega

/-- The sum of the last `n` values, NaN when one of them is missing; and the count of the
    missing ones, never below zero. -/
theorem sumer_sums (positive : 0 < n) (xs : List Exact) :
    let s := fed Sumer.update (Sumer.new positive) xs
    (∀ x ps, LastReals n (xs ++ [x]) ps → (s.update x).1 = real ps.sum) ∧
      (∀ x, (¬ ∃ ps, LastReals n (xs ++ [x]) ps) → (s.update x).1 = CMath.NAN) ∧
      (s.nanCount = s.container.buf.toList.countP fun x => nanOrInf x) ∧
      (nanOrInf s.container.head = true → 0 < s.nanCount) := by
  intro s
  have follows := Sumer.follows_fed positive xs
  refine ⟨?_, ?_, follows.buffer, follows.counted⟩
  · intro x ps last
    have finite := last.window
    rw [window_snoc positive] at finite
    rw [follows.value, finite, total_real]
  · intro x no
    have member := missing_of_not no
    rw [window_snoc positive] at member
    rw [follows.value, total_missing member]
    rfl

theorem sum_recovered :
    ((fed Sumer.update (Sumer.new Nat.two_pos) [missing, real 1]).update (real 0)).1 = real 1 := by
  have last : LastReals 2 ([missing, real 1] ++ [real 0]) [1, 0] := ⟨rfl, [missing], rfl⟩
  rw [(sumer_sums Nat.two_pos [missing, real 1]).1 (real 0) [1, 0] last]
  simp

end Rolling
