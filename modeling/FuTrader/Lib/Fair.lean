import FuTrader.Lib.Machine

/- Runs without end. A run is fair if no thread can go on for ever without going on, and
   then a rank that the threads bring down in turn comes to its end. -/
namespace Machine
variable {σ τ α ι : Type}

/-- At each time the machine takes an action or rests. -/
structure Forever (M : Machine σ α) where
  state : Nat → σ
  action : Nat → Option α
  first : state 0 = M.init
  rests : ∀ n, action n = none → state (n + 1) = state n
  moves : ∀ n a, action n = some a → M.step (state n) a = some (state (n + 1))

namespace Forever
variable {M : Machine σ α}

def history (w : M.Forever) : Nat → List (σ × α)
  | 0 => []
  | n + 1 => w.history n ++ ((w.action n).map fun a => (w.state n, a)).toList

theorem run (w : M.Forever) (n : Nat) : M.Run (w.history n) (w.state n) := by
  induction n with
  | zero =>
    rw [w.first]
    exact .start
  | succ n ih =>
    cases taken : w.action n with
    | none => simpa [history, taken, w.rests n taken] using ih
    | some a => simpa [history, taken] using ih.next (w.moves n a taken)

theorem history_prefix (w : M.Forever) {n m : Nat} (later : n ≤ m) :
    w.history n <+: w.history m := by
  induction later with
  | refl => exact List.prefix_rfl
  | step _ ih => exact ih.trans (List.prefix_append _ _)

def Enabled (M : Machine σ α) (thread : α → ι) (s : σ) (i : ι) : Prop :=
  ∃ a, thread a = i ∧ (M.step s a).isSome

/-- If the thread can go on at all times from one on, it does so at one of them. -/
def FairTo (w : M.Forever) (thread : α → ι) (i : ι) : Prop :=
  ∀ n, (∀ m, n ≤ m → Enabled M thread (w.state m) i) →
    ∃ m, n ≤ m ∧ ∃ a, w.action m = some a ∧ thread a = i

def Fair (w : M.Forever) (thread : α → ι) : Prop := ∀ i, w.FairTo thread i

theorem same_or_less (w : M.Forever) {thread : α → ι} {Goal : σ → Prop} {rank : σ → Nat}
    {helpful : σ → ι}
    (step : ∀ s a t, M.Reachable s → ¬ Goal s → M.step s a = some t → Goal t ∨ rank t < rank s ∨
      rank t = rank s ∧ helpful t = helpful s ∧ thread a ≠ helpful s)
    {n : Nat} (never : ∀ m, n ≤ m → ¬ Goal (w.state m)) {m : Nat} (later : n ≤ m) :
    (∃ k, n ≤ k ∧ rank (w.state k) < rank (w.state n)) ∨
      rank (w.state m) = rank (w.state n) ∧ helpful (w.state m) = helpful (w.state n) := by
  induction later with
  | refl => exact .inr ⟨rfl, rfl⟩
  | @step m later ih =>
    rcases ih with less | ⟨rank_same, helpful_same⟩
    · exact .inl less
    cases taken : w.action m with
    | none =>
      rw [w.rests m taken]
      exact .inr ⟨rank_same, helpful_same⟩
    | some a =>
      rcases step _ a _ (w.run m).reachable (never m later) (w.moves m a taken) with
        reached | less | ⟨rank_kept, helpful_kept, _⟩
      · exact absurd reached (never (m + 1) (Nat.le_succ_of_le later))
      · exact .inl ⟨m + 1, Nat.le_succ_of_le later, by omega⟩
      · exact .inr ⟨rank_kept.trans rank_same, helpful_kept.trans helpful_same⟩

/-- In a fair run the goal is reached if, short of it, one thread is able to bring a rank down
    and keeps this ability while other threads leave the rank as it is. -/
theorem reaches (w : M.Forever) {thread : α → ι} (Goal : σ → Prop) (rank : σ → Nat)
    (helpful : σ → ι) (fair : ∀ s, w.FairTo thread (helpful s))
    (able : ∀ s, M.Reachable s → ¬ Goal s → Enabled M thread s (helpful s))
    (step : ∀ s a t, M.Reachable s → ¬ Goal s → M.step s a = some t → Goal t ∨ rank t < rank s ∨
      rank t = rank s ∧ helpful t = helpful s ∧ thread a ≠ helpful s)
    (n : Nat) : ∃ m, n ≤ m ∧ Goal (w.state m) := by
  by_contra none
  have never : ∀ m, n ≤ m → ¬ Goal (w.state m) := fun m later reached => none ⟨m, later, reached⟩
  clear none
  induction below : rank (w.state n) using Nat.strongRecOn generalizing n with
  | ind r ih =>
    by_cases less : ∃ k, n ≤ k ∧ rank (w.state k) < rank (w.state n)
    · obtain ⟨k, later, less⟩ := less
      exact ih _ (below ▸ less) k (fun m from_k => never m (Nat.le_trans later from_k)) rfl
    · have same := fun {m} later => (w.same_or_less step never (m := m) later).resolve_left less
      obtain ⟨m, later, a, taken, acts⟩ := fair (w.state n) n fun m later =>
        (same later).2 ▸ able _ (w.run m).reachable (never m later)
      rcases step _ a _ (w.run m).reachable (never m later) (w.moves m a taken) with
        reached | lower | ⟨_, _, other⟩
      · exact never (m + 1) (Nat.le_succ_of_le later) reached
      · exact less ⟨m + 1, Nat.le_succ_of_le later, by rw [← (same later).1]; exact lower⟩
      · exact other (acts.trans (same later).2.symm)

theorem FairTo.acts {w : M.Forever} {thread : α → ι} {i : ι} (fair : w.FairTo thread i)
    (Holds : σ → Prop) {n : Nat} (now : Holds (w.state n))
    (able : ∀ s, M.Reachable s → Holds s → Enabled M thread s i)
    (keep : ∀ s a t, M.Reachable s → Holds s → M.step s a = some t → thread a ≠ i → Holds t) :
    ∃ m, n ≤ m ∧ Holds (w.state m) ∧ ∃ a, w.action m = some a ∧ thread a = i := by
  by_contra never
  have still : ∀ m, n ≤ m → Holds (w.state m) := by
    intro m later
    induction later with
    | refl => exact now
    | @step m later ih =>
      cases taken : w.action m with
      | none => rwa [w.rests m taken]
      | some a =>
        apply keep _ a _ (w.run m).reachable ih (w.moves m a taken)
        exact fun acts => never ⟨m, later, ih, a, taken, acts⟩
  obtain ⟨m, later, taken⟩ := fair n fun m later => able _ (w.run m).reachable (still m later)
  exact never ⟨m, later, still m later, taken⟩

/-- The goal is reached if what is seen of the state never stays as it is, and goes down
    whenever it changes. -/
theorem comes_down (w : M.Forever) (view : σ → τ) (Goal : τ → Prop) (rank : τ → Nat)
    (step : ∀ s a t, M.Reachable s → ¬ Goal (view s) → M.step s a = some t →
      view t = view s ∨ Goal (view t) ∨ rank (view t) < rank (view s))
    (leaves : ∀ n, ¬ Goal (view (w.state n)) →
      ∃ m, n ≤ m ∧ view (w.state m) ≠ view (w.state n))
    (n : Nat) : ∃ m, n ≤ m ∧ Goal (view (w.state m)) := by
  by_contra none
  have never : ∀ m, n ≤ m → ¬ Goal (view (w.state m)) :=
    fun m later reached => none ⟨m, later, reached⟩
  clear none
  induction below : rank (view (w.state n)) using Nat.strongRecOn generalizing n with
  | ind r ih =>
    have down : ∀ m, n ≤ m → view (w.state m) = view (w.state n) ∨
        rank (view (w.state m)) < rank (view (w.state n)) := by
      intro m later
      induction later with
      | refl => exact .inl rfl
      | @step m later known =>
        cases taken : w.action m with
        | none => rwa [w.rests m taken]
        | some a =>
          rcases step _ a _ (w.run m).reachable (never m later) (w.moves m a taken) with
            same | reached | less
          · rwa [same]
          · exact absurd reached (never (m + 1) (Nat.le_succ_of_le later))
          · rcases known with same | lower
            · exact .inr (same ▸ less)
            · exact .inr (Nat.lt_trans less lower)
    obtain ⟨m, later, changed⟩ := leaves n (never n (Nat.le_refl n))
    have less := (down m later).resolve_left changed
    exact ih _ (below ▸ less) m (fun k after => never k (Nat.le_trans later after)) rfl

/-! The history as a part of the state. -/

def recorded (M : Machine σ α) : Machine (List (σ × α) × σ) α where
  init := ([], M.init)
  step x a := (M.step x.2 a).map fun t => (x.1 ++ [(x.2, a)], t)

theorem recorded_run {k : List ((List (σ × α) × σ) × α)} {x : List (σ × α) × σ}
    (run : (recorded M).Run k x) : M.Run x.1 x.2 := by
  induction run with
  | start => exact .start
  | next run step ih =>
    obtain ⟨t, inner, rfl⟩ := Option.map_eq_some_iff.mp step
    exact ih.next inner

def withHistory (w : M.Forever) : (recorded M).Forever where
  state n := (w.history n, w.state n)
  action := w.action
  first := by rw [w.first]; rfl
  rests n rest := by simp [history, rest, w.rests n rest]
  moves n a taken := by simp [history, taken, recorded, w.moves n a taken]

theorem Enabled.recorded {thread : α → ι} {x : List (σ × α) × σ} {i : ι}
    (able : Enabled M thread x.2 i) : Enabled (recorded M) thread x i := by
  obtain ⟨a, acts, possible⟩ := able
  exact ⟨a, acts, by rwa [Forever.recorded, Option.isSome_map]⟩

theorem FairTo.withHistory {w : M.Forever} {thread : α → ι} {i : ι} (fair : w.FairTo thread i) :
    w.withHistory.FairTo thread i := by
  intro n able
  apply fair n
  intro m later
  obtain ⟨a, same, possible⟩ := able m later
  exact ⟨a, same, by simpa [recorded, Forever.withHistory] using possible⟩

/-! A run as the image of another one. -/

def lifted (N : Machine τ α) (w : M.Forever) : Nat → τ
  | 0 => N.init
  | n + 1 => match w.action n with
    | none => lifted N w n
    | some a => (N.step (lifted N w n) a).getD (lifted N w n)

section
variable {N : Machine τ α} {f : τ → σ}

theorem lifted_run (init : M.init = f N.init)
    (sim : ∀ t a, N.Reachable t → M.step (f t) a = (N.step t a).map f) (w : M.Forever) (n : Nat) :
    N.Reachable (lifted N w n) ∧ w.state n = f (lifted N w n) := by
  induction n with
  | zero => exact ⟨N.reachable_init, w.first.trans init⟩
  | succ n ih =>
    obtain ⟨reach, same⟩ := ih
    cases taken : w.action n with
    | none =>
      rw [lifted, taken, w.rests n taken]
      exact ⟨reach, same⟩
    | some a =>
      have moved := w.moves n a taken
      rw [same, sim _ a reach] at moved
      obtain ⟨t, step, next⟩ := Option.map_eq_some_iff.mp moved
      simp only [lifted, taken, step, Option.getD_some]
      exact ⟨reach.next step, next.symm⟩

def lift (init : M.init = f N.init)
    (sim : ∀ t a, N.Reachable t → M.step (f t) a = (N.step t a).map f) (w : M.Forever) :
    N.Forever where
  state := lifted N w
  action := w.action
  first := rfl
  rests n rest := by rw [lifted, rest]
  moves n a taken := by
    obtain ⟨reach, same⟩ := lifted_run init sim w n
    have moved := w.moves n a taken
    rw [same, sim _ a reach] at moved
    obtain ⟨t, step, _⟩ := Option.map_eq_some_iff.mp moved
    simp only [lifted, taken, step, Option.getD_some]

variable {init : M.init = f N.init}
  {sim : ∀ t a, N.Reachable t → M.step (f t) a = (N.step t a).map f} {w : M.Forever}

theorem lift_history (n : Nat) :
    w.history n = ((w.lift init sim).history n).map (Prod.map f id) := by
  induction n with
  | zero => rfl
  | succ n ih =>
    have same := (lifted_run init sim w n).2
    cases taken : w.action n with
    | none => simpa [history, taken, lift] using ih
    | some a => simpa [history, taken, lift, same] using ih

theorem FairTo.lift {thread : α → ι} {i : ι} (fair : w.FairTo thread i) :
    (w.lift init sim).FairTo thread i := by
  intro n able
  apply fair n
  intro m later
  obtain ⟨a, acts, possible⟩ := able m later
  obtain ⟨reach, same⟩ := lifted_run init sim w m
  refine ⟨a, acts, ?_⟩
  rw [same, sim _ a reach, Option.isSome_map]
  exact possible

end

/-! The part of a run that a component sees. -/

section
variable {β : Type} {N : Machine τ β}

def component (view : σ → τ) (act : σ → α → Option β) (init : view M.init = N.init)
    (moves : ∀ s a t b, M.step s a = some t → act s a = some b →
      N.step (view s) b = some (view t))
    (rests : ∀ s a t, M.step s a = some t → act s a = none → view t = view s)
    (w : M.Forever) : N.Forever where
  state n := view (w.state n)
  action n := (w.action n).bind (act (w.state n))
  first := by rw [w.first, init]
  rests n passed := by
    cases taken : w.action n with
    | none => rw [w.rests n taken]
    | some a =>
      rw [taken] at passed
      exact rests _ a _ (w.moves n a taken) passed
  moves n b acts := by
    obtain ⟨a, taken, acts⟩ := Option.bind_eq_some_iff.mp acts
    exact moves _ a _ b (w.moves n a taken) acts

theorem component_history {view : σ → τ} {act : σ → α → Option β} {init : view M.init = N.init}
    {moves : ∀ s a t b, M.step s a = some t → act s a = some b →
      N.step (view s) b = some (view t)}
    {rests : ∀ s a t, M.step s a = some t → act s a = none → view t = view s}
    (w : M.Forever) (n : Nat) :
    (w.component view act init moves rests).history n = partOf view act (w.history n) := by
  induction n with
  | zero => rfl
  | succ n ih =>
    cases taken : w.action n with
    | none => simpa [history, taken, component] using ih
    | some a =>
      have snoc := log_snoc (fun s a => (act s a).map fun b => (view s, b)) (w.history n)
        (w.state n) a
      simp only [history, taken, Option.map_some, Option.toList_some, partOf, snoc]
      rw [← partOf, ← ih]
      simp [component, taken]

end

/-! A schedule without end: an action that is not possible is passed over. -/

def scheduled (M : Machine σ α) (schedule : Nat → σ → α) : Nat → σ
  | 0 => M.init
  | n + 1 =>
    let s := scheduled M schedule n
    (M.step s (schedule n s)).getD s

def ofSchedule (M : Machine σ α) (schedule : Nat → σ → α) : M.Forever where
  state := scheduled M schedule
  action n :=
    let s := scheduled M schedule n
    (M.step s (schedule n s)).map fun _ => schedule n s
  first := rfl
  rests n passed := by
    rw [Option.map_eq_none_iff] at passed
    rw [scheduled, passed, Option.getD_none]
  moves n a taken := by
    obtain ⟨t, step, rfl⟩ := Option.map_eq_some_iff.mp taken
    rw [scheduled, step, Option.getD_some]

theorem ofSchedule_fairTo {schedule : Nat → σ → α} {thread : α → ι} {i : ι}
    (again : ∀ n, ∃ m, n ≤ m ∧ ∀ s, thread (schedule m s) = i ∧
      (Enabled M thread s i → (M.step s (schedule m s)).isSome)) :
    (ofSchedule M schedule).FairTo thread i := by
  intro n able
  obtain ⟨m, later, turn⟩ := again n
  obtain ⟨acts, possible⟩ := turn (scheduled M schedule m)
  obtain ⟨t, step⟩ := Option.isSome_iff_exists.mp (possible (able m later))
  exact ⟨m, later, _, by simp only [ofSchedule, step, Option.map_some], acts⟩

theorem ofSchedule_fairTo_only {schedule : Nat → σ → α} {thread : α → ι} {i : ι} {a : α}
    (acts : thread a = i) (only : ∀ b, thread b = i → b = a)
    (again : ∀ n, ∃ m, n ≤ m ∧ ∀ s, schedule m s = a) :
    (ofSchedule M schedule).FairTo thread i := by
  apply ofSchedule_fairTo
  intro n
  obtain ⟨m, later, turn⟩ := again n
  refine ⟨m, later, fun s => ⟨by rw [turn]; exact acts, ?_⟩⟩
  rintro ⟨b, same, possible⟩
  rwa [turn, ← only b same]

end Forever
end Machine
