import Mathlib.Data.List.Basic
import Mathlib.Data.List.Induction
import Mathlib.Logic.Relation
import Mathlib.Tactic.Common

/- Step machines: a first state and, for each action, at most one next state.
   A run keeps its whole history, so that what was observed along it and what
   held at each of its steps are functions of the run itself. -/
structure Machine (σ α : Type) where
  init : σ
  step : σ → α → Option σ

namespace Machine
variable {σ α τ β ε : Type}

/-- `Run h s`: the machine is in `s` after the steps of `h`, oldest first,
    each given by the state before it and its action. -/
inductive Run (M : Machine σ α) : List (σ × α) → σ → Prop where
  | start : Run M [] M.init
  | next {h : List (σ × α)} {s t : σ} {a : α}
      (run : Run M h s) (step : M.step s a = some t) : Run M (h ++ [(s, a)]) t

def Reachable (M : Machine σ α) (s : σ) : Prop := ∃ h, M.Run h s

def log (f : σ → α → Option ε) (h : List (σ × α)) : List ε := h.filterMap fun x => f x.1 x.2

@[simp] theorem log_nil (f : σ → α → Option ε) : log f [] = [] := rfl

theorem log_snoc (f : σ → α → Option ε) (h : List (σ × α)) (s : σ) (a : α) :
    log f (h ++ [(s, a)]) = log f h ++ (f s a).toList := by
  cases seen : f s a <;> simp [log, List.filterMap_append, seen]

theorem log_map (f : σ → α → Option ε) (g : τ → σ) (h : List (τ × α)) :
    log f (h.map (Prod.map g id)) = log (fun t a => f (g t) a) h := by
  simp only [log, List.filterMap_map]
  rfl

theorem log_map_value (f : σ → α → Option ε) (g : ε → β) (h : List (σ × α)) :
    (log f h).map g = log (fun s a => (f s a).map g) h := List.map_filterMap

theorem log_filterMap (f : σ → α → Option ε) (g : ε → Option β) (h : List (σ × α)) :
    (log f h).filterMap g = log (fun s a => (f s a).bind g) h := List.filterMap_filterMap ..

theorem log_congr {f g : σ → α → Option ε} {h : List (σ × α)}
    (same : ∀ x ∈ h, f x.1 x.2 = g x.1 x.2) : log f h = log g h := List.filterMap_congr same

theorem reachable_init (M : Machine σ α) : M.Reachable M.init := ⟨[], .start⟩

theorem Run.reachable {M : Machine σ α} {h : List (σ × α)} {s : σ} (run : M.Run h s) :
    M.Reachable s := ⟨h, run⟩

theorem Reachable.next {M : Machine σ α} {s t : σ} {a : α}
    (reach : M.Reachable s) (step : M.step s a = some t) : M.Reachable t := by
  obtain ⟨h, run⟩ := reach
  exact ⟨_, run.next step⟩

theorem Run.invariant {M : Machine σ α} (I : List (σ × α) → σ → Prop)
    (base : I [] M.init)
    (keep : ∀ h s a t, M.Run h s → I h s → M.step s a = some t → I (h ++ [(s, a)]) t)
    {h : List (σ × α)} {s : σ} (run : M.Run h s) : I h s := by
  induction run with
  | start => exact base
  | next run step ih => exact keep _ _ _ _ run ih step

theorem Reachable.invariant {M : Machine σ α} (I : σ → Prop) (base : I M.init)
    (keep : ∀ s a t, M.Reachable s → I s → M.step s a = some t → I t)
    {s : σ} (reach : M.Reachable s) : I s := by
  obtain ⟨h, run⟩ := reach
  exact run.invariant (fun _ s => I s) base fun _ s a t run => keep s a t run.reachable

theorem Run.before {M : Machine σ α} {h : List (σ × α)} {s : σ} (run : M.Run h s)
    {x : σ × α} (member : x ∈ h) : M.Reachable x.1 := by
  induction run with
  | start => simp at member
  | next run step ih =>
    rcases List.mem_append.mp member with earlier | last
    · exact ih earlier
    · rw [List.mem_singleton.mp last]
      exact run.reachable

theorem Run.visited {M : Machine σ α} {h : List (σ × α)} {s t : σ} (run : M.Run h s)
    (member : t ∈ h.map Prod.fst ++ [s]) : M.Reachable t := by
  rcases List.mem_append.mp member with earlier | last
  · obtain ⟨x, among, rfl⟩ := List.mem_map.mp earlier
    exact run.before among
  · rw [List.mem_singleton.mp last]
    exact run.reachable

theorem Run.last {M : Machine σ α} {h : List (σ × α)} {x : σ × α} {s : σ}
    (run : M.Run (h ++ [x]) s) : M.Run h x.1 ∧ M.step x.1 x.2 = some s := by
  generalize split : h ++ [x] = k at run
  cases run with
  | start => simp at split
  | next run step =>
    obtain ⟨rfl, same⟩ := List.append_inj' split rfl
    cases same
    exact ⟨run, step⟩

theorem Run.upto {M : Machine σ α} {earlier later : List (σ × α)} {x : σ × α} {s : σ}
    (run : M.Run (earlier ++ x :: later) s) :
    M.Run earlier x.1 ∧ ∃ t, M.step x.1 x.2 = some t := by
  induction later using List.reverseRecOn generalizing s with
  | nil =>
    obtain ⟨before, step⟩ := run.last
    exact ⟨before, s, step⟩
  | append_singleton later y ih =>
    rw [← List.cons_append, ← List.append_assoc] at run
    exact ih run.last.1

/-- What holds after one step of a run and is kept by every later one. -/
theorem Run.since {M : Machine σ α} {earlier later : List (σ × α)} {x : σ × α} {s : σ}
    (I : List (σ × α) → σ → Prop) (base : ∀ t, M.step x.1 x.2 = some t → I [] t)
    (keep : ∀ k s a t, M.Reachable s → I k s → M.step s a = some t → I (k ++ [(s, a)]) t)
    (run : M.Run (earlier ++ x :: later) s) : I later s := by
  induction later using List.reverseRecOn generalizing s with
  | nil => exact base s run.last.2
  | append_singleton later y ih =>
    rw [← List.cons_append, ← List.append_assoc] at run
    obtain ⟨before, step⟩ := run.last
    exact keep later y.1 y.2 s before.reachable (ih before) step

theorem Run.stepped {M : Machine σ α} {h : List (σ × α)} {s : σ} (run : M.Run h s)
    {x : σ × α} (member : x ∈ h) : ∃ t, M.step x.1 x.2 = some t := by
  obtain ⟨earlier, later, rfl⟩ := List.append_of_mem member
  exact run.upto.2

theorem Run.steps_iff {M : Machine σ α} {A B : σ → α → Prop}
    (same : ∀ s a t, M.Reachable s → M.step s a = some t → (A s a ↔ B s a))
    {h : List (σ × α)} {s : σ} (run : M.Run h s) :
    (∀ x ∈ h, A x.1 x.2) ↔ ∀ x ∈ h, B x.1 x.2 := by
  apply forall₂_congr
  intro x member
  obtain ⟨t, step⟩ := run.stepped member
  exact same x.1 x.2 t (run.before member) step

/-- Where a step keeps `Ok` just in case it meets a condition, a run is `Ok` throughout just
    in case all of its steps meet it. -/
theorem Run.throughout_iff {M : Machine σ α} (Ok : σ → Prop) (Meets : σ → α → Prop)
    (base : Ok M.init)
    (keep : ∀ s a t, M.Reachable s → Ok s → M.step s a = some t → (Ok t ↔ Meets s a))
    {h : List (σ × α)} {s : σ} (run : M.Run h s) :
    (∀ t ∈ h.map Prod.fst ++ [s], Ok t) ↔ ∀ x ∈ h, Meets x.1 x.2 := by
  induction run with
  | start => simpa using base
  | @next h s t a run step ih =>
    have steps : (∀ x ∈ h ++ [(s, a)], Meets x.1 x.2) ↔
        (∀ x ∈ h, Meets x.1 x.2) ∧ Meets s a := by
      simp only [List.forall_mem_append, List.forall_mem_singleton]
    have states : (∀ u ∈ (h ++ [(s, a)]).map Prod.fst ++ [t], Ok u) ↔
        (∀ u ∈ h.map Prod.fst ++ [s], Ok u) ∧ Ok t := by
      rw [List.map_append, List.forall_mem_append, List.forall_mem_singleton]
      rfl
    rw [steps, states, ← ih]
    apply and_congr_right
    intro visited
    exact keep s a t run.reachable (visited s (by simp)) step

/-! Schedules: a list of actions run from a state. -/

def exec (M : Machine σ α) : σ → List α → Option σ
  | s, [] => some s
  | s, a :: as => (M.step s a).bind fun t => exec M t as

def steps (M : Machine σ α) : σ → List α → List (σ × α)
  | _, [] => []
  | s, a :: as => match M.step s a with
    | none => []
    | some t => (s, a) :: steps M t as

theorem exec_cons {M : Machine σ α} {s t : σ} {a : α} (as : List α)
    (step : M.step s a = some t) : M.exec s (a :: as) = M.exec t as := by
  simp [exec, step]

theorem steps_cons {M : Machine σ α} {s t : σ} {a : α} (as : List α)
    (step : M.step s a = some t) : M.steps s (a :: as) = (s, a) :: M.steps t as := by
  simp [steps, step]

theorem Run.extend {M : Machine σ α} {h : List (σ × α)} {s t : σ} {as : List α}
    (run : M.Run h s) (ran : M.exec s as = some t) : M.Run (h ++ M.steps s as) t := by
  induction as generalizing h s with
  | nil =>
    cases ran
    simpa [steps] using run
  | cons a as ih =>
    obtain ⟨u, step, rest⟩ := Option.bind_eq_some_iff.mp ran
    rw [steps_cons as step, List.append_cons]
    exact ih (run.next step) rest

theorem run_exec {M : Machine σ α} {t : σ} {as : List α} (ran : M.exec M.init as = some t) :
    M.Run (M.steps M.init as) t := by
  simpa using Run.extend .start ran

theorem run_get {M : Machine σ α} {as : List α} (ran : (M.exec M.init as).isSome = true) :
    M.Run (M.steps M.init as) ((M.exec M.init as).get ran) :=
  run_exec (Option.some_get ran).symm

theorem run_around {M : Machine σ α} {before after : List α} {a : α}
    (first : (M.exec M.init before).isSome = true)
    (step : (M.step ((M.exec M.init before).get first) a).isSome = true)
    (last : (M.exec ((M.step ((M.exec M.init before).get first) a).get step) after).isSome = true) :
    let u := (M.exec M.init before).get first
    let v := (M.step u a).get step
    M.Run (M.steps M.init before ++ (u, a) :: M.steps v after) ((M.exec v after).get last) := by
  intro u v
  have taken : M.step u a = some v := (Option.some_get step).symm
  have ran : M.exec u (a :: after) = some ((M.exec v after).get last) := by
    rw [exec_cons after taken, Option.some_get]
  have run := (run_get first).extend ran
  rwa [steps_cons after taken] at run

theorem exec_append {M : Machine σ α} {s t : σ} {as bs : List α}
    (ran : M.exec s as = some t) : M.exec s (as ++ bs) = M.exec t bs := by
  induction as generalizing s with
  | nil => cases ran; rfl
  | cons a as ih =>
    obtain ⟨u, step, rest⟩ := Option.bind_eq_some_iff.mp ran
    rw [List.cons_append, exec_cons _ step, ih rest]

def Leads (M : Machine σ α) : σ → σ → Prop :=
  Relation.ReflTransGen fun s t => ∃ a, M.step s a = some t

theorem Leads.of_exec {M : Machine σ α} {s t : σ} {as : List α} (ran : M.exec s as = some t) :
    M.Leads s t := by
  induction as generalizing s with
  | nil => cases ran; exact .refl
  | cons a as ih =>
    obtain ⟨u, step, rest⟩ := Option.bind_eq_some_iff.mp ran
    exact .head ⟨a, step⟩ (ih rest)

theorem Reachable.leads {M : Machine σ α} {s t : σ} (reach : M.Reachable s)
    (path : M.Leads s t) : M.Reachable t := by
  induction path with
  | refl => exact reach
  | tail _ step ih => exact ih.next step.choose_spec

/-- A loop: state `f j` leads to state `f (j + 1)` in every round. -/
theorem leads_rounds {M : Machine σ α} (f : Nat → σ) (n : Nat)
    (round : ∀ j, j < n → M.Leads (f j) (f (j + 1))) : M.Leads (f 0) (f n) := by
  induction n with
  | zero => exact .refl
  | succ n ih => exact (ih fun j less => round j (by omega)).trans (round n (by omega))

/-! The same machine with fewer steps. -/

def restrict (M : Machine σ α) (guard : α → Bool) : Machine σ α where
  init := M.init
  step s a := if guard a then M.step s a else none

theorem restrict_step {M : Machine σ α} {guard : α → Bool} {s t : σ} {a : α} :
    (M.restrict guard).step s a = some t ↔ guard a = true ∧ M.step s a = some t := by
  simp [restrict]

theorem exec_restrict {M : Machine σ α} {guard : α → Bool} {as : List α}
    (allowed : ∀ a ∈ as, guard a = true) (s : σ) : (M.restrict guard).exec s as = M.exec s as := by
  induction as generalizing s with
  | nil => rfl
  | cons a as ih =>
    have first : (M.restrict guard).step s a = M.step s a := by
      simp [restrict, allowed a (by simp)]
    simp only [exec, first]
    congr 1
    funext t
    exact ih (fun b member => allowed b (by simp [member])) t

theorem Run.of_restrict {M : Machine σ α} {guard : α → Bool} {h : List (σ × α)} {s : σ}
    (run : (M.restrict guard).Run h s) : M.Run h s := by
  induction run with
  | start => exact .start
  | next run step ih => exact ih.next (restrict_step.mp step).2

theorem Reachable.of_restrict {M : Machine σ α} {guard : α → Bool} {s : σ}
    (reach : (M.restrict guard).Reachable s) : M.Reachable s := by
  obtain ⟨h, run⟩ := reach
  exact run.of_restrict.reachable

/-! Refinement: `M` runs as the image of `N` under `f`, within the histories where the
    steps of the two agree. -/

theorem Run.lift {M : Machine σ α} {N : Machine τ α} (f : τ → σ)
    (within : List (σ × α) → Prop) (before : ∀ h x, within (h ++ [x]) → within h)
    (init : M.init = f N.init)
    (sim : ∀ k t a, N.Run k t → within (k.map (Prod.map f id)) →
      M.step (f t) a = (N.step t a).map f)
    {h : List (σ × α)} {s : σ} (run : M.Run h s) (now : within h) :
    ∃ k t, N.Run k t ∧ h = k.map (Prod.map f id) ∧ s = f t := by
  induction run with
  | start => exact ⟨[], N.init, .start, rfl, init⟩
  | next run step ih =>
    have earlier := before _ _ now
    obtain ⟨k, t, below, same, rfl⟩ := ih earlier
    rw [same] at earlier
    rw [sim k t _ below earlier] at step
    obtain ⟨u, stepN, rfl⟩ := Option.map_eq_some_iff.mp step
    exact ⟨_, u, below.next stepN, by simp [same], rfl⟩

/-! Components: `N` is the part of `M` seen by `view`; a step of `M` either is a step
    of the part or leaves it alone. -/

def partOf (view : σ → τ) (act : σ → α → Option β) (h : List (σ × α)) : List (τ × β) :=
  log (fun s a => (act s a).map fun b => (view s, b)) h

theorem Run.component {M : Machine σ α} {N : Machine τ β} (view : σ → τ)
    (act : σ → α → Option β) (init : view M.init = N.init)
    (moves : ∀ s a t b, M.step s a = some t → act s a = some b →
      N.step (view s) b = some (view t))
    (rests : ∀ s a t, M.step s a = some t → act s a = none → view t = view s)
    {h : List (σ × α)} {s : σ} (run : M.Run h s) : N.Run (partOf view act h) (view s) := by
  induction run with
  | start => rw [init]; exact .start
  | @next h s t a run step ih =>
    rw [partOf, log_snoc, ← partOf]
    cases seen : act s a with
    | none => simpa [rests s a t step seen] using ih
    | some b => exact ih.next (moves s a t b step seen)

theorem log_partOf (view : σ → τ) (act : σ → α → Option β) (f : τ → β → Option ε)
    (h : List (σ × α)) :
    log f (partOf view act h) = log (fun s a => (act s a).bind (f (view s))) h := by
  simp only [log, partOf, List.filterMap_filterMap]
  congr 1
  funext x
  cases act x.1 x.2 <;> rfl

end Machine
