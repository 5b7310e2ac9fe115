import Mathlib.Logic.Relation
import Mathlib.Tactic.Common
import FuTrader.Lib.Machine

/- A binary semaphore together with the releases that are still owed to it, and a machine
   that uses one. A release at count 1 is outside the contract of std::binary_semaphore;
   what it leaves is a parameter. -/
namespace Permits

/-- `released n` is the count after a release at count `n`. No permit is lost and one at most
    is gained: from 0 the count becomes 1, and above that it may stay, go on or fall back. -/
structure Semaphore where
  released : Nat → Nat
  pos : ∀ n, 1 ≤ released n
  le : ∀ n, released n ≤ n + 1

namespace Semaphore

/- A release at count 1 is swallowed, or counted. -/
def saturating : Semaphore := ⟨fun _ => 1, fun _ => Nat.le_refl 1, fun _ => by omega⟩
def counting : Semaphore := ⟨(· + 1), fun _ => by omega, fun _ => Nat.le_refl _⟩

example : saturating.released 1 = 1 ∧ counting.released 1 = 2 := ⟨rfl, rfl⟩

variable (B : Semaphore)

@[simp] theorem released_zero : B.released 0 = 1 := Nat.le_antisymm (B.le 0) (B.pos 0)
@[simp] theorem released_ne_zero (n : Nat) : B.released n ≠ 0 := Nat.ne_of_gt (B.pos n)

end Semaphore

structure State where
  count : Nat
  owed : Nat

inductive Action where
  | owe (k : Nat)
  | release
  | acquire

def step (B : Semaphore) (s : State) : Action → Option State
  | .owe k => some { s with owed := s.owed + k }
  | .release => if 0 < s.owed then some ⟨B.released s.count, s.owed - 1⟩ else none
  | .acquire => if 0 < s.count then some { s with count := s.count - 1 } else none

def State.due (s : State) : Nat := s.count + s.owed

/-- Releases come to be owed only one at a time, where nothing else is due. -/
def Paired (s : State) : Action → Prop
  | .owe k => s.due + k ≤ 1
  | _ => True

theorem due_zero {s : State} : s.due = 0 ↔ s.count = 0 ∧ s.owed = 0 := Nat.add_eq_zero_iff

section
variable {B : Semaphore} {s t : State}

theorem due_owe {k : Nat} (step : step B s (.owe k) = some t) :
    t.due = s.due + k ∧ t.count = s.count := by
  cases step
  exact ⟨(Nat.add_assoc ..).symm, rfl⟩

theorem due_release (step : step B s .release = some t) :
    0 < s.owed ∧ t.count = B.released s.count ∧ t.owed + 1 = s.owed := by
  obtain ⟨owed, same⟩ := Option.ite_none_right_eq_some.mp step
  cases same
  exact ⟨owed, rfl, Nat.sub_add_cancel owed⟩

theorem release_le (step : step B s .release = some t) : t.due ≤ s.due := by
  obtain ⟨_, held, left⟩ := due_release step
  have gained := B.le s.count
  simp only [State.due, held]
  omega

theorem due_acquire (step : step B s .acquire = some t) : t.due + 1 = s.due := by
  obtain ⟨held, same⟩ := Option.ite_none_right_eq_some.mp step
  cases same
  simp only [State.due]
  omega

theorem step_due_iff {a : Action} (bound : s.due ≤ 1) (step : step B s a = some t) :
    t.due ≤ 1 ↔ Paired s a := by
  cases a with
  | owe k => rw [(due_owe step).1, Paired]
  | release =>
    have kept := release_le step
    simp only [Paired, iff_true]
    omega
  | acquire =>
    have spent := due_acquire step
    simp only [Paired, iff_true]
    omega

theorem released_at_zero (bound : s.due ≤ 1) (step : step B s .release = some t) :
    s.count = 0 := by
  obtain ⟨owed, _, _⟩ := due_release step
  simp only [State.due] at bound
  omega

theorem count_le_one {a : Action} (bound : s.due ≤ 1) (step : step B s a = some t) :
    t.count ≤ 1 := by
  cases a with
  | owe k =>
    rw [(due_owe step).2]
    exact Nat.le_trans (Nat.le_add_right _ _) bound
  | release =>
    rw [(due_release step).2.1, released_at_zero bound step]
    exact B.le 0
  | acquire =>
    have spent := due_acquire step
    simp only [State.due] at bound spent
    omega

end

/-! A machine that uses one semaphore: `view` is the semaphore with what is owed to it, and
    `act` is what an action does to them. -/

section
variable {σ α : Type} (B : Semaphore) (M : Machine σ α) (view : σ → State)
  (act : α → Option Action)

def Delivers (s t : σ) : Prop := ∃ a, act a = some .release ∧ M.step s a = some t

structure Uses : Prop where
  init : (view M.init).due = 0
  moves : ∀ s a t b, M.Reachable s → M.step s a = some t → act a = some b →
    step B (view s) b = some (view t)
  rests : ∀ s a t, M.Reachable s → M.step s a = some t → act a = none → view t = view s
  delivers : ∀ s, 0 < (view s).owed → ∃ t, Delivers M act s t

/-- The releases that are owed can come in such an order that one is executed at count 1 or
    above. -/
def Overruns (s : σ) : Prop :=
  ∃ u, Relation.ReflTransGen (Delivers M act) s u ∧ 0 < (view u).count ∧ ∃ t, Delivers M act u t

def Meets (s : σ) (a : α) : Prop := ∀ b, act a = some b → Paired (view s) b

variable {B M view act}

theorem meets_owe {s : σ} {a : α} {k : Nat} (acts : act a = some (.owe k)) :
    Meets view act s a ↔ (view s).due + k ≤ 1 := by simp [Meets, acts, Paired]

theorem meets_free {s : σ} {a : α} (free : ∀ k, act a ≠ some (.owe k)) :
    Meets view act s a := by
  intro b acts
  cases b with
  | owe k => exact absurd acts (free k)
  | release | acquire => trivial

variable (uses : Uses B M view act)
include uses

theorem Uses.due_iff {h : List (σ × α)} {s : σ} (run : M.Run h s) :
    (∀ t ∈ h.map Prod.fst ++ [s], (view t).due ≤ 1) ↔ ∀ x ∈ h, Meets view act x.1 x.2 := by
  apply run.throughout_iff (fun t => (view t).due ≤ 1) (Meets view act)
  · simp [uses.init]
  · intro s a t reach bound step
    cases acts : act a with
    | none =>
      rw [uses.rests s a t reach step acts]
      simp [Meets, acts, bound]
    | some b => simpa [Meets, acts] using step_due_iff bound (uses.moves s a t b reach step acts)

theorem Uses.release_at_zero {h : List (σ × α)} {s : σ} (run : M.Run h s)
    (meets : ∀ x ∈ h, Meets view act x.1 x.2) :
    ∀ x ∈ h, act x.2 = some .release → (view x.1).count = 0 := by
  intro x member releases
  have bound := (uses.due_iff run).mpr meets x.1
    (List.mem_append_left _ (List.mem_map_of_mem member))
  obtain ⟨t, step⟩ := run.stepped member
  exact released_at_zero bound
    (uses.moves x.1 x.2 t .release (run.before member) step releases)

theorem Uses.deliver {s t : σ} (reach : M.Reachable s) (delivers : Delivers M act s t) :
    M.Reachable t ∧ Permits.step B (view s) .release = some (view t) := by
  obtain ⟨a, releases, step⟩ := delivers
  exact ⟨reach.next step, uses.moves s a t .release reach step releases⟩

theorem Uses.deliveries_le {s u : σ} (reach : M.Reachable s)
    (path : Relation.ReflTransGen (Delivers M act) s u) :
    M.Reachable u ∧ (view u).due ≤ (view s).due := by
  induction path with
  | refl => exact ⟨reach, Nat.le_refl _⟩
  | tail _ last ih =>
    obtain ⟨there, bound⟩ := ih
    obtain ⟨next, released⟩ := uses.deliver there last
    exact ⟨next, Nat.le_trans (release_le released) bound⟩

theorem Uses.two_due {s : σ} (reach : M.Reachable s) (overruns : Overruns M view act s) :
    2 ≤ (view s).due := by
  obtain ⟨u, path, held, t, delivers⟩ := overruns
  obtain ⟨there, bound⟩ := uses.deliveries_le reach path
  obtain ⟨owed, _⟩ := due_release (uses.deliver there delivers).2
  simp only [State.due] at bound ⊢
  omega

theorem Uses.overruns_of_due {s : σ} (reach : M.Reachable s) (small : (view s).count ≤ 1)
    (two : 2 ≤ (view s).due) : Overruns M view act s := by
  simp only [State.due] at two
  obtain ⟨t, delivers⟩ := uses.delivers s (by omega)
  by_cases held : 0 < (view s).count
  · exact ⟨s, .refl, held, t, delivers⟩
  · obtain ⟨_, now, left⟩ := due_release (uses.deliver reach delivers).2
    obtain ⟨u, again⟩ := uses.delivers t (by omega)
    exact ⟨t, .single delivers, now ▸ B.pos _, u, again⟩

/-- In a run without an order of the releases to come that executes one at count 1, no more
    than one permit is ever due. -/
theorem Uses.due_of_safe {h : List (σ × α)} {s : σ} (run : M.Run h s)
    (safe : ∀ t ∈ h.map Prod.fst ++ [s], ¬ Overruns M view act t) :
    ∀ t ∈ h.map Prod.fst ++ [s], (view t).due ≤ 1 := by
  induction run with
  | start => simp [uses.init]
  | @next h s t a run step ih =>
    rw [List.map_append, List.forall_mem_append, List.map_singleton,
      List.forall_mem_singleton] at safe ⊢
    have earlier := ih safe.1
    refine ⟨earlier, ?_⟩
    have bound : (view s).due ≤ 1 := earlier s (by simp)
    cases acts : act a with
    | none => rwa [uses.rests s a t run.reachable step acts]
    | some b =>
      have small := count_le_one bound (uses.moves s a t b run.reachable step acts)
      by_contra two
      exact safe.2 (uses.overruns_of_due (run.reachable.next step) small (by omega))

/-- Releases are owed one at a time just in case, from no state of the run, an order of the
    releases to come executes one at count 1. -/
theorem Uses.safe_iff {h : List (σ × α)} {s : σ} (run : M.Run h s) :
    (∀ t ∈ h.map Prod.fst ++ [s], ¬ Overruns M view act t) ↔
      ∀ x ∈ h, Meets view act x.1 x.2 := by
  rw [← uses.due_iff run]
  constructor
  · exact uses.due_of_safe run
  · intro bound t member overruns
    have two := uses.two_due (run.visited member) overruns
    exact absurd (bound t member) (by omega)

end
end Permits
