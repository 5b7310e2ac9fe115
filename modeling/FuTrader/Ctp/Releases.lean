import FuTrader.Ctp.Waiting
import FuTrader.Ctp.MdRuns

/- `_sem.release()` of the two clients: no more than one at a time, and what it takes. -/
namespace CtpTd
open Ctp

section
variable {P : Type}

def Releases : Action P → Prop
  | .response _ _ bIsLast => bIsLast = true
  | .onFrontConnected => True
  | _ => False

/-- A request is accepted, and the connection is lost, only where nothing is due. -/
def Single (s : State P) : Action P → Prop
  | .send ret => ret = 0 → s.Clear
  | .onFrontDisconnected _ => s.Clear
  | _ => True

instance (s : State P) : DecidablePred (Single s)
  | .send ret => inferInstanceAs (Decidable (ret = 0 → s.Clear))
  | .onFrontDisconnected _ => inferInstanceAs (Decidable s.Clear)
  | .call _ | .init | .acquire | .response .. | .flowOff _ | .onFrontConnected =>
    inferInstanceAs (Decidable True)

theorem permitAct_release {a : Action P} (releases : Releases a) :
    permitAct a = some .release := by
  cases a with
  | response id errorID bIsLast => exact if_pos releases
  | onFrontConnected => rfl
  | _ => cases releases

variable [Zero P] {B : Permits.Semaphore} {cfg : Config}

theorem single_meets {s t : State P} {a : Action P} (placed : Placed s)
    (step : Step B cfg s a t) : Single s a ↔ Permits.Meets State.permits permitAct s a := by
  have clear : s.Clear ↔ s.permits.due + 1 ≤ 1 := by
    rw [← due_zero]
    omega
  cases a with
  | init =>
    cases step with
    | init rest todo =>
      have untouched := placed.opens rest todo
      exact iff_of_true trivial ((Permits.meets_owe rfl).mpr (clear.mp untouched.clear))
  | send ret =>
    by_cases zero : ret = 0
    · have owes : permitAct (.send ret : Action P) = some (.owe 1) := if_pos zero
      rw [Permits.meets_owe owes, ← clear]
      exact forall_prop_of_true zero
    · exact iff_of_true (absurd · zero) (Permits.meets_free (by simp [permitAct, zero]))
  | onFrontDisconnected => exact clear.trans (Permits.meets_owe rfl).symm
  | response | call | acquire | flowOff | onFrontConnected =>
    exact iff_of_true trivial (Permits.meets_free (by simp [permitAct]))

theorem single_run {h : List (State P × Action P)} {s : State P} (run : (client B cfg).Run h s) :
    (∀ x ∈ h, Single x.1 x.2) ↔ ∀ x ∈ h, Permits.Meets State.permits permitAct x.1 x.2 := by
  apply run.steps_iff
  intro s a t reach step
  exact single_meets (placed_run reach) (step_cases step)

/-- The condition is exact: where a step breaks it, the callbacks to come have an order in
    which one of them releases at count 1. -/
theorem overruns_iff {h : List (State P × Action P)} {s : State P} (run : (client B cfg).Run h s) :
    (∀ t ∈ h.map Prod.fst ++ [s],
      ¬ Permits.Overruns (client B cfg) State.permits permitAct t) ↔ ∀ x ∈ h, Single x.1 x.2 := by
  rw [single_run run]
  exact uses.safe_iff run

theorem release_at_zero {h : List (State P × Action P)} {s : State P}
    (run : (client B cfg).Run h s) (single : ∀ x ∈ h, Single x.1 x.2) :
    ∀ x ∈ h, Releases x.2 → x.1.sem = 0 := by
  intro x member releases
  exact uses.release_at_zero run ((single_run run).mp single) x member (permitAct_release releases)

end
end CtpTd

namespace CtpMd
open Ctp

def Releases : Action → Prop
  | .response _ _ bIsLast => bIsLast = true
  | .onFrontConnected => True
  | _ => False

/-- A request is accepted, and the connection is lost, only where nothing is due; and the
    request gets one response with bIsLast. -/
def Single (s : State) : Action → Prop
  | .send ret n => ret = 0 → n = 1 ∧ s.Clear
  | .onFrontDisconnected _ => s.Clear
  | _ => True

instance (s : State) : DecidablePred (Single s)
  | .send ret n => inferInstanceAs (Decidable (ret = 0 → n = 1 ∧ s.Clear))
  | .onFrontDisconnected _ => inferInstanceAs (Decidable s.Clear)
  | .subscribe _ | .start | .init | .acquire | .response .. | .onFrontConnected =>
    inferInstanceAs (Decidable True)

variable {B : Permits.Semaphore} {userID : String} {s t : State} {a : Action}

theorem permitAct_release (releases : Releases a) : permitAct a = some .release := by
  cases a with
  | response k errorID bIsLast => exact if_pos releases
  | onFrontConnected => rfl
  | _ => cases releases

theorem State.Untouched.clear (untouched : s.Untouched) : s.Clear :=
  ⟨untouched.sem, untouched.pending, by simp [untouched.front]⟩

theorem due_zero : s.permits.due = 0 ↔ s.Clear := by
  cases front : s.front <;>
    simp [Permits.due_zero, State.permits, State.Clear, Front.owed, front]

theorem lasts_pos {r : Req} {n : Nat} (lasts : r.lasts n = true) : 0 < n := by
  cases r with
  | userLogin userID =>
    have one : n = 1 := by simpa [Req.lasts] using lasts
    omega
  | subscribeMarketData symbols => exact (of_decide_eq_true lasts).1

theorem single_meets (placed : Placed s) (step : Step B userID s a t) :
    Single s a ↔ Permits.Meets State.permits permitAct s a := by
  have clear : s.Clear ↔ s.permits.due + 1 ≤ 1 := by
    rw [← due_zero]
    omega
  cases a with
  | init =>
    cases step with
    | init rest todo =>
      have untouched := placed.opens todo
      exact iff_of_true trivial ((Permits.meets_owe rfl).mpr (clear.mp untouched.clear))
  | send ret n =>
    by_cases zero : ret = 0
    · have answered : 0 < n := by
        cases step with
        | accepted r rest n todo lasts => exact lasts_pos lasts
        | rejected r rest ret n code => omega
      have single : Single s (.send ret n) ↔ n = 1 ∧ s.Clear := forall_prop_of_true zero
      have owes : permitAct (.send ret n) = some (.owe n) := if_pos zero
      rw [single, Permits.meets_owe owes, ← due_zero]
      omega
    · exact iff_of_true (absurd · zero) (Permits.meets_free (by simp [permitAct, zero]))
  | onFrontDisconnected => exact clear.trans (Permits.meets_owe rfl).symm
  | response | subscribe | start | acquire | onFrontConnected =>
    exact iff_of_true trivial (Permits.meets_free (by simp [permitAct]))

theorem single_run {h : List (State × Action)} {s : State} (run : (client B userID).Run h s) :
    (∀ x ∈ h, Single x.1 x.2) ↔ ∀ x ∈ h, Permits.Meets State.permits permitAct x.1 x.2 := by
  apply run.steps_iff
  intro s a t reach step
  exact single_meets (placed_run reach) (step_cases step)

theorem overruns_iff {h : List (State × Action)} {s : State} (run : (client B userID).Run h s) :
    (∀ t ∈ h.map Prod.fst ++ [s],
      ¬ Permits.Overruns (client B userID) State.permits permitAct t) ↔
        ∀ x ∈ h, Single x.1 x.2 := by
  rw [single_run run]
  exact uses.safe_iff run

theorem release_at_zero {h : List (State × Action)} {s : State}
    (run : (client B userID).Run h s) (single : ∀ x ∈ h, Single x.1 x.2) :
    ∀ x ∈ h, Releases x.2 → x.1.sem = 0 := by
  intro x member releases
  exact uses.release_at_zero run ((single_run run).mp single) x member (permitAct_release releases)

abbrev ttsClient : Machine State Action := client .saturating "u"

def subscribing (n : Nat) : List Action := [
  .subscribe ["MA509", "rb2507"], .start, .init, .onFrontConnected, .acquire,
  .send 0 1, .response 0 (some 0) true, .acquire, .send 0 n]

end CtpMd

namespace Ctp

/-- Neither client releases its semaphore at count 1 in a run where each request is accepted,
    and the connection lost, only where nothing is due. -/
theorem never_released_at_one {P : Type} [Zero P] (B : Permits.Semaphore)
    (cfg : CtpTd.Config) (userID : String) :
    (∀ (h : List (CtpTd.State P × CtpTd.Action P)) (s : CtpTd.State P),
      (CtpTd.client B cfg).Run h s → (∀ x ∈ h, CtpTd.Single x.1 x.2) →
        ∀ x ∈ h, CtpTd.Releases x.2 → x.1.sem = 0) ∧
    (∀ (h : List (CtpMd.State × CtpMd.Action)) (s : CtpMd.State),
      (CtpMd.client B userID).Run h s → (∀ x ∈ h, CtpMd.Single x.1 x.2) →
        ∀ x ∈ h, CtpMd.Releases x.2 → x.1.sem = 0) :=
  ⟨fun _ _ => CtpTd.release_at_zero, fun _ _ => CtpMd.release_at_zero⟩

def oneAnswer : List CtpMd.Action := CtpMd.subscribing 1 ++ [.response 0 (some 0) true]

theorem oneAnswer_at_zero :
    (let M := CtpTd.ttsClient
     ∃ x, (M.steps M.init CtpTd.login)[8]? = some x ∧ CtpTd.Releases x.2 ∧ x.1.sem = 0) ∧
    (let M := CtpMd.ttsClient
     ∃ x, (M.steps M.init oneAnswer)[9]? = some x ∧ CtpMd.Releases x.2 ∧ x.1.sem = 0) := by
  constructor
  · have ran : (CtpTd.ttsClient.exec CtpTd.ttsClient.init
        CtpTd.login).isSome = true := rfl
    have zero := (never_released_at_one .saturating CtpTd.tts "u").1 _ _ (Machine.run_get ran)
      (by decide)
    exact ⟨_, rfl, rfl, zero _ (List.mem_of_getElem? (i := 8) rfl) rfl⟩
  · have ran : (CtpMd.ttsClient.exec CtpMd.ttsClient.init oneAnswer).isSome = true := rfl
    have run := Machine.run_get ran
    have zero := (never_released_at_one (P := Int) .saturating CtpTd.tts "u").2 _ _ run (by decide)
    exact ⟨_, rfl, rfl, zero _ (List.mem_of_getElem? (i := 9) rfl) rfl⟩

def twoQueries : List (CtpTd.Action Int) := CtpTd.login ++ [
  .call .qryExchange, .send 0, .call .qryProduct, .send 0, .response 3 (some 0) true]

def twoAnswers : List CtpMd.Action := CtpMd.subscribing 2 ++ [.response 0 (some 0) true]

theorem released_at_one :
    (let M := CtpTd.ttsClient
     ∃ s, M.exec M.init twoQueries = some s ∧ s.sem = 1 ∧
       (M.step s (.response 4 (some 0) true)).isSome) ∧
    (let M := CtpMd.ttsClient
     ∃ s, M.exec M.init twoAnswers = some s ∧ s.sem = 1 ∧
       (M.step s (.response 0 (some 0) true)).isSome) :=
  ⟨⟨_, rfl, by decide⟩, ⟨_, rfl, by decide⟩⟩

end Ctp
