import FuTrader.Engine.Liveness
import FuTrader.Engine.Routing

/- A task that a worker has been given comes to its end, with every strategy of its symbol
   called: a push that waits for a slot is let go on by the order-push thread. -/
namespace CtaEngine
open FuTrader
variable {F S : Type} {W : ThreadNum} {onTick : S → TickData F → S × Option Order}
  {added : List (Symbol × S)} {s t : State F S W} {a : Action F W} {v : Fin W.val}

def strategies (added : List (Symbol × S)) (tick : TickData F) : Nat :=
  (registered added (key tick)).length

theorem present_iff (reach : (machine onTick W added).Reachable s) (tick : TickData F) (j : Nat) :
    (s.strategy (key tick, j)).isSome = true ↔ j < strategies added tick := by
  rw [present_reachable reach, registration, Option.isSome_iff_ne_none, Ne,
    List.getElem?_eq_none_iff, not_le, strategies]

theorem Step.starts_of_idle (step : Step onTick s a t) (starts : a.starts v = true) :
    s.worker v = .idle := by
  cases step with
  | run w k tick free =>
    obtain rfl : w = v := of_decide_eq_true starts
    exact free
  | _ => cases starts

def Tasked (added : List (Symbol × S)) (v : Fin W.val) (s : State F S W) : Prop :=
  s.worker v = .idle ∨
    ∃ tick calls, (s.worker v).InTask tick (strategies added tick) calls

theorem tasked_reachable (reach : (machine onTick W added).Reachable s) : Tasked added v s := by
  apply Machine.Reachable.invariant (M := machine onTick W added) (Tasked added v) (.inl rfl)
    ?_ reach
  intro s a t reach tasked step
  have step := step_cases step
  by_cases starts : a.starts v = true
  · cases step with
    | run w k tick free task =>
      obtain rfl : w = v := of_decide_eq_true starts
      exact .inr ⟨tick, [], by simp [Worker.InTask]⟩
    | _ => cases starts
  · have starts : a.starts v = false := by simpa using starts
    rcases tasked with idle | ⟨tick, calls, inTask⟩
    · by_cases mine : a = .worker v
      · subst mine
        cases step <;> simp_all
      · exact .inl ((step.elsewhere mine starts).trans idle)
    · exact .inr ⟨tick, _, step.inTask (present_iff reach tick) inTask starts⟩

def Worker.toEnd (added : List (Symbol × S)) : Worker F → Nat
  | .idle => 0
  | .find tick => 4 * strategies added tick + 2
  | .visit tick j => 4 * (strategies added tick - j) + 1
  | .onTick tick j => 4 * (strategies added tick - j)
  | .push tick j _ => 4 * (strategies added tick - j) - 1
  | .pushing tick j _ => 4 * (strategies added tick - j) - 2

theorem Step.toEnd (reach : (machine onTick W added).Reachable s) (step : Step onTick s a t)
    (busy : s.worker v ≠ .idle) :
    t.worker v = s.worker v ∨ t.worker v = .idle ∨
      (t.worker v).toEnd added < (s.worker v).toEnd added := by
  have present := fun tick j => present_iff reach tick j
  by_cases mine : a = .worker v
  · subst mine
    have inside : ∀ {tick j}, (s.worker v = .onTick tick j ∨ ∃ order, s.worker v =
        .push tick j order ∨ s.worker v = .pushing tick j order) →
        j < strategies added tick := by
      intro tick j pc
      rcases tasked_reachable (v := v) reach with idle | ⟨tick', calls, inTask⟩
      · exact absurd idle busy
      · rcases pc with pc | ⟨order, pc | pc⟩ <;>
        · rw [pc] at inTask
          obtain ⟨rfl, less, _⟩ := inTask
          exact less
    cases step with
    | missing _ tick pc absent | last _ tick j pc absent => simp
    | found _ tick stgs pc there => simp [pc, Worker.toEnd]
    | call _ tick j stg pc there =>
      have less := (present tick j).mp (by rw [there]; rfl)
      simp [pc, Worker.toEnd]
    | silent _ tick j stg pc | emit _ tick j stg order pc =>
      have less := inside (.inl pc)
      right; right
      simp only [setWorker_worker, Function.update_self, pc, Worker.toEnd]
      omega
    | push _ tick j order c pc =>
      have less := inside (.inr ⟨order, .inl pc⟩)
      right; right
      simp only [setWorker_worker, Function.update_self, pc, Worker.toEnd]
      omega
    | pushing _ tick j order c pc => exact .inl rfl
    | pushed _ tick j order c result pc =>
      have less := inside (.inr ⟨order, .inr pc⟩)
      right; right
      simp only [setWorker_worker, Function.update_self, pc, Worker.toEnd]
      omega
  · refine .inl (step.elsewhere mine ?_)
    by_contra starts
    exact busy (step.starts_of_idle (by simpa using starts))

theorem Step.moves_on (step : Step onTick s a t) (acts : a.thread = .worker v)
    (busy : s.worker v ≠ .idle) (outside : (s.worker v).inPush = 0) :
    t.worker v ≠ s.worker v := by
  cases step with
  | run w k tick pc =>
    cases acts
    exact absurd pc busy
  | missing w tick pc | found w tick stgs pc | last w tick j pc | call w tick j stg pc
  | silent w tick j stg pc | emit w tick j stg order pc | push w tick j order c pc =>
    cases acts
    simp [pc]
  | pushing w tick j order c pc | pushed w tick j order c result pc =>
    cases acts
    simp [pc, Worker.inPush] at outside
  | _ => cases acts

theorem worker_able (reach : (machine onTick W added).Reachable s) (busy : s.worker v ≠ .idle)
    (outside : (s.worker v).inPush = 0) :
    Machine.Forever.Enabled (machine onTick W added) Action.thread s (.worker v) := by
  refine ⟨.worker v, rfl, ?_⟩
  change (workerStep onTick s v).isSome
  cases pc : s.worker v with
  | idle => exact absurd pc busy
  | find tick | visit tick j =>
    simp only [workerStep, pc]
    split <;> rfl
  | onTick tick j =>
    have present : (s.strategy (key tick, j)).isSome = true := by
      rw [present_iff reach]
      rcases tasked_reachable (v := v) reach with idle | ⟨tick', calls, inTask⟩
      · exact absurd idle busy
      · rw [pc] at inTask
        obtain ⟨rfl, less, _⟩ := inTask
        exact less
    simpa [workerStep, pc] using present
  | push tick j order =>
    have held := (aligned_reachable reach).producers v
    rw [outside] at held
    have idle := (Mpsc.held_zero_iff _).mp held
    simp [workerStep, pc, channelStep, Mpsc.step, Mpsc.pushStep, idle]
  | pushing tick j order => simp [pc, Worker.inPush] at outside

theorem worker_leaves (few : W.val ≤ 1025) {w : (machine onTick W added).Forever}
    (running : ∀ n, w.action n ≠ some .stop) (main : w.FairTo Action.thread .main)
    (workers : ∀ v, w.FairTo Action.thread (.worker v))
    (orderPush : w.FairTo Action.thread .orderPush) (n : Nat)
    (busy : (w.state n).worker v ≠ .idle) :
    ∃ m, n ≤ m ∧ (w.state m).worker v ≠ (w.state n).worker v := by
  by_cases outside : ((w.state n).worker v).inPush = 0
  · obtain ⟨m, later, same, a, taken, acts⟩ := (workers v).acts
      (·.worker v = (w.state n).worker v) rfl
      (fun s reach same => worker_able reach (same ▸ busy) (same ▸ outside))
      (fun s a t reach same step other => by
        have step := step_cases step
        rw [← same]
        refine step.elsewhere ?_ ?_
        · rintro rfl
          exact other rfl
        · cases a with
          | run u k => exact decide_eq_false fun own => other (by rw [own]; rfl)
          | _ => rfl)
    refine ⟨m + 1, Nat.le_succ_of_le later, ?_⟩
    rw [← same] at busy outside ⊢
    exact (step_cases (w.moves m a taken)).moves_on acts busy outside
  · have half := W.lt
    obtain ⟨m, later, idle⟩ := Mpsc.push_reaches few (by omega) (channelForever w)
      (fun v => producer_fair (workers v)) (consumer_fair running main orderPush) v n
    refine ⟨m, later, fun same => outside ?_⟩
    rw [← same, ← (aligned_reachable (w.run m).reachable).producers v]
    exact (Mpsc.held_zero_iff _).mpr idle

theorem worker_idles (few : W.val ≤ 1025) {w : (machine onTick W added).Forever}
    (running : ∀ n, w.action n ≠ some .stop) (main : w.FairTo Action.thread .main)
    (workers : ∀ v, w.FairTo Action.thread (.worker v))
    (orderPush : w.FairTo Action.thread .orderPush) (n : Nat) :
    ∃ m, n ≤ m ∧ (w.state m).worker v = .idle :=
  w.comes_down (·.worker v) (· = .idle) (Worker.toEnd added)
    (fun _ _ _ reach busy step => (step_cases step).toEnd reach busy)
    (worker_leaves few running main workers orderPush) n

theorem calledBy_next {w : (machine onTick W added).Forever} {n : Nat} {a : Action F W}
    (taken : w.action n = some a) : calledBy v (w.history (n + 1)) =
      calledBy v (w.history n) ++ (callBy v (w.state n) a).toList := by
  rw [Machine.Forever.history, taken]
  exact Machine.log_snoc _ _ _ _

theorem in_task {w : (machine onTick W added).Forever} {n k : Nat} {tick : TickData F}
    (starts : w.action n = some (.run v k)) (task : (w.state n).pending[k]? = some tick) {m : Nat}
    (later : n + 1 ≤ m) (busy : ∀ i, n + 1 ≤ i → i < m → (w.state i).worker v ≠ .idle) :
    ∃ calls, calledBy v (w.history m) = calledBy v (w.history n) ++ calls ∧
      ((w.state m).worker v).InTask tick (strategies added tick) calls := by
  induction later with
  | refl =>
    refine ⟨[], calledBy_next starts, ?_⟩
    have given : Step onTick (w.state n) (.run v k) (w.state (n + 1)) :=
      step_cases (w.moves n _ starts)
    generalize w.state (n + 1) = t at given
    cases given with
    | run _ _ tick' free there =>
      rw [task] at there
      cases there
      simp [Worker.InTask]
  | @step m later ih =>
    obtain ⟨calls, called, inTask⟩ := ih fun i from_n before => busy i from_n (by omega)
    cases taken : w.action m with
    | none =>
      rw [Machine.Forever.history, taken, w.rests m taken]
      exact ⟨calls, by simpa using called, inTask⟩
    | some a =>
      have step := step_cases (w.moves m a taken)
      have going : a.starts v = false := by
        by_contra starts
        exact busy m later (Nat.lt_succ_self m) (step.starts_of_idle (by simpa using starts))
      refine ⟨_, ?_, step.inTask (present_iff (w.run m).reachable tick) inTask going⟩
      rw [calledBy_next taken, called, List.append_assoc]

/-- A task that the executor starts ends, and every strategy of the symbol has been called in
    it, once and in the order of addStrategy. -/
theorem every_task_ends (few : W.val ≤ 1025) (w : (machine onTick W added).Forever)
    (running : ∀ n, w.action n ≠ some .stop) (main : w.FairTo Action.thread .main)
    (workers : ∀ v, w.FairTo Action.thread (.worker v))
    (orderPush : w.FairTo Action.thread .orderPush) {n k : Nat} {tick : TickData F}
    (starts : w.action n = some (.run v k)) (task : (w.state n).pending[k]? = some tick) :
    ∃ m, n < m ∧ (w.state m).worker v = .idle ∧ calledBy v (w.history m) =
      calledBy v (w.history n) ++ places (key tick) (strategies added tick) := by
  classical
  have ends := worker_idles (v := v) few running main workers orderPush (n + 1)
  obtain ⟨later, idle⟩ := Nat.find_spec ends
  have busy : ∀ i, n + 1 ≤ i → i < Nat.find ends → (w.state i).worker v ≠ .idle :=
    fun i from_n before idle => Nat.find_min ends before ⟨from_n, idle⟩
  obtain ⟨calls, called, inTask⟩ := in_task starts task later busy
  rw [idle] at inTask
  exact ⟨Nat.find ends, later, idle, by rw [called, inTask]⟩

theorem busyEngine_ends : ∃ m, 9 < m ∧ (busyEngine.state m).worker 0 = .idle ∧
    calledBy 0 (busyEngine.history m) = calledBy 0 (busyEngine.history 9) ++ [([97], 0)] :=
  every_task_ends (by decide) busyEngine busyEngine_running (busyEngine_fair (by simp))
    (fun _ => busyEngine_fair (by simp)) (busyEngine_fair (by simp))
    (rfl : busyEngine.action 9 = some (.run 0 0))
    (rfl : (busyEngine.state 9).pending[0]? = some (tickOf [97] 10))

end CtaEngine
