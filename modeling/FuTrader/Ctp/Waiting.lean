import Mathlib.Algebra.Ring.Int.Defs
import FuTrader.Ctp.TdRuns

/- What the caller of CtpTdClient waits for in `_sem.acquire()`: whether a callback is still
   to come that wakes it, and whether the one that wakes it is its own answer. -/
namespace CtpTd
open Ctp

section
variable {P : Type}

/-- An accepted request, or a connection, has a callback to come that releases. -/
def State.Outstanding (s : State P) : Prop := s.pending ≠ [] ∨ s.front = .connecting

instance : DecidablePred (State.Outstanding : State P → Prop) := fun s =>
  inferInstanceAs (Decidable (s.pending ≠ [] ∨ s.front = .connecting))

def State.goesOn (s : State P) (ret : Int) : Bool :=
  match s.todo with
  | .req _ :: rest => acquires rest
  | .retry _ :: rest => ret = 0 && acquires rest
  | _ => false

/-- A request that the caller goes on to wait for is not rejected while the semaphore is at
    0 and no callback is to come. -/
def Heard (s : State P) : Action P → Prop
  | .send ret => ret < 0 → s.goesOn ret = true → ¬ s.Clear
  | _ => True

instance (s : State P) : DecidablePred (Heard s)
  | .send ret => inferInstanceAs (Decidable (ret < 0 → s.goesOn ret = true → ¬ s.Clear))
  | .call _ | .init | .acquire | .response .. | .flowOff _ | .onFrontConnected
  | .onFrontDisconnected _ => inferInstanceAs (Decidable True)

/-- The callback that the caller's next `_sem.acquire()` is there for: that of the connection
    before the first request, then the last response to the latest request. -/
def Answers (requested : Nat) : Action P → Prop
  | .onFrontConnected => requested = 0
  | .response n _ bIsLast => requested ≠ 0 ∧ n = requested ∧ bIsLast = true
  | _ => False

instance (requested : Nat) : DecidablePred (Answers requested : Action P → Prop)
  | .onFrontConnected => inferInstanceAs (Decidable (requested = 0))
  | .response n _ bIsLast =>
    inferInstanceAs (Decidable (requested ≠ 0 ∧ n = requested ∧ bIsLast = true))
  | .call _ | .init | .send _ | .acquire | .flowOff _ | .onFrontDisconnected _ =>
    inferInstanceAs (Decidable False)

/-- A request that the caller goes on to wait for is sent with nothing due, and no
    connection is lost while the caller is blocked. -/
def Alone (s : State P) : Action P → Prop
  | .send ret => s.goesOn ret = true → s.Clear
  | .onFrontDisconnected _ => ¬ s.Blocked
  | _ => True

instance (s : State P) : DecidablePred (Alone s)
  | .send ret => inferInstanceAs (Decidable (s.goesOn ret = true → s.Clear))
  | .onFrontDisconnected _ => inferInstanceAs (Decidable (¬ s.Blocked))
  | .call _ | .init | .acquire | .response .. | .flowOff _ | .onFrontConnected =>
    inferInstanceAs (Decidable True)

theorem owed_pos {s : State P} : 0 < s.permits.owed ↔ s.Outstanding := by
  have front : 0 < s.front.owed ↔ s.front = .connecting := by
    cases s.front <;> simp [Front.owed]
  have pending : 0 < s.pending.length ↔ s.pending ≠ [] := List.length_pos_iff
  rw [State.Outstanding, ← front, ← pending]
  change 0 < s.pending.length + s.front.owed ↔ _
  omega

theorem clear_iff {s : State P} : s.Clear ↔ s.sem = 0 ∧ ¬ s.Outstanding := by
  rw [State.Clear, State.Outstanding, not_or, not_not]

theorem due_zero {s : State P} : s.permits.due = 0 ↔ s.Clear := by
  rw [Permits.due_zero, clear_iff, ← owed_pos, Nat.pos_iff_ne_zero, not_not]
  rfl

theorem State.Untouched.clear {s : State P} (untouched : s.Untouched) : s.Clear :=
  ⟨untouched.sem, untouched.pending, by simp [untouched.front]⟩

theorem woken_iff {s : State P} :
    (s.Blocked → s.Outstanding) ↔ (acquires s.todo = true → ¬ s.Clear) := by
  rw [State.Blocked, clear_iff, not_and, not_not, and_imp]

theorem Placed.once {s : State P} {rest : List (Stmt P)} (placed : Placed s)
    (todo : s.todo = .acquire :: rest) : acquires rest = false := by
  have spaced := placed.spaced
  rw [todo] at spaced
  match rest with
  | .acquire :: _ => exact absurd (List.isChain_cons_cons.mp spaced).1 id
  | [] | .init :: _ | .req _ :: _ | .retry _ :: _ | .flowOff :: _ => rfl

variable [Zero P] {B : Permits.Semaphore} {cfg : Config} {s t : State P} {a : Action P}

theorem body_request (c : Call P) : acquires (c.body cfg) = false := by
  cases c with
  | qryInstrument exchangeIds => cases exchangeIds <;> rfl
  | _ => rfl

omit [Zero P] in
theorem sent_clear (r : Req P) (ret : Int) (todo : List (Stmt P)) :
    ({ s.request r ret with todo := todo } : State P).Clear ↔ ret ≠ 0 ∧ s.Clear := by
  by_cases zero : ret = 0 <;> simp [State.Clear, State.request, zero]

theorem Step.woken (placed : Placed s) (woken : acquires s.todo = true → ¬ s.Clear)
    (step : Step B cfg s a t) : (acquires t.todo = true → ¬ t.Clear) ↔ Heard s a := by
  cases step with
  | call c | runsOn c => simp [Heard, body_request]
  | returns rest todo => simp [Heard, placed.ends todo, acquires]
  | init => simp [Heard, State.Clear]
  | req r rest ret code todo =>
    have below : ret ≠ 0 ↔ ret < 0 := by omega
    simp only [sent_clear, below, Heard, State.goesOn, todo, not_and]
    exact forall_comm
  | succeed r rest todo =>
    rw [sent_clear]
    simp [Heard]
  | again r rest ret code todo =>
    have retried : ret ≠ 0 := by omega
    simp [Heard, State.goesOn, State.request, todo, acquires, retried]
  | throw r rest ret code todo =>
    have refused : ret ≠ 0 := by omega
    simp [Heard, State.goesOn, todo, acquires, refused]
  | acquire rest todo => simp [Heard, placed.once todo]
  | response => simpa [Heard] using woken
  | last | connected => simp [Heard, State.Clear]
  | disconnected => simp [Heard, State.Clear]

/-- In a run, every blocked caller has a callback to come that wakes it just in case no
    request that it goes on to wait for is rejected with nothing due. -/
theorem never_stranded_iff {h : List (State P × Action P)} {s : State P}
    (run : (client B cfg).Run h s) :
    (∀ t ∈ h.map Prod.fst ++ [s], t.Blocked → t.Outstanding) ↔ ∀ x ∈ h, Heard x.1 x.2 := by
  apply run.throughout_iff (fun t => t.Blocked → t.Outstanding) Heard
  · simp [State.Blocked, client, acquires]
  · intro s a t reach woken step
    rw [woken_iff] at woken ⊢
    exact (step_cases step).woken (placed_run reach) woken

def login : List (Action Int) := [
  .call .start, .init, .onFrontConnected, .acquire,
  .send 0, .response 1 (some 0) true, .acquire,
  .send 0, .response 2 (some 0) true, .acquire]

def tts : Config := ⟨"b", "u", "p", "a", "c"⟩

abbrev ttsClient : Machine (State Int) (Action Int) := client .saturating tts

def retried : List (Action Int) :=
  login ++ [.call (.qryDepthMarketData "rb"), .send (-3), .send 0]

theorem retried_woken : let M := ttsClient
    ∃ s, M.exec M.init retried = some s ∧ s.Blocked ∧ s.Outstanding := by
  have ran : (ttsClient.exec ttsClient.init retried).isSome = true := rfl
  have woken := (never_stranded_iff (Machine.run_get ran)).mpr (by decide)
  have blocked : ((ttsClient.exec ttsClient.init retried).get ran).Blocked := by
    decide +revert
  exact ⟨_, (Option.some_get ran).symm, blocked, woken _ (by simp) blocked⟩

def rejected : List (Action Int) := login ++ [.call .settlementInfo, .send (-3)]

theorem rejected_stranded : let M := ttsClient
    ∃ s, M.exec M.init rejected = some s ∧ s.Blocked ∧ ¬ s.Outstanding :=
  ⟨_, rfl, by decide⟩

/-! Whose answer wakes the caller. -/

structure State.Own (s : State P) : Prop where
  sem : s.sem = 0
  pending : ∀ p ∈ s.pending, s.requested ≠ 0 ∧ p.1 = s.requested
  front : s.front = .connecting → s.requested = 0

/-- In `_sem.acquire()` the caller has had its answer or is woken by no other. -/
def Answered (h : List (State P × Action P)) (s : State P) : Prop :=
  acquires s.todo = true → (∃ y ∈ h, Answers s.requested y.2) ∨ s.Own

omit [Zero P] in
theorem sent_own (r : Req P) (ret : Int) (todo : List (Stmt P)) (clear : s.Clear) :
    ({ s.request r ret with todo := todo } : State P).Own := by
  obtain ⟨sem, pending, front⟩ := clear
  constructor
  · exact sem
  · intro p member
    by_cases zero : ret = 0
    · simp [State.request, zero, pending] at member
      simp [State.request, member]
    · simp [State.request, zero, pending] at member
  · intro connecting
    exact absurd connecting front

omit [Zero P] in
theorem Answered.kept {h : List (State P × Action P)} (answered : Answered h s)
    (todo : t.todo = s.todo) (requested : t.requested = s.requested) {x : State P × Action P}
    (own : acquires s.todo = true → s.Own → Answers s.requested x.2 ∨ t.Own) :
    Answered (h ++ [x]) t := by
  intro next
  rw [todo] at next
  rw [requested]
  rcases answered next with ⟨y, member, answers⟩ | waiting
  · exact .inl ⟨y, List.mem_append_left _ member, answers⟩
  · rcases own next waiting with now | still
    · exact .inl ⟨x, by simp, now⟩
    · exact .inr still

theorem Answered.step {h : List (State P × Action P)} (answered : Answered h s)
    (placed : Placed s) (alone : Alone s a) (step : Step B cfg s a t) :
    Answered (h ++ [(s, a)]) t := by
  cases step with
  | call c | runsOn c =>
    intro next
    rw [body_request] at next
    cases next
  | returns rest todo =>
    intro next
    rw [placed.ends todo] at next
    cases next
  | init rest todo =>
    intro _
    have untouched := placed.opens rest todo
    right
    constructor
    · exact untouched.sem
    · simp [untouched.pending]
    · intro _
      exact untouched.requested
  | req r rest ret code todo =>
    intro next
    right
    exact sent_own r ret rest (alone (by simpa [State.goesOn, todo] using next))
  | succeed r rest todo =>
    intro next
    right
    exact sent_own r 0 rest (alone (by simpa [State.goesOn, todo] using next))
  | again r rest ret code todo =>
    intro next
    simp [State.request, todo, acquires] at next
  | throw =>
    intro next
    cases next
  | acquire rest todo =>
    intro next
    rw [placed.once todo] at next
    cases next
  | response =>
    apply answered.kept rfl rfl
    intro _ own
    exact .inr own
  | last n errorID p found =>
    apply answered.kept (by rfl) (by rfl)
    intro _ own
    obtain ⟨sent, same⟩ := own.pending p (List.mem_of_find?_eq_some found)
    have matched : p.1 = n := by simpa using List.find?_some found
    left
    exact ⟨sent, matched.symm.trans same, rfl⟩
  | connected front =>
    apply answered.kept (by rfl) (by rfl)
    intro _ own
    left
    exact own.front front
  | disconnected =>
    apply answered.kept (by rfl) (by rfl)
    intro next own
    exact absurd ⟨next, own.sem⟩ alone

theorem answered_run {h : List (State P × Action P)} {s : State P}
    (run : (client B cfg).Run h s) (alone : ∀ x ∈ h, Alone x.1 x.2) : Answered h s := by
  induction run with
  | start =>
    intro next
    cases next
  | @next h s t a run step ih =>
    have last : Alone s a := alone (s, a) (by simp)
    have earlier := ih fun x member => alone x (by simp [member])
    exact earlier.step (placed_run run.reachable) last (step_cases step)

/-- Where every request that the caller waits for is sent with nothing due, and no connection
    is lost under a blocked caller, `_sem.acquire()` is passed after its own answer. -/
theorem acquire_after_answer {h : List (State P × Action P)} {s : State P}
    (run : (client B cfg).Run h s) (alone : ∀ x ∈ h, Alone x.1 x.2) :
    ∀ earlier x later, h = earlier ++ x :: later → x.2 = .acquire →
      ∃ y ∈ earlier, Answers x.1.requested y.2 := by
  rintro earlier ⟨u, b⟩ later rfl rfl
  obtain ⟨before, t, step⟩ := run.upto
  have answered := answered_run before fun x member => alone x (by simp [member])
  cases step_cases step with
  | acquire rest todo held =>
    have next : acquires u.todo = true := by rw [todo]; rfl
    rcases answered next with delivered | own
    · exact delivered
    · rw [own.sem] at held
      cases held

def confirmed : List (Action Int) := login ++ [
  .call .settlementInfo, .send 0, .response 3 none false, .response 3 (some 0) true, .acquire]

theorem confirmed_answered : let M := ttsClient
    let h := M.steps M.init confirmed
    ∃ x, h = h.take 14 ++ [x] ∧ x.2 = .acquire ∧ ∃ y ∈ h.take 14, Answers x.1.requested y.2 := by
  have ran : (ttsClient.exec ttsClient.init confirmed).isSome = true := rfl
  have answered := acquire_after_answer (Machine.run_get ran) (by decide)
  exact ⟨_, rfl, rfl, answered _ _ [] rfl rfl⟩

/-- The answer to QryExchange, which nobody waits for, lets QryTradingAccount go on. -/
def overtaken : List (Action Int) := login ++ [
  .call .qryExchange, .send 0, .response 3 (some 0) true, .call .qryTradingAccount, .send 0]

theorem overtaken_early : let M := ttsClient
    ∃ s, M.exec M.init overtaken = some s ∧ s.requested = 4 ∧ (M.step s .acquire).isSome ∧
      ∀ y ∈ M.steps M.init overtaken, ¬ Answers 4 y.2 :=
  ⟨_, rfl, by decide⟩

end
end CtpTd
