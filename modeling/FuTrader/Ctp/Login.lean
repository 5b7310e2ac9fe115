import FuTrader.Ctp.Waiting

/- What a return of CtpTdClient::Start says: the outcome of a response is printed and no more,
   and the semaphore counts the responses whatever they say. -/
namespace CtpTd
open Ctp

section
variable {P : Type}

def Req.isAuthenticate : Req P → Bool
  | .authenticate .. => true
  | _ => false

def Req.isUserLogin : Req P → Bool
  | .userLogin .. => true
  | _ => false

def errorOf (kind : Req P → Bool) (s : State P) : Action P → Option (Option Int)
  | .response n errorID _ =>
    (s.pending.find? fun p => p.1 = n).bind fun p => if kind p.2 then some errorID else none
  | _ => none

def errorsOf (kind : Req P → Bool) (h : List (State P × Action P)) : List (Option Int) :=
  Machine.log (errorOf kind) h

/-- The last response to requests of the kind came with ErrorID 0. -/
def Succeeded (kind : Req P → Bool) (h : List (State P × Action P)) : Prop :=
  (errorsOf kind h).getLast? = some (some 0)

instance (kind : Req P → Bool) (h : List (State P × Action P)) : Decidable (Succeeded kind h) :=
  inferInstanceAs (Decidable (_ = _))

def State.makes (kind : Req P → Bool) (s : State P) : Bool :=
  match s.todo with
  | .req r :: _ | .retry r :: _ => kind r
  | _ => false

/-- Authenticated before the login was sent, and logged in. -/
structure LoggedIn (h : List (State P × Action P)) : Prop where
  authenticated : Succeeded Req.isAuthenticate h
  loggedIn : Succeeded Req.isUserLogin h
  inOrder : ∀ earlier u ret later, h = earlier ++ (u, .send ret) :: later →
    u.makes Req.isUserLogin = true → Succeeded Req.isAuthenticate earlier

def Action.onlyStart : Action P → Bool
  | .call c => c.isStart
  | _ => true

/-- Start() has returned, and no other function has been called. -/
structure StartReturned (h : List (State P × Action P)) (s : State P) : Prop where
  started : s.started = true
  todo : s.todo = []
  only : ∀ x ∈ h, x.2.onlyStart = true

/-- The last response to an authenticate or login request has ErrorID 0. -/
def Granted (s : State P) : Action P → Prop
  | .response n errorID bIsLast =>
    bIsLast = true → ∀ p ∈ s.pending.find? fun p => p.1 = n,
      p.2.isAuthenticate = true ∨ p.2.isUserLogin = true → errorID = some 0
  | _ => True

instance (s : State P) : DecidablePred (Granted s)
  | .response n errorID bIsLast => inferInstanceAs (Decidable
      (bIsLast = true → ∀ p ∈ s.pending.find? fun p => p.1 = n,
        p.2.isAuthenticate = true ∨ p.2.isUserLogin = true → errorID = some 0))
  | .call _ | .init | .send _ | .acquire | .flowOff _ | .onFrontConnected
  | .onFrontDisconnected _ => inferInstanceAs (Decidable True)

/-- The caller waits for the response to its only request, or has had it with ErrorID 0. -/
inductive Waits (kind : Req P → Bool) (h : List (State P × Action P)) (s : State P) : Prop where
  | waiting (sem : s.sem = 0) (front : s.front ≠ .connecting)
      (one : s.pending.length ≤ 1) (own : ∀ p ∈ s.pending, kind p.2 = true)
  | granted (pending : s.pending = []) (succeeded : Succeeded kind h)

inductive Stage (cfg : Config) (h : List (State P × Action P)) (s : State P) : Prop where
  | fresh (started : s.started = false) (todo : s.todo = []) (pending : s.pending = [])
  | connecting (started : s.started = true) (pending : s.pending = [])
      (todo : s.todo = start cfg ∨ s.todo = (start cfg).tail ∨ s.todo = (start cfg).drop 2)
  | authenticating (started : s.started = true) (todo : s.todo = (start cfg).drop 3)
      (waits : Waits Req.isAuthenticate h s)
  | authenticated (started : s.started = true) (todo : s.todo = (start cfg).drop 4)
      (pending : s.pending = []) (succeeded : Succeeded Req.isAuthenticate h)
  | loggingIn (started : s.started = true) (todo : s.todo = (start cfg).drop 5)
      (succeeded : Succeeded Req.isAuthenticate h) (waits : Waits Req.isUserLogin h s)
  | returned (started : s.started = true) (todo : s.todo = []) (pending : s.pending = [])
      (succeeded : Succeeded Req.isAuthenticate h) (loggedIn : Succeeded Req.isUserLogin h)

theorem errorsOf_snoc (kind : Req P → Bool) (h : List (State P × Action P)) (s : State P)
    (a : Action P) : errorsOf kind (h ++ [(s, a)]) = errorsOf kind h ++ (errorOf kind s a).toList :=
  Machine.log_snoc _ _ _ _

theorem Succeeded.keep {kind : Req P → Bool} {h : List (State P × Action P)} {s : State P}
    {a : Action P} (succeeded : Succeeded kind h) (other : errorOf kind s a = none) :
    Succeeded kind (h ++ [(s, a)]) := by
  rw [Succeeded, errorsOf_snoc, other, Option.toList_none, List.append_nil]
  exact succeeded

theorem not_authenticate {r : Req P} (login : r.isUserLogin = true) :
    r.isAuthenticate = false := by
  cases r with
  | userLogin => rfl
  | _ => cases login

theorem errorOf_found {kind : Req P → Bool} {s : State P} {n : Nat} {errorID : Option Int}
    {bIsLast : Bool} {p : Nat × Req P} (found : s.pending.find? (fun p => p.1 = n) = some p) :
    errorOf kind s (.response n errorID bIsLast) = if kind p.2 then some errorID else none := by
  rw [errorOf, found]
  rfl

section steps
variable {kind : Req P → Bool} {h : List (State P × Action P)} {s t : State P} {a : Action P}

theorem Waits.quiet (waits : Waits kind h s) (pending : t.pending = s.pending)
    (other : errorOf kind s a = none)
    (still : s.sem = 0 → s.front ≠ .connecting → t.sem = 0 ∧ t.front ≠ .connecting) :
    Waits kind (h ++ [(s, a)]) t := by
  cases waits with
  | waiting sem front one own =>
    obtain ⟨sem, front⟩ := still sem front
    exact .waiting sem front (by rwa [pending]) (by rwa [pending])
  | granted empty succeeded => exact .granted (pending.trans empty) (succeeded.keep other)

theorem Waits.own (waits : Waits kind h s) {p : Nat × Req P} (member : p ∈ s.pending) :
    s.sem = 0 ∧ s.front ≠ .connecting ∧ s.pending = [p] ∧ kind p.2 = true := by
  cases waits with
  | waiting sem front one own =>
    obtain ⟨q, rest, pending⟩ := List.exists_cons_of_ne_nil (List.ne_nil_of_mem member)
    rw [pending] at one
    obtain rfl : rest = [] := List.eq_nil_of_length_eq_zero (by simpa using one)
    rw [pending, List.mem_singleton] at member
    rw [member]
    exact ⟨sem, front, pending, own q (by simp [pending])⟩
  | granted empty =>
    rw [empty] at member
    cases member

theorem Waits.sent (clear : s.Clear) {r : Req P} (own : kind r = true) (ret : Int)
    (todo : List (Stmt P)) : Waits kind h ({ s.request r ret with todo := todo } : State P) := by
  obtain ⟨sem, pending, front⟩ := clear
  apply Waits.waiting
  · exact sem
  · exact front
  · by_cases zero : ret = 0 <;> simp [State.request, zero, pending]
  · by_cases zero : ret = 0 <;> simp [State.request, zero, pending, own]

theorem Waits.response (waits : Waits kind h s) {n : Nat} {errorID : Option Int}
    {p : Nat × Req P} (found : s.pending.find? (fun p => p.1 = n) = some p) :
    Waits kind (h ++ [(s, .response n errorID false)]) s := by
  obtain ⟨sem, front, pending, own⟩ := waits.own (List.mem_of_find?_eq_some found)
  exact .waiting sem front (by simp [pending]) (by simpa [pending] using own)

theorem Waits.last {B : Permits.Semaphore} (waits : Waits kind h s) {n : Nat} {p : Nat × Req P}
    (found : s.pending.find? (fun p => p.1 = n) = some p) :
    Waits kind (h ++ [(s, .response n (some 0) true)])
      { s with sem := B.released s.sem, pending := s.pending.eraseP fun p => p.1 = n } := by
  obtain ⟨_, _, pending, own⟩ := waits.own (List.mem_of_find?_eq_some found)
  have matched := List.find?_some found
  apply Waits.granted
  · simpa [pending] using matched
  · rw [Succeeded, errorsOf_snoc, errorOf_found found, if_pos own]
    simp

theorem Waits.acquired (waits : Waits kind h s) (held : 0 < s.sem) :
    s.pending = [] ∧ Succeeded kind h := by
  cases waits with
  | waiting sem =>
    rw [sem] at held
    cases held
  | granted empty succeeded => exact ⟨empty, succeeded⟩

theorem Stage.quiet {cfg : Config} (stage : Stage cfg h s) (todo : t.todo = s.todo)
    (started : t.started = s.started) (pending : t.pending = s.pending)
    (other : ∀ kind, errorOf kind s a = none)
    (still : acquires s.todo = true → s.sem = 0 → s.front ≠ .connecting →
      t.sem = 0 ∧ t.front ≠ .connecting) : Stage cfg (h ++ [(s, a)]) t := by
  rw [← todo] at still
  cases stage with
  | fresh begun empty none =>
    exact .fresh (started.trans begun) (todo.trans empty) (pending.trans none)
  | connecting begun none here =>
    rw [← todo] at here
    exact .connecting (started.trans begun) (pending.trans none) here
  | authenticating begun here waits =>
    have next := todo.trans here
    exact .authenticating (started.trans begun) next
      (waits.quiet pending (other _) (still (by rw [next]; rfl)))
  | authenticated begun here none succeeded =>
    exact .authenticated (started.trans begun) (todo.trans here) (pending.trans none)
      (succeeded.keep (other _))
  | loggingIn begun here succeeded waits =>
    have next := todo.trans here
    exact .loggingIn (started.trans begun) next (succeeded.keep (other _))
      (waits.quiet pending (other _) (still (by rw [next]; rfl)))
  | returned begun empty none succeeded loggedIn =>
    exact .returned (started.trans begun) (todo.trans empty) (pending.trans none)
      (succeeded.keep (other _)) (loggedIn.keep (other _))

end steps

variable [Zero P] {B : Permits.Semaphore} {cfg : Config} {h : List (State P × Action P)}
  {s t : State P} {a : Action P}

omit [Zero P] in
theorem Stage.response (stage : Stage cfg h s) {n : Nat} {errorID : Option Int}
    {bIsLast : Bool} {p : Nat × Req P} (granted : Granted s (.response n errorID bIsLast))
    (found : s.pending.find? (fun p => p.1 = n) = some p) {t : State P}
    (todo : t.todo = s.todo) (started : t.started = s.started)
    (waits : ∀ kind, Waits kind h s → (bIsLast = true → errorID = some 0) →
      Waits kind (h ++ [(s, .response n errorID bIsLast)]) t) :
    Stage cfg (h ++ [(s, .response n errorID bIsLast)]) t := by
  have member := List.mem_of_find?_eq_some found
  have outcome : p.2.isAuthenticate = true ∨ p.2.isUserLogin = true →
      bIsLast = true → errorID = some 0 := fun kind last => granted last p found kind
  cases stage with
  | fresh _ _ none | connecting _ none | authenticated _ _ none | returned _ _ none =>
    rw [none] at member
    cases member
  | authenticating begun here awaits =>
    obtain ⟨_, _, _, own⟩ := awaits.own member
    exact .authenticating (started.trans begun) (todo.trans here)
      (waits _ awaits (outcome (.inl own)))
  | loggingIn begun here succeeded awaits =>
    obtain ⟨_, _, _, own⟩ := awaits.own member
    refine .loggingIn (started.trans begun) (todo.trans here) (succeeded.keep ?_)
      (waits _ awaits (outcome (.inr own)))
    rw [errorOf_found found, not_authenticate own]
    rfl

omit [Zero P] in
theorem Stage.among (stage : Stage cfg h s) {first : Stmt P} {rest : List (Stmt P)}
    (todo : s.todo = first :: rest) : first ∈ start cfg := by
  have next : first ∈ s.todo := by simp [todo]
  cases stage with
  | connecting _ _ here =>
    rcases here with here | here | here <;> rw [here] at next
    · exact next
    · exact List.mem_of_mem_tail next
    · exact List.mem_of_mem_drop next
  | fresh _ here | returned _ here =>
    rw [here] at next
    cases next
  | authenticating _ here | authenticated _ here | loggingIn _ here =>
    rw [here] at next
    exact List.mem_of_mem_drop next

theorem Stage.step (stage : Stage cfg h s) (alone : Alone s a) (granted : Granted s a)
    (only : a.onlyStart = true) (step : Step B cfg s a t) :
    Stage cfg (h ++ [(s, a)]) t := by
  cases step with
  | call c idle first =>
    have start : c.isStart = true := only
    cases stage with
    | fresh _ _ none =>
      cases c with
      | start => exact .connecting rfl none (.inl rfl)
      | _ => cases start
    | returned begun =>
      rw [begun, start] at first
      cases first
    | connecting _ _ here =>
      rw [idle] at here
      rcases here with here | here | here <;> cases here
    | authenticating _ here | authenticated _ here | loggingIn _ here =>
      rw [idle] at here
      cases here
  | init rest todo =>
    cases stage with
    | connecting begun none here =>
      rw [todo] at here
      rcases here with here | here | here <;> cases here
      exact .connecting begun none (.inr (.inl rfl))
    | fresh _ here | returned _ here | authenticating _ here | authenticated _ here
    | loggingIn _ here =>
      rw [todo] at here
      cases here
  | req r rest ret code todo =>
    cases stage with
    | connecting begun none here =>
      rw [todo] at here
      rcases here with here | here | here <;> cases here
      have clear := alone (by simp [State.goesOn, todo, acquires])
      exact .authenticating begun rfl (.sent clear rfl ret _)
    | authenticated begun here none succeeded =>
      rw [todo] at here
      cases here
      have clear := alone (by simp [State.goesOn, todo, acquires])
      exact .loggingIn begun rfl (succeeded.keep rfl) (.sent clear rfl ret _)
    | fresh _ here | returned _ here | authenticating _ here | loggingIn _ here =>
      rw [todo] at here
      cases here
  | succeed r rest todo | again r rest ret code todo | throw r rest ret code todo
  | returns rest todo | runsOn c rest todo =>
    exact absurd (stage.among todo) (by simp [start])
  | acquire rest todo held =>
    cases stage with
    | connecting begun none here =>
      rw [todo] at here
      rcases here with here | here | here <;> cases here
      exact .connecting begun none (.inr (.inr rfl))
    | authenticating begun here waits =>
      rw [todo] at here
      cases here
      obtain ⟨none, succeeded⟩ := waits.acquired held
      exact .authenticated begun rfl none (succeeded.keep rfl)
    | loggingIn begun here succeeded waits =>
      rw [todo] at here
      cases here
      obtain ⟨none, loggedIn⟩ := waits.acquired held
      exact .returned begun rfl none (succeeded.keep rfl) (loggedIn.keep rfl)
    | fresh _ here | returned _ here | authenticated _ here =>
      rw [todo] at here
      cases here
  | response n errorID p found =>
    exact stage.response granted found rfl rfl fun kind waits _ => waits.response found
  | last n errorID p found =>
    apply stage.response granted found (by rfl) (by rfl)
    intro kind waits zero
    rw [zero rfl]
    exact waits.last found
  | connected front =>
    exact stage.quiet rfl rfl rfl (fun _ => rfl) fun _ _ other => absurd front other
  | disconnected nReason front =>
    exact stage.quiet rfl rfl rfl (fun _ => rfl) fun next sem _ => absurd ⟨next, sem⟩ alone

theorem stage_run {h : List (State P × Action P)} {s : State P} (run : (client B cfg).Run h s)
    (alone : ∀ x ∈ h, Alone x.1 x.2) (granted : ∀ x ∈ h, Granted x.1 x.2)
    (only : ∀ x ∈ h, x.2.onlyStart = true) : Stage cfg h s := by
  induction run with
  | start => exact .fresh rfl rfl rfl
  | @next h s t a run step ih =>
    have earlier := ih (fun x member => alone x (by simp [member]))
      (fun x member => granted x (by simp [member])) fun x member => only x (by simp [member])
    exact earlier.step (alone (s, a) (by simp)) (granted (s, a) (by simp))
      (only (s, a) (by simp)) (step_cases step)

omit [Zero P] in
theorem Stage.sends_login (stage : Stage cfg h s) (makes : s.makes Req.isUserLogin = true) :
    Succeeded Req.isAuthenticate h := by
  cases stage with
  | authenticated _ _ _ succeeded | loggingIn _ _ succeeded | returned _ _ _ succeeded =>
    exact succeeded
  | fresh _ here | authenticating _ here => simp [State.makes, here, start] at makes
  | connecting _ _ here =>
    rcases here with here | here | here <;>
      simp [State.makes, here, start, Req.isUserLogin] at makes

omit [Zero P] in
theorem Stage.at_end (stage : Stage cfg h s) (begun : s.started = true) (empty : s.todo = []) :
    Succeeded Req.isAuthenticate h ∧ Succeeded Req.isUserLogin h := by
  cases stage with
  | returned _ _ _ succeeded loggedIn => exact ⟨succeeded, loggedIn⟩
  | fresh no =>
    rw [begun] at no
    cases no
  | connecting _ _ here =>
    rw [empty] at here
    rcases here with here | here | here <;> cases here
  | authenticating _ here | authenticated _ here | loggingIn _ here =>
    rw [empty] at here
    cases here

/-- Where each request that Start waits for is sent with nothing due, no connection is lost
    under a blocked caller, and the authenticate and login responses end with ErrorID 0, a
    return of Start means that it is logged in. -/
theorem start_logged_in {h : List (State P × Action P)} {s : State P}
    (run : (client B cfg).Run h s) (alone : ∀ x ∈ h, Alone x.1 x.2)
    (granted : ∀ x ∈ h, Granted x.1 x.2) (returned : StartReturned h s) : LoggedIn h := by
  obtain ⟨authenticated, loggedIn⟩ :=
    (stage_run run alone granted returned.only).at_end returned.started returned.todo
  constructor
  · exact authenticated
  · exact loggedIn
  · rintro earlier u ret later rfl makes
    have before := run.upto.1
    exact (stage_run before (fun x member => alone x (by simp [member]))
      (fun x member => granted x (by simp [member]))
      fun x member => returned.only x (by simp [member])).sends_login makes

theorem login_logged_in : let M := ttsClient
    ∃ s, M.exec M.init login = some s ∧ s.todo = [] ∧ LoggedIn (M.steps M.init login) := by
  have ran : (ttsClient.exec ttsClient.init login).isSome = true := rfl
  have loggedIn := start_logged_in (Machine.run_get ran) (by decide) (by decide)
    ⟨rfl, rfl, by decide⟩
  exact ⟨_, (Option.some_get ran).symm, rfl, loggedIn⟩

def refused : List (Action Int) := [
  .call .start, .init, .onFrontConnected, .acquire,
  .send 0, .response 1 (some 63) true, .acquire,
  .send 0, .response 2 (some 3) true, .acquire]

theorem refused_returns :
    ¬ ∀ h s, ttsClient.Run h s → StartReturned h s →
      LoggedIn h := by
  intro always
  have ran : (ttsClient.exec ttsClient.init refused).isSome = true := rfl
  have loggedIn := (always _ _ (Machine.run_get ran) ⟨rfl, rfl, by decide⟩).loggedIn
  revert loggedIn
  decide

end
end CtpTd
