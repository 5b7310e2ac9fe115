import FuTrader.Ctp.MdClient

/- The steps of CtpMdClient one by one, and what they do to the semaphore and to the
   releases that are to come. -/
namespace CtpMd
open Ctp Errconfig

variable {B : Permits.Semaphore} {userID : String} {s t : State} {a : Action}

inductive Step (B : Permits.Semaphore) (userID : String) (s : State) : Action → State → Prop where
  | subscribe (symbols : List String) (idle : s.todo = []) :
      Step B userID s (.subscribe symbols) { s with symbols := symbols }
  | start (fresh : s.started = false) :
      Step B userID s .start { s with started := true, todo := start userID s.symbols }
  | init (rest : List Stmt) (todo : s.todo = .init :: rest) :
      Step B userID s .init { s with todo := rest, front := .connecting }
  | accepted (r : Req) (rest : List Stmt) (n : Nat) (todo : s.todo = .req r :: rest)
      (lasts : r.lasts n = true) :
      Step B userID s (.send 0 n)
        { s with todo := rest, pending := s.pending ++ List.replicate n r }
  | rejected (r : Req) (rest : List Stmt) (ret : Int) (n : Nat) (code : ret < 0)
      (todo : s.todo = .req r :: rest) :
      Step B userID s (.send ret n) { s with todo := rest }
  | acquire (rest : List Stmt) (todo : s.todo = .acquire :: rest) (held : 0 < s.sem) :
      Step B userID s .acquire { s with sem := s.sem - 1, todo := rest }
  | response (k : Nat) (errorID : Option Int) (within : k < s.pending.length) :
      Step B userID s (.response k errorID false) s
  | last (k : Nat) (errorID : Option Int) (within : k < s.pending.length) :
      Step B userID s (.response k errorID true)
        { s with sem := B.released s.sem, pending := s.pending.eraseIdx k }
  | connected (front : s.front = .connecting) :
      Step B userID s .onFrontConnected { s with sem := B.released s.sem, front := .connected }
  | disconnected (nReason : Int) (front : s.front = .connected)
      (known : (lookup DISCON_ERRORS nReason).isSome) :
      Step B userID s (.onFrontDisconnected nReason) { s with front := .connecting }

theorem sendStep_cases {ret : Int} {n : Nat} (step : sendStep s ret n = some t) :
    Step B userID s (.send ret n) t := by
  unfold sendStep at step
  split at step
  · rename_i r rest todo
    split at step
    · rename_i accepted
      obtain ⟨rfl, lasts⟩ := accepted
      cases step
      exact .accepted r rest n todo lasts
    · obtain ⟨code, same⟩ := Option.ite_none_right_eq_some.mp step
      cases same
      exact .rejected r rest ret n code todo
  · cases step

theorem step_cases (step : (client B userID).step s a = some t) : Step B userID s a t := by
  cases a with
  | subscribe symbols =>
    obtain ⟨idle, same⟩ := Option.ite_none_right_eq_some.mp step
    cases same
    exact .subscribe symbols (List.isEmpty_iff.mp idle)
  | start =>
    obtain ⟨fresh, same⟩ := Option.ite_none_left_eq_some.mp step
    cases same
    exact .start (by simpa using fresh)
  | init =>
    replace step : initStep s = some t := step
    unfold initStep at step
    split at step
    · rename_i rest todo
      cases step
      exact .init rest todo
    · cases step
  | send ret n => exact sendStep_cases step
  | acquire =>
    replace step : acquireStep s = some t := step
    unfold acquireStep at step
    split at step
    · rename_i rest todo
      obtain ⟨held, same⟩ := Option.ite_none_right_eq_some.mp step
      cases same
      exact .acquire rest todo held
    · cases step
  | response k errorID bIsLast =>
    obtain ⟨r, found, same⟩ := Option.map_eq_some_iff.mp step
    obtain ⟨within, _⟩ := List.getElem?_eq_some_iff.mp found
    rw [callback_onRsp] at same
    cases bIsLast with
    | false => cases same; exact .response k errorID within
    | true => cases same; exact .last k errorID within
  | onFrontConnected =>
    obtain ⟨front, same⟩ := Option.ite_none_right_eq_some.mp step
    cases same
    exact .connected front
  | onFrontDisconnected nReason =>
    obtain ⟨⟨front, known⟩, same⟩ := Option.ite_none_right_eq_some.mp step
    cases same
    exact .disconnected nReason front known

/-! Where the caller is: before Init nothing has been received or released. -/

structure State.Untouched (s : State) : Prop where
  sem : s.sem = 0
  front : s.front = .closed
  pending : s.pending = []

/-- start() is yet to be called, is at its first statement, or has Init behind it. -/
inductive Placed (s : State) : Prop where
  | fresh (started : s.started = false) (todo : s.todo = []) (untouched : s.Untouched)
  | opening (started : s.started = true) (rest : List Stmt) (todo : s.todo = .init :: rest)
      (last : .init ∉ rest) (untouched : s.Untouched)
  | opened (started : s.started = true) (past : .init ∉ s.todo)

theorem Placed.done {first : Stmt} {rest : List Stmt} (placed : Placed s)
    (todo : s.todo = first :: rest) (left : t.todo = rest) (started : t.started = s.started) :
    Placed t := by
  cases placed with
  | fresh _ empty =>
    rw [empty] at todo
    cases todo
  | opening begun rest' same last =>
    rw [same] at todo
    cases todo
    exact .opened (started.trans begun) (by rwa [left])
  | opened begun past =>
    rw [todo] at past
    have behind : .init ∉ rest := fun member => past (List.mem_cons_of_mem _ member)
    exact .opened (started.trans begun) (by rwa [left])

theorem Placed.later (placed : Placed s) (todo : t.todo = s.todo)
    (started : t.started = s.started) (touched : ¬ s.Untouched) : Placed t := by
  cases placed with
  | fresh _ _ untouched => exact absurd untouched touched
  | opening _ _ _ _ untouched => exact absurd untouched touched
  | opened begun past => exact .opened (started.trans begun) (by rwa [todo])

theorem Placed.step (placed : Placed s) (step : Step B userID s a t) : Placed t := by
  cases step with
  | subscribe symbols idle =>
    cases placed with
    | fresh started todo untouched =>
      exact .fresh started todo ⟨untouched.sem, untouched.front, untouched.pending⟩
    | opening _ _ todo =>
      rw [idle] at todo
      cases todo
    | opened started past => exact .opened started past
  | start fresh =>
    cases placed with
    | fresh _ _ untouched =>
      have last : Stmt.init ∉ (CtpMd.start userID s.symbols).tail := by simp [CtpMd.start]
      exact .opening rfl _ rfl last ⟨untouched.sem, untouched.front, untouched.pending⟩
    | opening started | opened started =>
      rw [started] at fresh
      cases fresh
  | init rest todo | acquire rest todo => exact placed.done todo rfl rfl
  | accepted r rest n todo | rejected r rest ret n code todo => exact placed.done todo rfl rfl
  | response => exact placed
  | last k errorID within =>
    apply placed.later (by rfl) (by rfl)
    intro untouched
    simp [untouched.pending] at within
  | connected front | disconnected nReason front =>
    apply placed.later (by rfl) (by rfl)
    intro untouched
    simp [untouched.front] at front

theorem placed_run (reach : (client B userID).Reachable s) : Placed s := by
  apply reach.invariant Placed (.fresh rfl rfl ⟨rfl, rfl, rfl⟩)
  intro s a t _ placed step
  exact placed.step (step_cases step)

theorem Placed.opens {rest : List Stmt} (placed : Placed s) (todo : s.todo = .init :: rest) :
    s.Untouched := by
  cases placed with
  | fresh _ _ untouched | opening _ _ _ _ untouched => exact untouched
  | opened _ past =>
    rw [todo] at past
    exact absurd List.mem_cons_self past

/-! The releases that are to come. -/

def permitAct : Action → Option Permits.Action
  | .init => some (.owe 1)
  | .send ret n => if ret = 0 then some (.owe n) else none
  | .acquire => some .acquire
  | .response _ _ bIsLast => if bIsLast then some .release else none
  | .onFrontConnected => some .release
  | .onFrontDisconnected _ => some (.owe 1)
  | .subscribe _ | .start => none

theorem Step.permits (placed : Placed s) (step : Step B userID s a t) :
    (∀ b, permitAct a = some b → Permits.step B s.permits b = some t.permits) ∧
      (permitAct a = none → t.permits = s.permits) := by
  cases step with
  | subscribe | start => simp [permitAct, State.permits]
  | init rest todo =>
    simp [permitAct, Permits.step, State.permits, Front.owed, (placed.opens todo).front]
  | accepted r rest n =>
    simp [permitAct, Permits.step, State.permits]
    omega
  | rejected r rest ret n code =>
    have rejected : ret ≠ 0 := by omega
    simp [permitAct, rejected, State.permits]
  | acquire rest todo held => simp [permitAct, Permits.step, State.permits, held]
  | response => simp [permitAct]
  | last k errorID within =>
    have shorter := List.length_eraseIdx_of_lt within
    have owed : 0 < s.pending.length + s.front.owed := by omega
    have left : s.pending.length + s.front.owed - 1 = s.pending.length - 1 + s.front.owed := by
      omega
    simp [permitAct, Permits.step, State.permits, shorter, owed, left]
  | connected front | disconnected nReason front =>
    simp [permitAct, Permits.step, State.permits, Front.owed, front]

theorem delivers (owed : 0 < s.permits.owed) :
    ∃ t, Permits.Delivers (client B userID) permitAct s t := by
  cases pending : s.pending with
  | cons r rest =>
    have found : s.pending[0]? = some r := by simp [pending]
    exact ⟨_, .response 0 none true, rfl, Option.map_eq_some_iff.mpr ⟨r, found, rfl⟩⟩
  | nil =>
    have front : s.front = .connecting := by
      cases front : s.front <;> simp [State.permits, pending, front, Front.owed] at owed ⊢
    exact ⟨_, .onFrontConnected, rfl, if_pos front⟩

theorem uses : Permits.Uses B (client B userID) State.permits permitAct where
  init := rfl
  moves _ _ _ b reach step acts := ((step_cases step).permits (placed_run reach)).1 b acts
  rests _ _ _ reach step rests := ((step_cases step).permits (placed_run reach)).2 rests
  delivers _ := delivers

end CtpMd
