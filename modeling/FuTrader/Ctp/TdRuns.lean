import Mathlib.Data.List.Chain
import FuTrader.Ctp.TdClient

/- The steps of CtpTdClient one by one, where its caller can be, and what the steps do to
   the semaphore and to the releases that are to come. -/
namespace CtpTd
open Ctp Errconfig

section
variable {P : Type} {s t : State P}

/-! Where the caller is: what may stand after a statement, and what holds before Init. -/

def Stmt.before : Stmt P → Stmt P → Prop
  | _, .init | .flowOff, _ => False
  | .acquire, .acquire => False
  | _, _ => True

structure State.Untouched (s : State P) : Prop where
  sem : s.sem = 0
  requested : s.requested = 0
  front : s.front = .closed
  pending : s.pending = []

structure Placed (s : State P) : Prop where
  spaced : s.todo.IsChain Stmt.before
  fresh : s.started = false → s.todo = [] ∧ s.Untouched
  opens : ∀ rest, s.todo = .init :: rest → s.Untouched

theorem qryInstrument_spaced (exchangeIds : List String) :
    (qryInstrument exchangeIds : List (Stmt P)).IsChain Stmt.before := by
  unfold qryInstrument
  split
  · exact .singleton _
  · induction exchangeIds with
    | nil => exact .nil
    | cons e es ih =>
      cases es with
      | nil => exact .singleton _
      | cons e' es => exact .cons_cons trivial (ih (by simp))

theorem Placed.rest {first : Stmt P} {rest : List (Stmt P)} (placed : Placed s)
    (todo : s.todo = first :: rest) : rest.IsChain Stmt.before ∧ ∀ r, rest ≠ .init :: r := by
  have spaced := placed.spaced
  rw [todo] at spaced
  constructor
  · exact spaced.tail
  · intro r same
    rw [same, List.isChain_cons_cons] at spaced
    exact spaced.1

theorem Placed.ends {rest : List (Stmt P)} (placed : Placed s) (todo : s.todo = .flowOff :: rest) :
    rest = [] := by
  have spaced := placed.spaced
  rw [todo] at spaced
  cases rest with
  | nil => rfl
  | cons next rest =>
    have apart := (List.isChain_cons_cons.mp spaced).1
    cases next <;> exact absurd apart id

/-- Once something has happened, the member functions run with Init behind them. -/
theorem Placed.later (placed : Placed s) (todo : t.todo = s.todo)
    (started : t.started = s.started) (touched : ¬ s.Untouched) : Placed t where
  spaced := todo ▸ placed.spaced
  fresh no := absurd (placed.fresh (started ▸ no)).2 touched
  opens rest first := absurd (placed.opens rest (todo ▸ first)) touched

theorem Placed.done {first : Stmt P} {rest : List (Stmt P)} (placed : Placed s)
    (todo : s.todo = first :: rest) (left : t.todo = rest ∨ t.todo = [])
    (started : t.started = s.started) : Placed t := by
  have begun : s.started = true := by
    by_contra no
    have empty := (placed.fresh (by simpa using no)).1
    rw [todo] at empty
    cases empty
  obtain ⟨spaced, noInit⟩ := placed.rest todo
  constructor
  · rcases left with left | left
    · rwa [left]
    · rw [left]
      exact .nil
  · intro no
    rw [started, begun] at no
    cases no
  · intro r next
    rcases left with left | left
    · exact absurd (left ▸ next) (noInit r)
    · rw [left] at next
      cases next

/-! The releases that are to come. -/

def permitAct : Action P → Option Permits.Action
  | .init => some (.owe 1)
  | .send ret => if ret = 0 then some (.owe 1) else none
  | .acquire => some .acquire
  | .response _ _ bIsLast => if bIsLast then some .release else none
  | .onFrontConnected => some .release
  | .onFrontDisconnected _ => some (.owe 1)
  | .call _ | .flowOff _ => none

theorem request_permits (r : Req P) (ret : Int) (todo : List (Stmt P)) :
    ({ s.request r ret with todo := todo } : State P).permits =
      if ret = 0 then { s.permits with owed := s.permits.owed + 1 } else s.permits := by
  by_cases zero : ret = 0
  · simp [State.permits, State.request, zero]
    omega
  · simp [State.permits, State.request, zero]

end

section
variable {P : Type} [Zero P] {B : Permits.Semaphore} {cfg : Config} {s t : State P}
  {a : Action P}

inductive Step (B : Permits.Semaphore) (cfg : Config) (s : State P) :
    Action P → State P → Prop where
  | call (c : Call P) (idle : s.todo = []) (first : c.isStart = !s.started) :
      Step B cfg s (.call c) { s with started := true, todo := c.body cfg }
  | init (rest : List (Stmt P)) (todo : s.todo = .init :: rest) :
      Step B cfg s .init { s with todo := rest, front := .connecting }
  | req (r : Req P) (rest : List (Stmt P)) (ret : Int) (code : ret ≤ 0)
      (todo : s.todo = .req r :: rest) :
      Step B cfg s (.send ret) { s.request r ret with todo := rest }
  | succeed (r : Req P) (rest : List (Stmt P)) (todo : s.todo = .retry r :: rest) :
      Step B cfg s (.send 0) { s.request r 0 with todo := rest }
  | again (r : Req P) (rest : List (Stmt P)) (ret : Int) (code : ret < 0)
      (todo : s.todo = .retry r :: rest) (known : (lookup REQ_ERRORS ret).isSome) :
      Step B cfg s (.send ret) (s.request r ret)
  | throw (r : Req P) (rest : List (Stmt P)) (ret : Int) (code : ret < 0)
      (todo : s.todo = .retry r :: rest) (unknown : lookup REQ_ERRORS ret = none) :
      Step B cfg s (.send ret) { s.request r ret with todo := [] }
  | acquire (rest : List (Stmt P)) (todo : s.todo = .acquire :: rest) (held : 0 < s.sem) :
      Step B cfg s .acquire { s with sem := s.sem - 1, todo := rest }
  | response (n : Nat) (errorID : Option Int) (p : Nat × Req P)
      (found : s.pending.find? (fun p => p.1 = n) = some p) :
      Step B cfg s (.response n errorID false) s
  | last (n : Nat) (errorID : Option Int) (p : Nat × Req P)
      (found : s.pending.find? (fun p => p.1 = n) = some p) :
      Step B cfg s (.response n errorID true)
        { s with sem := B.released s.sem, pending := s.pending.eraseP fun p => p.1 = n }
  | returns (rest : List (Stmt P)) (todo : s.todo = .flowOff :: rest) :
      Step B cfg s (.flowOff none) { s with todo := rest }
  | runsOn (c : Call P) (rest : List (Stmt P)) (todo : s.todo = .flowOff :: rest)
      (other : c.isStart = false) : Step B cfg s (.flowOff (some c)) { s with todo := c.body cfg }
  | connected (front : s.front = .connecting) :
      Step B cfg s .onFrontConnected { s with sem := B.released s.sem, front := .connected }
  | disconnected (nReason : Int) (front : s.front = .connected)
      (known : (lookup DISCON_ERRORS nReason).isSome) :
      Step B cfg s (.onFrontDisconnected nReason) { s with front := .connecting }

theorem sendStep_cases {ret : Int} (step : sendStep s ret = some t) :
    Step B cfg s (.send ret) t := by
  unfold sendStep at step
  split at step
  · rename_i code
    split at step
    · rename_i r rest todo
      cases step
      exact .req r rest ret code todo
    · rename_i r rest todo
      split at step
      · rename_i zero
        subst zero
        cases step
        exact .succeed r rest todo
      · have below : ret < 0 := by omega
        split at step
        · rename_i known
          cases step
          exact .again r rest ret below todo (by rw [known]; rfl)
        · rename_i unknown
          cases step
          exact .throw r rest ret below todo unknown
    · cases step
  · cases step

theorem flowOffStep_cases {into : Option (Call P)} (step : flowOffStep cfg s into = some t) :
    Step B cfg s (.flowOff into) t := by
  unfold flowOffStep at step
  split at step
  · rename_i rest todo
    split at step
    · cases step
      exact .returns rest todo
    · rename_i c
      obtain ⟨other, same⟩ := Option.ite_none_left_eq_some.mp step
      cases same
      exact .runsOn c rest todo (by simpa using other)
  · cases step

theorem step_cases (step : (client B cfg).step s a = some t) : Step B cfg s a t := by
  cases a with
  | call c =>
    obtain ⟨⟨idle, first⟩, same⟩ := Option.ite_none_right_eq_some.mp step
    cases same
    exact .call c (List.isEmpty_iff.mp idle) first
  | init =>
    replace step : initStep s = some t := step
    unfold initStep at step
    split at step
    · rename_i rest todo
      cases step
      exact .init rest todo
    · cases step
  | send ret => exact sendStep_cases step
  | acquire =>
    replace step : acquireStep s = some t := step
    unfold acquireStep at step
    split at step
    · rename_i rest todo
      obtain ⟨held, same⟩ := Option.ite_none_right_eq_some.mp step
      cases same
      exact .acquire rest todo held
    · cases step
  | response n errorID bIsLast =>
    obtain ⟨p, found, same⟩ := Option.map_eq_some_iff.mp step
    rw [callback_onRsp] at same
    cases bIsLast with
    | false => cases same; exact .response n errorID p found
    | true => cases same; exact .last n errorID p found
  | flowOff into => exact flowOffStep_cases step
  | onFrontConnected =>
    obtain ⟨front, same⟩ := Option.ite_none_right_eq_some.mp step
    cases same
    exact .connected front
  | onFrontDisconnected nReason =>
    obtain ⟨⟨front, known⟩, same⟩ := Option.ite_none_right_eq_some.mp step
    cases same
    exact .disconnected nReason front known

theorem body_spaced (c : Call P) : (c.body cfg).IsChain Stmt.before := by
  cases c with
  | qryInstrument exchangeIds => exact qryInstrument_spaced exchangeIds
  | _ => simp [Call.body, start, settlementInfo, qryInvestorPosition, qryTradingAccount,
      orderAction, qryExchange, qryProduct, qryInstrumentCommissionRate,
      qryInstrumentOrderCommRate, qryDepthMarketData, buy, sell, sellShort, buy2Cover,
      orderInsert, Stmt.before]

theorem body_init (c : Call P) (rest : List (Stmt P)) (todo : c.body cfg = .init :: rest) :
    c.isStart = true := by
  cases c with
  | start => rfl
  | qryInstrument exchangeIds =>
    exfalso
    simp only [Call.body, qryInstrument] at todo
    split at todo
    · cases todo
    · cases exchangeIds <;> cases todo
  | _ => cases todo

theorem placed_init : Placed (client B cfg : Machine (State P) (Action P)).init where
  spaced := .nil
  fresh _ := ⟨rfl, rfl, rfl, rfl, rfl⟩
  opens _ todo := by cases todo

theorem Placed.step (placed : Placed s) (step : Step B cfg s a t) : Placed t := by
  cases step with
  | call c idle first =>
    constructor
    · exact body_spaced c
    · intro no
      cases no
    · intro rest todo
      have fresh : s.started = false := by simpa [body_init c rest todo] using first
      obtain ⟨_, untouched⟩ := placed.fresh fresh
      exact ⟨untouched.sem, untouched.requested, untouched.front, untouched.pending⟩
  | init rest todo | acquire rest todo | succeed r rest todo | req r rest ret code todo
  | returns rest todo => exact placed.done todo (.inl rfl) rfl
  | runsOn c rest todo other =>
    constructor
    · exact body_spaced c
    · intro no
      have empty := (placed.fresh no).1
      rw [todo] at empty
      cases empty
    · intro rest' opens
      rw [body_init c rest' opens] at other
      cases other
  | throw r rest ret code todo => exact placed.done todo (.inr rfl) rfl
  | again r rest ret code todo =>
    constructor
    · exact placed.spaced
    · intro no
      have empty := (placed.fresh no).1
      rw [todo] at empty
      cases empty
    · intro rest' next
      have next : s.todo = .init :: rest' := next
      rw [todo] at next
      cases next
  | response => exact placed
  | last n errorID p found =>
    apply placed.later (by rfl) (by rfl)
    intro untouched
    simp [untouched.pending] at found
  | connected front | disconnected nReason front =>
    apply placed.later (by rfl) (by rfl)
    intro untouched
    simp [untouched.front] at front

theorem placed_run (reach : (client B cfg).Reachable s) : Placed s := by
  apply reach.invariant Placed placed_init
  intro s a t _ placed step
  exact placed.step (step_cases step)

omit [Zero P] in
theorem send_permits (r : Req P) (ret : Int) (todo : List (Stmt P)) :
    (∀ b, permitAct (.send ret : Action P) = some b →
      Permits.step B s.permits b = some ({ s.request r ret with todo := todo } : State P).permits) ∧
    (permitAct (.send ret : Action P) = none →
      ({ s.request r ret with todo := todo } : State P).permits = s.permits) := by
  rw [request_permits]
  by_cases zero : ret = 0 <;> simp [permitAct, zero, Permits.step]

theorem Step.permits (placed : Placed s) (step : Step B cfg s a t) :
    (∀ b, permitAct a = some b → Permits.step B s.permits b = some t.permits) ∧
      (permitAct a = none → t.permits = s.permits) := by
  cases step with
  | req r rest ret | throw r rest ret => exact send_permits r ret _
  | again r rest ret => exact send_permits r ret s.todo
  | succeed r rest => exact send_permits r 0 rest
  | call | returns | runsOn => simp [permitAct, State.permits]
  | init rest todo =>
    simp [permitAct, Permits.step, State.permits, Front.owed, (placed.opens rest todo).front]
  | acquire rest todo held => simp [permitAct, Permits.step, State.permits, held]
  | response => simp [permitAct]
  | last n errorID p found =>
    have member := List.mem_of_find?_eq_some found
    have shorter := List.length_eraseP_of_mem member (List.find?_some found)
    have some_pending := List.length_pos_of_mem member
    have owed : 0 < s.pending.length + s.front.owed := by omega
    have left : s.pending.length + s.front.owed - 1 = s.pending.length - 1 + s.front.owed := by
      omega
    simp [permitAct, Permits.step, State.permits, shorter, owed, left]
  | connected front | disconnected nReason front =>
    simp [permitAct, Permits.step, State.permits, Front.owed, front]

theorem delivers (owed : 0 < s.permits.owed) :
    ∃ t, Permits.Delivers (client B cfg) permitAct s t := by
  cases pending : s.pending with
  | cons p rest =>
    have found : s.pending.find? (fun q => q.1 = p.1) = some p := by simp [pending]
    exact ⟨_, .response p.1 none true, rfl, Option.map_eq_some_iff.mpr ⟨p, found, rfl⟩⟩
  | nil =>
    have front : s.front = .connecting := by
      cases front : s.front <;> simp [State.permits, pending, front, Front.owed] at owed ⊢
    exact ⟨_, .onFrontConnected, rfl, if_pos front⟩

theorem uses : Permits.Uses B (client B cfg : Machine (State P) (Action P)) State.permits
    permitAct where
  init := rfl
  moves _ _ _ b reach step acts := ((step_cases step).permits (placed_run reach)).1 b acts
  rests _ _ _ reach step rests := ((step_cases step).permits (placed_run reach)).2 rests
  delivers _ := delivers

end
end CtpTd
