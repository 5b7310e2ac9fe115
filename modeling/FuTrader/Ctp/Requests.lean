import Mathlib.Algebra.Ring.Nat
import FuTrader.Ctp.Waiting

/- What CtpTdClient asks of the API, whatever comes back: the requests of the member functions
   that are called, in their order, with the ids 1, 2, 3, as long as these fit an int and no
   function is called that has no return value. -/
namespace CtpTd
open Ctp Errconfig

section
variable {P : Type}

def Stmt.ask : Stmt P → Option (Req P)
  | .req r | .retry r => some r
  | .init | .acquire | .flowOff => none

def asks (todo : List (Stmt P)) : List (Req P) := todo.filterMap Stmt.ask

/-- The function comes to its end with the return value that it is declared with. -/
def Call.returns : Call P → Bool
  | .buy .. | .sell .. | .sellShort .. | .buy2Cover .. => false
  | _ => true

def callOf (_ : State P) : Action P → Option (Call P)
  | .call c => some c
  | _ => none

/-- The step is a Req call of the API, with `++_req_id`. -/
def requestOf (s : State P) : Action P → Option (Int32 × Req P)
  | .send _ => (s.todo.head?.bind Stmt.ask).map fun r => (s.reqId + 1, r)
  | _ => none

def repeats (s : State P) : Action P → Bool
  | .send ret => match s.todo with
    | .retry _ :: _ => ret ≠ 0 ∧ (lookup REQ_ERRORS ret).isSome
    | _ => false
  | _ => false

/-- The request is made for the last time. -/
def madeOf (s : State P) (a : Action P) : Option (Req P) :=
  if repeats s a then none else (requestOf s a).map Prod.snd

section logs
variable (h : List (State P × Action P))

def calls : List (Call P) := Machine.log callOf h
def requests : List (Int32 × Req P) := Machine.log requestOf h
def made : List (Req P) := Machine.log madeOf h
end logs

theorem made_sublist (h : List (State P × Action P)) :
    (made h).Sublist ((requests h).map Prod.snd) := by
  induction h with
  | nil => exact .refl _
  | cons x h ih =>
    cases asked : requestOf x.1 x.2 with
    | none => simpa [made, requests, Machine.log, madeOf, asked] using ih
    | some y =>
      by_cases again : repeats x.1 x.2 = true
      · simpa [made, requests, Machine.log, madeOf, asked, again] using ih.cons y.2
      · simpa [made, requests, Machine.log, madeOf, asked, again] using ih

end

section
variable {P : Type} [Zero P] {B : Permits.Semaphore} {cfg : Config} {s t : State P} {a : Action P}
  {h : List (State P × Action P)}

theorem asks_after_retry {c : Call P} {r : Req P} {earlier rest : List (Stmt P)}
    (body : c.body cfg = earlier ++ .retry r :: rest) : asks rest = [] := by
  have member : Stmt.retry r ∈ c.body cfg := by simp [body]
  cases c with
  | qryDepthMarketData symbol =>
    have shape : [.retry (.qryDepthMarketData symbol), .acquire] = earlier ++ .retry r :: rest :=
      body
    cases earlier with
    | nil =>
      cases shape
      rfl
    | cons first later =>
      have tail : [Stmt.acquire] = later ++ .retry r :: rest := (List.cons.inj shape).2
      cases later with
      | nil => cases tail
      | cons second later => simp at tail
  | qryInstrument exchangeIds =>
    simp only [Call.body, qryInstrument] at member
    split at member <;> simp at member
  | _ => simp [Call.body, start, settlementInfo, qryInvestorPosition, qryTradingAccount,
      orderAction, qryExchange, qryProduct, qryInstrumentCommissionRate,
      qryInstrumentOrderCommRate, buy, sell, sellShort, buy2Cover, orderInsert] at member

def Within (cfg : Config) (todo : List (Stmt P)) : Prop :=
  todo = [] ∨ ∃ c : Call P, todo <:+ c.body cfg

theorem Within.rest {first : Stmt P} {rest : List (Stmt P)} (within : Within cfg (first :: rest)) :
    Within cfg rest := by
  rcases within with none | ⟨c, suffix⟩
  · cases none
  · exact .inr ⟨c, (List.suffix_cons first rest).trans suffix⟩

theorem Within.asks_rest {r : Req P} {rest : List (Stmt P)}
    (within : Within cfg (.retry r :: rest)) : asks rest = [] := by
  rcases within with none | ⟨c, earlier, same⟩
  · cases none
  · exact asks_after_retry same.symm

theorem Step.within (step : Step B cfg s a t) (within : Within cfg s.todo) : Within cfg t.todo := by
  cases step with
  | call c | runsOn c => exact .inr ⟨c, List.suffix_rfl⟩
  | init rest todo | req r rest ret code todo | succeed r rest todo | acquire rest todo held
  | returns rest todo =>
    rw [todo] at within
    exact within.rest
  | throw => exact .inl rfl
  | _ => exact within

theorem body_returns {c : Call P} (returns : c.returns = true) : .flowOff ∉ c.body cfg := by
  cases c with
  | qryInstrument exchangeIds =>
    simp only [Call.body, qryInstrument]
    split <;> simp
  | buy | sell | sellShort | buy2Cover => cases returns
  | _ => simp [Call.body, start, settlementInfo, qryInvestorPosition, qryTradingAccount,
      orderAction, qryExchange, qryProduct, qryInstrumentCommissionRate,
      qryInstrumentOrderCommRate, qryDepthMarketData]

theorem Step.returns_kept (step : Step B cfg s a t) (ends : .flowOff ∉ s.todo)
    (returns : ∀ c ∈ callOf s a, c.returns = true) : .flowOff ∉ t.todo := by
  cases step with
  | call c => exact body_returns (returns c rfl)
  | init rest todo | req r rest ret code todo | succeed r rest todo | acquire rest todo held
  | returns rest todo =>
    rw [todo] at ends
    exact fun member => ends (List.mem_cons_of_mem _ member)
  | runsOn c rest todo => exact absurd (by simp [todo]) ends
  | throw => simp
  | _ => exact ends

theorem Step.asks (step : Step B cfg s a t) (within : Within cfg s.todo)
    (ends : .flowOff ∉ s.todo) :
    (madeOf s a).toList ++ CtpTd.asks t.todo =
      CtpTd.asks s.todo ++ (callOf s a).toList.flatMap fun c => CtpTd.asks (c.body cfg) := by
  cases step with
  | call c idle first => simp [madeOf, repeats, requestOf, callOf, idle, CtpTd.asks]
  | again r rest ret code todo known =>
    have nonzero : ret ≠ 0 := by omega
    simp [madeOf, repeats, callOf, todo, known, nonzero, State.request]
  | throw r rest ret code todo unknown =>
    rw [todo] at within
    have none := within.asks_rest
    unfold CtpTd.asks at none
    simp [madeOf, repeats, requestOf, callOf, todo, unknown, CtpTd.asks, Stmt.ask, none]
  | init rest todo | acquire rest todo | returns rest todo =>
    rw [todo]
    simp [madeOf, repeats, requestOf, callOf, CtpTd.asks, Stmt.ask, List.filterMap_cons]
  | runsOn c rest todo => exact absurd (by simp [todo]) ends
  | _ => simp [madeOf, repeats, requestOf, callOf, CtpTd.asks, Stmt.ask, *]

theorem Step.numbered (step : Step B cfg s a t) :
    t.reqId = s.reqId + Int32.ofNat (requestOf s a).toList.length ∧
      ∀ x ∈ requestOf s a, x.1 = s.reqId + 1 := by
  cases step with
  | req r rest ret code todo | succeed r rest todo | again r rest ret code todo
  | throw r rest ret code todo => simp [requestOf, todo, Stmt.ask, State.request]
  | _ => simp [requestOf]

theorem within_reachable (reach : (client B cfg).Reachable s) : Within cfg s.todo := by
  apply Machine.Reachable.invariant (M := client B cfg) (Within cfg ·.todo) (.inl rfl) ?_ reach
  exact fun s a t _ within step => (step_cases step).within within

theorem ends_run (run : (client B cfg).Run h s) (returns : ∀ c ∈ calls h, c.returns = true) :
    .flowOff ∉ s.todo := by
  induction run with
  | start => exact List.not_mem_nil
  | next run step ih =>
    simp only [calls, Machine.log_snoc, List.forall_mem_append] at returns
    exact (step_cases step).returns_kept (ih returns.1) (by simpa using returns.2)

theorem made_run (run : (client B cfg).Run h s) (returns : ∀ c ∈ calls h, c.returns = true) :
    made h ++ asks s.todo = (calls h).flatMap fun c => asks (c.body cfg) := by
  induction run with
  | start => rfl
  | next run step ih =>
    have earlier := returns
    simp only [calls, Machine.log_snoc, List.forall_mem_append] at earlier
    have known := ih earlier.1
    have next := (step_cases step).asks (within_reachable run.reachable) (ends_run run earlier.1)
    simp only [made, calls, Machine.log_snoc, List.flatMap_append] at known ⊢
    rw [← known, List.append_assoc, next, List.append_assoc]

theorem numbered_run (run : (client B cfg).Run h s) :
    s.reqId = Int32.ofNat (requests h).length ∧
      (requests h).map Prod.fst = (List.range' 1 (requests h).length).map Int32.ofNat := by
  apply Machine.Run.invariant (M := client B cfg)
    (fun h s => s.reqId = Int32.ofNat (requests h).length ∧
      (requests h).map Prod.fst = (List.range' 1 (requests h).length).map Int32.ofNat)
    ⟨rfl, rfl⟩ ?_ run
  intro h s a t _ ⟨count, ids⟩ step
  obtain ⟨more, id⟩ := (step_cases step).numbered
  simp only [requests, Machine.log_snoc, List.length_append] at count ids ⊢
  refine ⟨by rw [more, count, Int32.ofNat_add], ?_⟩
  rw [List.map_append, ids]
  cases asked : requestOf s a with
  | none => simp
  | some x =>
    have same : x.1 = s.reqId + 1 := id x asked
    simp [List.range'_concat, same, count, Int32.add_comm]

/-- The ids fit an int, and every function called has its return value. Then the requests are
    made in the order in which they stand, one call after the other, that of QryDepthMarketData
    until the API takes it or at() throws; and every request, repeated ones too, has an id of
    its own. -/
theorem requests_in_order {s : State P} (run : (client B cfg).Run h s)
    (returns : ∀ c ∈ calls h, c.returns = true) (few : (requests h).length < 2 ^ 31) :
    made h ++ asks s.todo = (calls h).flatMap (fun c => asks (c.body cfg)) ∧
      (requests h).map (fun x => x.1.toInt) =
        (List.range' 1 (requests h).length).map Nat.cast ∧
      (made h).Sublist ((requests h).map Prod.snd) := by
  refine ⟨made_run run returns, ?_, made_sublist h⟩
  have fits : ∀ k ∈ List.range' 1 (requests h).length, (Int32.ofNat k).toInt = (k : Int) := by
    intro k member
    have below := (List.mem_range'_1.mp member).2
    exact Int32.toInt_ofNat_of_lt (by omega)
  calc (requests h).map (fun x => x.1.toInt)
    _ = ((requests h).map Prod.fst).map Int32.toInt := by rw [List.map_map]; rfl
    _ = (List.range' 1 (requests h).length).map fun k => (Int32.ofNat k).toInt := by
        rw [(numbered_run run).2, List.map_map]
        rfl
    _ = _ := List.map_congr_left fits

end

theorem retried_in_order :
    let h := ttsClient.steps ttsClient.init retried
    (requests h).map (fun x => x.1.toInt) = [1, 2, 3, 4] ∧ (made h).length = 3 ∧
      ∃ s : State Int, made h ++ asks s.todo = (calls h).flatMap (fun c => asks (c.body tts)) ∧
        (requests h).map (fun x => x.1.toInt) =
          (List.range' 1 (requests h).length).map Nat.cast ∧
        (made h).Sublist ((requests h).map Prod.snd) :=
  ⟨by decide, by decide, _, requests_in_order (Machine.run_get (M := ttsClient)
    (by decide : (ttsClient.exec ttsClient.init retried).isSome = true)) (by decide) (by decide)⟩

end CtpTd
