import FuTrader.Engine.Strategies
import Mathlib.Algebra.BigOperators.Group.List.Lemmas

/- What became of the orders behind the positions that the strategies hold to be theirs, with
   an atomic onTick. -/
namespace CtaEngine
open FuTrader
variable {F S : Type} {W : ThreadNum}

/-- The orders of one symbol, BUY counted up and SELL down. -/
def netOf (symbol : Symbol) (orders : Multiset Order) : Int :=
  ((orders.filter fun order => cString order.symbol.toList = symbol).map Order.signed).sum

theorem netOf_add (symbol : Symbol) (a b : Multiset Order) :
    netOf symbol (a + b) = netOf symbol a + netOf symbol b := by
  simp [netOf, Multiset.filter_add]

theorem netOf_one (symbol : Symbol) (order : Order) :
    netOf symbol {order} = if cString order.symbol.toList = symbol then order.signed else 0 := by
  by_cases same : cString order.symbol.toList = symbol <;>
    simp [netOf, Multiset.filter_singleton, same]

def State.position (T : Trader F S) (s : State F S W) (symbol : Symbol) : Int :=
  (((s.stgMap symbol).getD []).map T.position).sum

theorem position_setStrategy (T : Trader F S) (s : State F S W) (o : Object) {old : S}
    (present : s.strategy o = some old) (stg : S) (symbol : Symbol) :
    (s.setStrategy o stg).position T symbol =
      s.position T symbol + if o.1 = symbol then T.position stg - T.position old else 0 := by
  obtain ⟨stgs, found, place⟩ := Option.bind_eq_some_iff.mp present
  by_cases here : o.1 = symbol
  · subst here
    obtain ⟨inside, rfl⟩ := List.getElem?_eq_some_iff.mp place
    simp [State.position, State.setStrategy, found, List.map_set, List.sum_set', inside]
    omega
  · simp [State.position, State.setStrategy, here, Ne.symm here]

def Lot (T : Trader F S) (stg : S) : Prop :=
  Trader.Small (T.position stg) ∧ T.lots stg = 1

theorem Lot.onTick {T : Trader F S} {stg : S} (lot : Lot T stg) (tick : TickData F) :
    Lot T (T.onTick stg tick).1 :=
  ⟨T.small_step lot.1 tick, (T.kept stg tick).trans lot.2⟩

theorem Lot.signed {T : Trader F S} {stg : S} (lot : Lot T stg) (tick : TickData F) :
    T.position (T.onTick stg tick).1 - T.position stg =
        (((T.onTick stg tick).2.map Order.signed).getD 0) ∧
      ∀ order ∈ (T.onTick stg tick).2, order.symbol = tick.symbol := by
  obtain ⟨small, one⟩ := lot
  have answer := T.answers stg tick
  rw [one] at answer
  generalize (T.onTick stg tick).2 = given at answer ⊢
  generalize T.position (T.onTick stg tick).1 = next at answer ⊢
  generalize T.position stg = now at answer small ⊢
  cases answer with
  | silent => simp
  | order o trade volume carries =>
    have moved := Trader.net_trade small trade
    rw [volume] at moved
    refine ⟨by simp [moved], ?_⟩
    rintro _ ⟨⟩
    exact (carries o rfl).1

theorem Step.position {T : Trader F S} {s t : State F S W} {a : Action F W}
    (step : Step T.onTick s a t) (lots : ∀ o stg, s.strategy o = some stg → Lot T stg)
    (symbol : Symbol) : t.position T symbol = s.position T symbol +
      netOf symbol ((emitOf T.onTick s a).toList.map Prod.snd : List Order) := by
  cases step with
  | silent w tick j stg pc present none =>
    obtain ⟨moved, _⟩ := (lots _ _ present).signed tick
    have emits : emitOf T.onTick s (.worker w) = Option.none := by
      simp [emitOf, pc, present, none]
    have after := position_setStrategy T s _ present (T.onTick stg tick).1 symbol
    rw [none, Option.map_none, Option.getD_none] at moved
    rw [moved, ite_self] at after
    simpa [emits, netOf, State.position] using after
  | emit w tick j stg order pc present some =>
    obtain ⟨moved, same⟩ := (lots _ _ present).signed tick
    have emits : emitOf T.onTick s (.worker w) = Option.some ((key tick, j), order) := by
      simp [emitOf, pc, present, some]
    have after := position_setStrategy T s _ present (T.onTick stg tick).1 symbol
    rw [some, Option.map_some, Option.getD_some] at moved
    rw [moved] at after
    have one := netOf_one symbol order
    rw [same order some] at one
    rw [emits]
    simp only [Option.toList_some, List.map_cons, List.map_nil, Multiset.coe_singleton]
    rw [one]
    exact after
  | _ => simp [emitOf, netOf, State.position, *]

theorem position_orders {T : Trader F S} {added : List (Symbol × S)}
    (lots : ∀ x ∈ added, Lot T x.2) (flat : ∀ x ∈ added, T.position x.2 = 0) (symbol : Symbol)
    {h : List (State F S W × Action F W)} {s : State F S W}
    (run : (machine T.onTick W added).Run h s) :
    s.position T symbol = netOf symbol (orders T.onTick h : Multiset Order) := by
  apply Machine.Run.invariant (M := machine T.onTick W added)
    (fun h s => s.position T symbol = netOf symbol (orders T.onTick h : Multiset Order)) ?_ ?_ run
  · have all := addStrategy_all symbol added fun _ => none
    rw [Option.getD_none, List.nil_append] at all
    change ((((init W added : State F S W).stgMap symbol).getD []).map T.position).sum = 0
    rw [show (((init W added : State F S W).stgMap symbol).getD []) = _ from all, List.map_map]
    apply List.sum_eq_zero
    intro p member
    obtain ⟨x, among, rfl⟩ := List.mem_map.mp member
    exact flat x (List.mem_of_mem_filter among)
  · intro h s a t run known step
    have each : ∀ o stg, s.strategy o = some stg → Lot T stg := fun o stg present =>
      strategies_keep (Lot T) lots (fun stg tick lot => lot.onTick tick) run.reachable present
    rw [(step_cases step).position each symbol, known, ← netOf_add]
    simp only [orders, emitted, Machine.log_snoc, List.map_append, Multiset.coe_add]

/-- With an atomic onTick, the strategies of a symbol hold to be theirs what was sent for it
    and what is still on its way, and also what the channel refused. -/
theorem positions_reconcile {F : Type} [CMath F] {W : ThreadNum}
    {added : List (Symbol × CtaStrategy F)} (fresh : ∀ x ∈ added, x.2.Fresh)
    {h : List (State F (CtaStrategy F) W × Action F W)} {s : State F (CtaStrategy F) W}
    (run : (machine CtaStrategy.onTick W added).Run h s) (symbol : Symbol) :
    s.position CtaStrategy.trader symbol = netOf symbol (sent h) +
      netOf symbol (s.hand + s.stored + s.held) + netOf symbol (dropped h) := by
  have lots : ∀ x ∈ added, Lot CtaStrategy.trader x.2 := fun x member =>
    ⟨.inr (.inl (fresh x member).flat), (fresh x member).one_lot⟩
  have total := position_orders (T := CtaStrategy.trader) lots
    (fun x member => (fresh x member).flat) symbol run
  rw [total, show (orders CtaStrategy.trader.onTick h : Multiset Order) = _ from accounting run,
    ← netOf_add, ← netOf_add]
  simp only [add_assoc]

/-! Worker 0 has loaded _head when the order of worker 1 goes through, and its own is
    refused: the DualThrust of symbol "a" holds a position that nobody was sent. -/

def priceTick (symbol : Symbol) (last : ℚ) : TickData Price :=
  { TickData.zero ⟨some 0⟩ with symbol := charArray 16 symbol, last := ⟨some last⟩ }

def threeStrategies : List (Symbol × CtaStrategy Price) :=
  [([97], .dualThrust .fresh), ([98], .dualThrust .fresh), ([97], .aberration .fresh)]

theorem threeStrategies_fresh : ∀ x ∈ threeStrategies, x.2.Fresh := by
  intro x member
  simp only [threeStrategies, List.mem_cons, List.not_mem_nil, or_false] at member
  rcases member with rfl | rfl | rfl
  · exact .dualThrust
  · exact .dualThrust
  · exact .aberration

abbrev threeOnTwo :
    Machine (State Price (CtaStrategy Price) twoWorkers) (Action Price twoWorkers) :=
  machine CtaStrategy.onTick twoWorkers threeStrategies

def refusedFirst : List (Action Price twoWorkers) :=
  [.main, .main, .recv (some (priceTick [97] 10)), .main, .recv (some (priceTick [98] 10)), .main,
    .run 0 0, .worker 0, .worker 0, .worker 0, .worker 0, .run 1 0] ++
    List.replicate 9 (.worker 1) ++ List.replicate 8 .pusher ++ [.worker 0]

theorem refusedFirst_reconciled :
    let h := threeOnTwo.steps threeOnTwo.init refusedFirst
    (netOf [97] (sent h), netOf [98] (sent h), netOf [97] (dropped h)) = (0, 1, 1) ∧
      ∃ s, threeOnTwo.exec threeOnTwo.init refusedFirst = some s ∧
        s.position CtaStrategy.trader [97] = netOf [97] (sent h) +
          netOf [97] (s.hand + s.stored + s.held) + netOf [97] (dropped h) :=
  ⟨by decide +kernel, _, (Option.some_get (by decide +kernel)).symm,
    positions_reconcile threeStrategies_fresh (Machine.run_get (by decide +kernel)) [97]⟩

end CtaEngine
