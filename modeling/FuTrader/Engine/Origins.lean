import FuTrader.Engine.Positions
import FuTrader.Engine.Routing

/- Where the orders that are sent come from, field by field, with an atomic onTick. -/

namespace FuTrader
variable {F : Type} [CMath F]

structure OrderOf (stg : CtaStrategy F) (tick : TickData F) (order : Order) : Prop where
  stgName : order.stgName = stg.stgName
  volume : order.volume = stg.lots
  symbol : order.symbol = tick.symbol
  timestamp : order.timestamp = tick.stamp

theorem CtaStrategy.onTick_orderOf (stg : CtaStrategy F) (tick : TickData F) :
    ∀ order ∈ (stg.onTick tick).2, OrderOf stg tick order := by
  intro order given
  have name := (stg.onTick_stgName tick).2 order given
  have answer := CtaStrategy.trader.answers stg tick
  rw [show (CtaStrategy.trader.onTick stg tick).2 = some order from given] at answer
  generalize CtaStrategy.trader.position (CtaStrategy.trader.onTick stg tick).1 = next at answer
  generalize CtaStrategy.trader.position stg = now at answer
  cases answer with
  | order _ trade volume carries =>
    obtain ⟨symbol, timestamp⟩ := carries order rfl
    exact ⟨name, volume, symbol, timestamp⟩

theorem CtaStrategy.orders_orderOf (stg : CtaStrategy F) (ticks : List (TickData F)) :
    ∀ order ∈ orders CtaStrategy.onTick stg ticks, ∃ tick ∈ ticks, OrderOf stg tick order := by
  induction ticks generalizing stg with
  | nil => simp [orders, returned]
  | cons tick ticks ih =>
    intro order member
    rw [orders_cons] at member
    rcases List.mem_append.mp member with now | later
    · exact ⟨tick, by simp, stg.onTick_orderOf tick order (Option.mem_toList.mp now)⟩
    · obtain ⟨tick', among, of⟩ := ih (stg.onTick tick).1 order later
      refine ⟨tick', List.mem_cons_of_mem _ among, ?_, ?_, of.symbol, of.timestamp⟩
      · rw [of.stgName, (stg.onTick_stgName tick).1]
      · exact of.volume.trans (CtaStrategy.trader.kept stg tick)

end FuTrader

namespace CtaEngine
open FuTrader
variable {F S : Type} {W : ThreadNum}

theorem emitted_present {onTick : S → TickData F → S × Option Order} {added : List (Symbol × S)}
    {h : List (State F S W × Action F W)} {s : State F S W}
    (run : (machine onTick W added).Run h s) {x : Object × Order} (member : x ∈ emitted onTick h) :
    ∃ stg, (init W added : State F S W).strategy x.1 = some stg ∧ (x.1.1, stg) ∈ added := by
  obtain ⟨y, among, emits⟩ := List.mem_filterMap.mp member
  have there : (y.1.strategy x.1).isSome = true := by
    cases act : y.2 with
    | worker w =>
      cases pc : y.1.worker w with
      | onTick tick j =>
        rw [act] at emits
        simp only [emitOf, pc] at emits
        obtain ⟨stg, present, given⟩ := Option.bind_eq_some_iff.mp emits
        obtain ⟨order, _, rfl⟩ := Option.map_eq_some_iff.mp given
        rw [present]
        rfl
      | _ => simp [act, emitOf, pc] at emits
    | _ => simp [act, emitOf] at emits
  rw [present_reachable (run.before among),
    ← present_reachable (Machine.reachable_init (machine onTick W added))] at there
  obtain ⟨stg, present⟩ := Option.isSome_iff_exists.mp there
  exact ⟨stg, present, mem_added present⟩

theorem mem_receivedBy {symbol : Symbol} {h : List (State F S W × Action F W)} {tick : TickData F} :
    tick ∈ receivedBy symbol h ↔ tick ∈ Machine.log recvOf h ∧ key tick = symbol := by
  simp [receivedBy, bySymbol]

/-- With an atomic onTick, an order that is sent is one lot, has the name of a strategy that
    was added for its symbol, and symbol and stamp of a tick that was received. -/
theorem sent_has_origin {F : Type} [CMath F] {W : ThreadNum}
    {added : List (Symbol × CtaStrategy F)} (fresh : ∀ x ∈ added, x.2.Fresh)
    {h : List (State F (CtaStrategy F) W × Action F W)} {s : State F (CtaStrategy F) W}
    (run : (machine CtaStrategy.onTick W added).Run h s) :
    ∀ order ∈ sent h, order.volume = 1 ∧
      (∃ x ∈ added, order.stgName = x.2.stgName ∧ cString order.symbol.toList = x.1) ∧
      ∃ tick ∈ Machine.log recvOf h, order.symbol = tick.symbol ∧ order.timestamp = tick.stamp := by
  intro order member
  have counted : order ∈ (orders CtaStrategy.onTick h : Multiset Order) := by
    rw [accounting run]
    simp [member]
  obtain ⟨⟨o, given⟩, emits, rfl⟩ := List.mem_map.mp (Multiset.mem_coe.mp counted)
  obtain ⟨stg, present, there⟩ := emitted_present run emits
  have mine : given ∈ emittedBy CtaStrategy.onTick o h :=
    List.mem_filterMap.mpr ⟨_, emits, by simp⟩
  rw [(alone_run present run).orders] at mine
  obtain ⟨tick, called, of⟩ := stg.orders_orderOf _ given mine
  have among := Multiset.mem_of_le (returned_received o run) (Multiset.mem_coe.mpr called)
  obtain ⟨received, symbol⟩ := mem_receivedBy.mp (Multiset.mem_coe.mp among)
  refine ⟨of.volume.trans (fresh _ there).one_lot, ⟨_, there, of.stgName, ?_⟩, tick, received,
    of.symbol, of.timestamp⟩
  rw [of.symbol]
  exact symbol

theorem refusedFirst_origin :
    (sent (threeOnTwo.steps threeOnTwo.init refusedFirst)).length = 1 ∧
      ∀ order ∈ sent (threeOnTwo.steps threeOnTwo.init refusedFirst), order.volume = 1 ∧
        (∃ x ∈ threeStrategies, order.stgName = x.2.stgName ∧
          cString order.symbol.toList = x.1) ∧
        ∃ tick ∈ Machine.log recvOf (threeOnTwo.steps threeOnTwo.init refusedFirst),
          order.symbol = tick.symbol ∧ order.timestamp = tick.stamp :=
  ⟨by decide +kernel, sent_has_origin threeStrategies_fresh (Machine.run_get (by decide +kernel))⟩

end CtaEngine
