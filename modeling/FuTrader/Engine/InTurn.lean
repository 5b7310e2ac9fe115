import FuTrader.Engine.Origins

/- The orders of one strategy as the order socket sees them, with an atomic onTick. As long as
   none of them is returned while an earlier one has no ticket, and none is refused, they are
   the first of those that onTick returned, with none missing. -/

namespace FuTrader

theorem InTurn.of_append {held : Option DirectionType} {orders later : List Order}
    (inTurn : InTurn held (orders ++ later)) : InTurn held orders := by
  induction orders generalizing held with
  | nil => trivial
  | cons order rest ih =>
    cases held with
    | none => exact ⟨inTurn.1, ih inTurn.2⟩
    | some direction => exact ⟨inTurn.1, inTurn.2.1, ih inTurn.2.2⟩

def lotOf : Option DirectionType → Int
  | none => 0
  | some .BUY => 1
  | some .SELL => -1

theorem InTurn.net_small {held : Option DirectionType} {orders : List Order}
    (inTurn : InTurn held orders) (lots : ∀ order ∈ orders, order.volume = 1) :
    Trader.Small (lotOf held + net orders) := by
  induction orders generalizing held with
  | nil => cases held with
    | none => simp [net, lotOf, Trader.Small]
    | some direction => cases direction <;> simp [net, lotOf, Trader.Small]
  | cons order rest ih =>
    have one : order.volume = 1 := lots order (by simp)
    have more : ∀ o ∈ rest, o.volume = 1 := fun o member => lots o (by simp [member])
    have first : net (order :: rest) = order.signed + net rest := by simp [net]
    rw [first, ← add_assoc]
    cases held with
    | none =>
      have later := ih inTurn.2 more
      have signed : lotOf none + order.signed = lotOf (some order.direction) := by
        cases way : order.direction <;> simp [lotOf, Order.signed, way, one]
      rwa [signed]
    | some direction =>
      obtain ⟨_, back, inTurn⟩ := inTurn
      have later := ih inTurn more
      have signed : lotOf (some direction) + order.signed = lotOf none := by
        cases direction <;> simp [lotOf, Order.signed, back, DirectionType.opposite, one]
      rwa [signed]

end FuTrader

namespace Mpsc
variable {κ T : Type} {B : BufSize} {P : Nat}

theorem drawing_kept [DecidableEq κ] {C : Counters κ B} {E : Element T} {s t : State κ T B P}
    {a : Action T P} (step : Step C E s a t) {j : Fin P}
    (draws : (s.producer j).drawing = true) :
    (t.producer j).drawing = true ∨
      a = .producer j ∧ ((∃ x, ticketOf s a = some x) ∨ ∃ u, refuseOf C s a = some u) := by
  have other : ∀ {i : Fin P} {p : Producer κ T}, j ≠ i →
      (Function.update s.producer i p j).drawing = true := fun apart => by
    rw [Function.update_of_ne apart]
    exact draws
  cases step with
  | refuse i u curHead pc full =>
    by_cases here : j = i
    · subst here
      exact .inr ⟨rfl, .inr ⟨u, refuseOf_eq_some_iff.mpr ⟨j, curHead, rfl, pc, full⟩⟩⟩
    · exact .inl (other here)
  | ticket i u curHead curTail pc =>
    by_cases here : j = i
    · subst here
      exact .inr ⟨rfl, .inl ⟨(j, u), by simp [ticketOf, pc]⟩⟩
    · exact .inl (other here)
  | push i u pc | pass i u curHead pc =>
    by_cases here : j = i
    · exact .inl (by simp [here, Producer.drawing])
    · exact .inl (other here)
  | turn i u pos pc | busy i u pos pc | park i u pos seqVal pc | changed i u pos seqVal pc
  | write i u pos pc | publish i u pos pc | spurious i u pos seqVal pc
  | wake i k pos value u q seqVal _ pc =>
    by_cases here : j = i
    · subst here
      rw [pc] at draws
      cases draws
    · exact .inl (other here)
  | pop | empty | ready | read | free | nobody | advance => exact .inl draws

end Mpsc

namespace CtaEngine
open FuTrader
variable {F S : Type} {W : ThreadNum}

theorem unticketed_stays {s t : State F S W} {v : Fin W.val} {x : Object × Order}
    (holds : s.unticketed v = some x) (worker : t.worker v = s.worker v)
    (draws : (s.channel.producer v).drawing = true → (t.channel.producer v).drawing = true) :
    t.unticketed v = some x := by
  unfold State.unticketed at *
  rw [worker]
  cases pc : s.worker v with
  | pushing tick j order =>
    rw [pc] at holds
    by_cases drawing : (s.channel.producer v).drawing = true
    · simpa [drawing, draws drawing] using holds
    · simp [drawing] at holds
  | push tick j order => simpa [pc] using holds
  | _ => simp [pc] at holds

theorem Step.unticketed_next {onTick : S → TickData F → S × Option Order} {s t : State F S W}
    {a : Action F W} (step : Step onTick s a t) {v : Fin W.val} {x : Object × Order}
    (holds : s.unticketed v = some x) :
    t.unticketed v = some x ∨ issueOf s a = some x ∨ Drops s a ∧ a = .worker v := by
  have kept : ∀ {b : Mpsc.Action Order W.val}
      {c : Mpsc.State Mpsc.SizeT Order channelSize W.val}, Moves s b c → b ≠ .producer v →
      (s.channel.producer v).drawing = true → (c.producer v).drawing = true := by
    intro b c moves other draws
    rcases Mpsc.drawing_kept (Mpsc.step_cases moves) draws with still | ⟨mine, _⟩
    · exact still
    · exact absurd mine other
  have leaves : ∀ {tick j order} {c : Mpsc.State Mpsc.SizeT Order channelSize W.val} {w},
      s.worker w = .pushing tick j order → Moves s (.producer w) c →
      (c.producer v).drawing = true ∨ v ≠ w ∨
        issueOf s (.worker w) = some x ∨
          Drops s (.worker w) ∧ (.worker w : Action F W) = .worker v := by
    intro tick j order c w pc moves
    by_cases here : v = w
    · subst here
      have act : channelAct s (.worker v) = some (.producer v) := by simp [channelAct, pc]
      have mine : (s.channel.producer v).drawing = true ∧ ((key tick, j), order) = x := by
        simpa [State.unticketed, pc] using holds
      rcases Mpsc.drawing_kept (Mpsc.step_cases moves) mine.1 with still | ⟨_, ⟨y, drawn⟩ | refused⟩
      · exact .inl still
      · exact .inr (.inr (.inl (by simp [issueOf, pc, drawn, mine.2])))
      · exact .inr (.inr (.inr ⟨(drops_iff s _).mpr (by simpa [act] using refused), rfl⟩))
    · exact .inr (.inl here)
  cases step with
  | push w tick j order c pc moves =>
    by_cases here : v = w
    · subst here
      have mine : ((key tick, j), order) = x := by simpa [State.unticketed, pc] using holds
      have step := Mpsc.step_cases moves
      cases step
      exact .inl (by simp [State.unticketed, Mpsc.Producer.drawing, mine])
    · exact .inl (unticketed_stays holds (by simp [here]) (kept moves (by simp)))
  | pushing w tick j order c pc moves inside =>
    rcases leaves pc moves with still | apart | gone
    · exact .inl (unticketed_stays holds rfl fun _ => still)
    · exact .inl (unticketed_stays holds rfl (kept moves (by simp [Ne.symm apart])))
    · exact .inr gone
  | pushed w tick j order c result pc moves returns =>
    by_cases here : v = w
    · subst here
      have draws : (s.channel.producer v).drawing = true := by
        by_contra idle
        simp [State.unticketed, pc, idle] at holds
      refine .inr (.inr ?_)
      cases at_ : s.channel.producer v with
      | loadTail u curHead =>
        have full : channelSize.sizeT.full curHead s.channel.tail = true := by
          simpa [Mpsc.pushResult, at_] using (Option.isSome_iff_exists.mpr ⟨_, returns⟩)
        exact ⟨⟨v, u, curHead, by simp [channelAct, pc], at_, of_decide_eq_true full⟩, rfl⟩
      | fetchAdd u curHead curTail => simp [Mpsc.pushResult, at_] at returns
      | _ => simp [at_, Mpsc.Producer.drawing] at draws
    · exact .inl (unticketed_stays holds (by simp [here]) (kept moves (by simp [Ne.symm here])))
  | run w k tick pc | missing w tick pc | found w tick stgs pc | last w tick j pc
  | call w tick j stg pc | silent w tick j stg pc | emit w tick j stg order pc =>
    by_cases here : v = w
    · subst here
      simp [State.unticketed, pc] at holds
    · exact .inl (unticketed_stays holds (by simp [here]) id)
  | spurious w c moves | pop c pc moves | popping c pc moves | empty c pc moves
  | taken c order pc moves | notify w c moves =>
    exact .inl (unticketed_stays holds rfl (kept moves (by simp)))
  | launch | loop | drained | finish | recv | stop | again | send | woken => exact .inl holds

def Refuses (o : Object) (s : State F S W) (a : Action F W) : Prop :=
  Drops s a ∧ ∃ v order, a = .worker v ∧ s.unticketed v = some (o, order)

/-- The tickets of `o` are those of all its orders, but for the one on its way. -/
structure Complete (onTick : S → TickData F → S × Option Order) (o : Object)
    (h : List (State F S W × Action F W)) (s : State F S W) : Prop where
  next : ∀ v order, s.unticketed v = some (o, order) →
    byObject o (tickets h) ++ [order] = emittedBy onTick o h
  rest : (∀ v order, s.unticketed v ≠ some (o, order)) →
    byObject o (tickets h) = emittedBy onTick o h

section step
variable {onTick : S → TickData F → S × Option Order} {o : Object}
  {h : List (State F S W × Action F W)} {s t : State F S W} {a : Action F W}

theorem Step.unticketed_new (step : Step onTick s a t) {x : Object × Order}
    (emits : emitOf onTick s a = some x) : ∃ v, t.unticketed v = some x := by
  cases step with
  | emit w tick j stg order pc present given =>
    refine ⟨w, ?_⟩
    simpa [State.unticketed, emitOf, pc, present, given] using emits
  | silent w tick j stg pc present none => simp [emitOf, pc, present, none] at emits
  | _ => simp [emitOf, *] at emits

theorem Complete.emit (known : Complete onTick o h s) (apart : ¬ Crowds onTick o s a)
    (step : Step onTick s a t) {order : Order} (emits : emitOf onTick s a = some (o, order)) :
    Complete onTick o (h ++ [(s, a)]) t := by
  have fresh : ∀ v x, s.unticketed v ≠ some (o, x) := fun v x holds =>
    apart ⟨by rw [emits]; rfl, v, by rw [holds]; rfl⟩
  have all := known.rest fresh
  have issues : byObject o (issueOf s a).toList = [] := by
    rw [issueOf_of_emitOf emits]
    rfl
  constructor
  · intro v x holds
    rcases step.unticketed holds with old | ⟨now, _⟩
    · exact absurd old (fresh v x)
    · rw [now] at emits
      cases emits
      rw [tickets_snoc, emittedBy_snoc, issues, now, Option.toList_some, byObject_self,
        List.append_nil, all]
  · intro none
    obtain ⟨v, new⟩ := step.unticketed_new emits
    exact absurd new (none v order)

theorem Complete.issue (known : Complete onTick o h s) (inOrder : InOrder onTick o h s)
    (step : Step onTick s a t) (silent : ∀ order, emitOf onTick s a ≠ some (o, order))
    {order : Order} (issues : issueOf s a = some (o, order)) :
    Complete onTick o (h ++ [(s, a)]) t := by
  obtain ⟨v, held, gone⟩ := step.issued issues
  constructor
  · intro w x holds
    have same := inOrder.one w v x order (step.unticketed_old silent holds) held
    rw [same, gone] at holds
    cases holds
  · intro _
    rw [tickets_snoc, emittedBy_snoc, issues, byObject_other silent, Option.toList_some,
      byObject_self, List.append_nil]
    exact known.next v order held

theorem Complete.quiet (known : Complete onTick o h s) (kept : ¬ Refuses o s a)
    (step : Step onTick s a t) (silent : ∀ order, emitOf onTick s a ≠ some (o, order))
    (other : ∀ order, issueOf s a ≠ some (o, order)) : Complete onTick o (h ++ [(s, a)]) t := by
  have tickets : byObject o (tickets (h ++ [(s, a)])) = byObject o (tickets h) := by
    rw [tickets_snoc, byObject_other other, List.append_nil]
  have emitted : emittedBy onTick o (h ++ [(s, a)]) = emittedBy onTick o h := by
    rw [emittedBy_snoc, byObject_other silent, List.append_nil]
  constructor
  · intro v order holds
    rw [tickets, emitted]
    exact known.next v order (step.unticketed_old silent holds)
  · intro none
    rw [tickets, emitted]
    refine known.rest fun v order holds => ?_
    rcases step.unticketed_next holds with still | issued | dropped
    · exact none v order still
    · exact other order issued
    · exact kept ⟨dropped.1, v, order, dropped.2, holds⟩

theorem Complete.step (known : Complete onTick o h s) (inOrder : InOrder onTick o h s)
    (apart : ¬ Crowds onTick o s a) (kept : ¬ Refuses o s a) (step : Step onTick s a t) :
    Complete onTick o (h ++ [(s, a)]) t := by
  by_cases emits : ∃ order, emitOf onTick s a = some (o, order)
  · obtain ⟨order, emits⟩ := emits
    exact known.emit apart step emits
  · rw [not_exists] at emits
    by_cases issues : ∃ order, issueOf s a = some (o, order)
    · obtain ⟨order, issues⟩ := issues
      exact known.issue inOrder step emits issues
    · rw [not_exists] at issues
      exact known.quiet kept step emits issues

end step

theorem complete_run {onTick : S → TickData F → S × Option Order} {added : List (Symbol × S)}
    (o : Object) {h : List (State F S W × Action F W)} {s : State F S W}
    (run : (machine onTick W added).Run h s) (apart : ∀ x ∈ h, ¬ Crowds onTick o x.1 x.2)
    (kept : ∀ x ∈ h, ¬ Refuses o x.1 x.2) : Complete onTick o h s := by
  apply Machine.Run.invariant (M := machine onTick W added)
    (fun h s => (∀ x ∈ h, ¬ Crowds onTick o x.1 x.2) → (∀ x ∈ h, ¬ Refuses o x.1 x.2) →
      Complete onTick o h s) ?_ ?_ run apart kept
  · intro _ _
    exact ⟨fun v order holds => (by cases holds), fun _ => rfl⟩
  intro h s a t run known step apart kept
  have before : ∀ x ∈ h, ¬ Crowds onTick o x.1 x.2 := fun x member => apart x (by simp [member])
  exact (known before fun x member => kept x (by simp [member])).step (inOrder_run o run before)
    (apart (s, a) (by simp)) (kept (s, a) (by simp)) (step_cases step)

/-- The tickets of `o`, and so the orders sent for it, are the first ones it returned. -/
theorem sentBy_prefix {onTick : S → TickData F → S × Option Order} {added : List (Symbol × S)}
    (o : Object) {h : List (State F S W × Action F W)} {s : State F S W}
    (run : (machine onTick W added).Run h s) (apart : ∀ x ∈ h, ¬ Crowds onTick o x.1 x.2)
    (kept : ∀ x ∈ h, ¬ Refuses o x.1 x.2) : sentBy o h <+: emittedBy onTick o h := by
  have complete := complete_run o run apart kept
  have taken : sentBy o h <+: byObject o (tickets h) := (List.take_prefix _ _).filterMap _
  refine taken.trans ?_
  by_cases waiting : ∃ v order, s.unticketed v = some (o, order)
  · obtain ⟨v, order, holds⟩ := waiting
    exact ⟨[order], complete.next v order holds⟩
  · simp only [not_exists] at waiting
    rw [complete.rest waiting]

theorem emittedBy_in_turn {F : Type} [CMath F] {W : ThreadNum}
    {added : List (Symbol × CtaStrategy F)} (fresh : ∀ x ∈ added, x.2.Fresh)
    {h : List (State F (CtaStrategy F) W × Action F W)} {s : State F (CtaStrategy F) W}
    (run : (machine CtaStrategy.onTick W added).Run h s) (o : Object) :
    InTurn none (emittedBy CtaStrategy.onTick o h) ∧
      ∀ order ∈ emittedBy CtaStrategy.onTick o h, order.volume = 1 := by
  cases present : (init W added : State F (CtaStrategy F) W).strategy o with
  | none =>
    have nothing : emittedBy CtaStrategy.onTick o h = [] := by
      rw [List.eq_nil_iff_forall_not_mem]
      intro order member
      obtain ⟨x, emits, mine⟩ := List.mem_filterMap.mp member
      obtain ⟨stg, there, _⟩ := emitted_present run emits
      have same : x.1 = o := by
        by_contra other
        simp [other] at mine
      rw [same, present] at there
      cases there
    simp [nothing, InTurn]
  | some stg =>
    have new := fresh _ (mem_added present)
    rw [(alone_run present run).orders]
    constructor
    · have inTurn := CtaStrategy.trader.inTurn_run stg (returnedOn o h)
      rwa [show CtaStrategy.trader.position stg = 0 from new.flat] at inTurn
    · intro order member
      obtain ⟨tick, _, of⟩ := stg.orders_orderOf _ order member
      rw [of.volume, new.one_lot]

/-- With an atomic onTick, what is sent for a strategy opens and closes in turn, and adds up
    to one lot at most at every moment, if no order of it is returned while an earlier one has
    no ticket and the channel refuses none of them. -/
theorem sent_in_turn {F : Type} [CMath F] {W : ThreadNum}
    {added : List (Symbol × CtaStrategy F)} (fresh : ∀ x ∈ added, x.2.Fresh)
    {h : List (State F (CtaStrategy F) W × Action F W)} {s : State F (CtaStrategy F) W}
    (run : (machine CtaStrategy.onTick W added).Run h s) (o : Object)
    (apart : ∀ x ∈ h, ¬ Crowds CtaStrategy.onTick o x.1 x.2) (kept : ∀ x ∈ h, ¬ Refuses o x.1 x.2) :
    InTurn none (sentBy o h) ∧ Trader.Small (net (sentBy o h)) := by
  obtain ⟨later, whole⟩ := sentBy_prefix o run apart kept
  have traded := emittedBy_in_turn fresh run o
  have inTurn : InTurn none (sentBy o h) := by
    have inTurn := traded.1
    rw [← whole] at inTurn
    exact inTurn.of_append
  have small := inTurn.net_small fun order member =>
    traded.2 order (by rw [← whole]; exact List.mem_append_left _ member)
  rw [lotOf, zero_add] at small
  exact ⟨inTurn, small⟩

def openThenClose : List (Action Price twoWorkers) :=
  [.main, .main, .recv (some (priceTick [97] 10)), .main, .recv (some (priceTick [97] 5)), .main,
    .run 0 0] ++ List.replicate 12 (.worker 0) ++ [.run 0 0] ++ List.replicate 9 (.worker 0) ++
    List.replicate 16 .pusher

theorem openThenClose_in_turn :
    let h := threeOnTwo.steps threeOnTwo.init openThenClose
    (sentBy ([97], 0) h).map Order.offset = [.OPEN, .CLOSE] ∧
      InTurn none (sentBy ([97], 0) h) ∧ Trader.Small (net (sentBy ([97], 0) h)) :=
  ⟨by decide +kernel,
    sent_in_turn threeStrategies_fresh (Machine.run_get (by decide +kernel)) ([97], 0)
      (by decide +kernel) fun x member refuses =>
        (dropped_eq_nil_iff _).mp (by decide +kernel) x member refuses.1⟩

end CtaEngine
