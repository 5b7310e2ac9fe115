import FuTrader.Engine.Accounting

/- In which order the orders of one strategy leave. onTick and push are two steps of a
   task, and what counts is who draws the next ticket. -/

namespace Mpsc
variable {κ T : Type} {B : BufSize} {P : Nat}

def Producer.drawing : Producer κ T → Bool
  | .loadTail _ _ | .fetchAdd _ _ _ => true
  | _ => false

theorem drawing_before [DecidableEq κ] {C : Counters κ B} {E : Element T} {s t : State κ T B P}
    {a : Action T P} (step : Step C E s a t) {j : Fin P}
    (draws : (t.producer j).drawing = true) :
    (∃ u, a = .push j u) ∨ (s.producer j).drawing = true := by
  cases step with
  | push i u pc =>
    by_cases here : j = i
    · exact Or.inl ⟨u, by rw [here]⟩
    · exact Or.inr (by simpa [here] using draws)
  | pass i u curHead pc room =>
    by_cases here : j = i
    · exact Or.inr (by rw [here, pc]; rfl)
    · exact Or.inr (by simpa [here] using draws)
  | refuse i u curHead pc | ticket i u curHead curTail pc | turn i u pos pc | busy i u pos pc
  | park i u pos seqVal pc | changed i u pos seqVal pc | write i u pos pc | publish i u pos pc
  | spurious i u pos seqVal pc | wake i k pos value u q seqVal pc parked =>
    by_cases here : j = i
    · simp [here, Producer.drawing] at draws
    · exact Or.inr (by simpa [here] using draws)
  | pop | empty | ready | read | free | nobody | advance => exact Or.inr draws

theorem drawn_after [DecidableEq κ] {C : Counters κ B} {E : Element T} {s t : State κ T B P}
    {i : Fin P} (step : Step C E s (.producer i) t) {x : Fin P × T}
    (draws : ticketOf s (.producer i) = some x) : (t.producer i).drawing = false := by
  cases step with
  | ticket i u curHead curTail pc => simp [Producer.drawing]
  | _ => simp [ticketOf, *] at draws

end Mpsc

namespace CtaEngine
open FuTrader
variable {F S : Type} {W : ThreadNum}

/-- The step is the fetch_add of a push: the order of this object gets the next ticket. -/
def issueOf (s : State F S W) : Action F W → Option (Object × Order)
  | .worker w => match s.worker w with
    | .pushing tick j order =>
      (Mpsc.ticketOf s.channel (.producer w)).map fun _ => ((key tick, j), order)
    | _ => none
  | _ => none

def tickets (h : List (State F S W × Action F W)) : List (Object × Order) :=
  Machine.log issueOf h

def byObject (o : Object) (l : List (Object × Order)) : List Order :=
  l.filterMap fun x => if x.1 = o then some x.2 else none

/-- The orders of one strategy object, as its onTick returned them and as they were sent. -/
def emittedBy (onTick : S → TickData F → S × Option Order) (o : Object)
    (h : List (State F S W × Action F W)) : List Order := byObject o (emitted onTick h)

def sentBy (o : Object) (h : List (State F S W × Action F W)) : List Order :=
  byObject o ((tickets h).take (sent h).length)

def State.unticketed (s : State F S W) (w : Fin W.val) : Option (Object × Order) :=
  match s.worker w with
  | .push tick j order => some ((key tick, j), order)
  | .pushing tick j order =>
    if (s.channel.producer w).drawing then some ((key tick, j), order) else none
  | _ => none

/-! The tickets are those of the channel. -/

theorem ticketed_value {s : State F S W} (aligned : Aligned s) (a : Action F W) :
    ((channelAct s a).bind (Mpsc.ticketOf s.channel)).map Prod.snd =
      (issueOf s a).map Prod.snd := by
  cases a with
  | worker w =>
    have held := aligned.producers w
    cases pc : s.worker w with
    | push tick j order => simp [channelAct, issueOf, pc, Mpsc.ticketOf]
    | pushing tick j order =>
      rw [pc] at held
      cases at_ : s.channel.producer w with
      | fetchAdd u curHead curTail =>
        rw [at_] at held
        have same : u = order := by simpa [Mpsc.Producer.held, Worker.inPush] using held
        simp [channelAct, issueOf, pc, Mpsc.ticketOf, at_, same]
      | _ => simp [channelAct, issueOf, pc, Mpsc.ticketOf, at_]
    | _ => simp [channelAct, issueOf, pc]
  | pusher => cases pc : s.pusher <;> simp [channelAct, issueOf, pc, Mpsc.ticketOf]
  | _ => simp [channelAct, issueOf, Mpsc.ticketOf]

theorem tickets_values {onTick : S → TickData F → S × Option Order} {added : List (Symbol × S)}
    {h : List (State F S W × Action F W)} {s : State F S W}
    (run : (machine onTick W added).Run h s) :
    (Mpsc.issued (channelPart h)).map Prod.snd = (tickets h).map Prod.snd := by
  rw [Mpsc.issued, channelPart, Machine.log_partOf, tickets, Machine.log_map_value,
    Machine.log_map_value]
  exact Machine.log_congr fun x member =>
    ticketed_value (aligned_reachable (run.before member)) x.2

theorem sent_tickets {onTick : S → TickData F → S × Option Order} {added : List (Symbol × S)}
    {h : List (State F S W × Action F W)} {s : State F S W}
    (run : (machine onTick W added).Run h s) :
    sent h = ((tickets h).take (sent h).length).map Prod.snd := by
  have popped := Mpsc.popped_sizeT (.inl (fits W)) (channel_run run)
  rw [tickets_values run, popped_run run] at popped
  rw [List.map_take]
  exact List.prefix_iff_eq_take.mp ((List.prefix_append _ _).trans popped)

/-! One step: who holds an order without a ticket. -/

theorem unticketed_kept {s t : State F S W} {v : Fin W.val} {x : Object × Order}
    (holds : t.unticketed v = some x) (worker : t.worker v = s.worker v)
    (draws : (t.channel.producer v).drawing = true → (s.channel.producer v).drawing = true) :
    s.unticketed v = some x := by
  unfold State.unticketed at *
  rw [worker] at holds
  cases pc : s.worker v with
  | pushing tick j order =>
    rw [pc] at holds
    by_cases drawing : (t.channel.producer v).drawing = true
    · simpa [drawing, draws drawing] using holds
    · simp [drawing] at holds
  | push tick j order => simpa [pc] using holds
  | _ => simp [pc] at holds

theorem Step.unticketed {onTick : S → TickData F → S × Option Order} {s t : State F S W}
    {a : Action F W} (step : Step onTick s a t) {v : Fin W.val} {x : Object × Order}
    (holds : t.unticketed v = some x) :
    s.unticketed v = some x ∨ emitOf onTick s a = some x ∧ a = .worker v := by
  have drawn : ∀ {b : Mpsc.Action Order W.val}
      {c : Mpsc.State Mpsc.SizeT Order channelSize W.val}, Moves s b c →
      (∀ u, b ≠ .push v u) → (c.producer v).drawing = true →
      (s.channel.producer v).drawing = true := by
    intro b c moves other draws
    rcases Mpsc.drawing_before (Mpsc.step_cases moves) draws with ⟨u, pushes⟩ | before
    · exact absurd pushes (other u)
    · exact before
  cases step with
  | emit w tick j stg order pc present some =>
    by_cases here : v = w
    · subst here
      refine Or.inr ⟨?_, rfl⟩
      simpa [State.unticketed, emitOf, pc, present, some] using holds
    · exact Or.inl (unticketed_kept holds (by simp [here]) id)
  | run w k tick | missing w tick | found w tick | last w tick j | call w tick j
  | silent w tick j =>
    by_cases here : v = w
    · subst here
      simp [State.unticketed] at holds
    · exact Or.inl (unticketed_kept holds (by simp [here]) id)
  | push w tick j order c pc moves =>
    by_cases here : v = w
    · subst here
      left
      simp only [State.unticketed, setWorker_worker, Function.update_self,
        Option.ite_none_right_eq_some] at holds
      simpa [State.unticketed, pc] using holds.2
    · exact Or.inl (unticketed_kept holds (by simp [here])
        (drawn moves (by simp [Ne.symm here])))
  | pushing w tick j order c pc moves inside =>
    exact Or.inl (unticketed_kept holds rfl (drawn moves (by simp)))
  | pushed w tick j order c result pc moves returns =>
    by_cases here : v = w
    · subst here
      simp [State.unticketed] at holds
    · exact Or.inl (unticketed_kept holds (by simp [here]) (drawn moves (by simp)))
  | spurious w c moves | pop c pc moves | popping c pc moves | empty c pc moves
  | taken c order pc moves | notify w c moves =>
    exact Or.inl (unticketed_kept holds rfl (drawn moves (by simp)))
  | launch | loop | drained | finish | recv | stop | again | send | woken => exact Or.inl holds

theorem Step.issued {onTick : S → TickData F → S × Option Order} {s t : State F S W}
    {a : Action F W} (step : Step onTick s a t) {x : Object × Order}
    (issues : issueOf s a = some x) :
    ∃ v, s.unticketed v = some x ∧ t.unticketed v = none := by
  cases step with
  | pushing w tick j order c pc moves inside =>
    simp only [issueOf, pc, Option.map_eq_some_iff] at issues
    obtain ⟨y, draws, rfl⟩ := issues
    have after := Mpsc.drawn_after (Mpsc.step_cases moves) draws
    refine ⟨w, ?_, by simp [State.unticketed, pc, after]⟩
    cases at_ : s.channel.producer w with
    | fetchAdd u curHead curTail => simp [State.unticketed, pc, at_, Mpsc.Producer.drawing]
    | _ => simp [Mpsc.ticketOf, at_] at draws
  | pushed w tick j order c result pc moves returns =>
    simp only [issueOf, pc, Option.map_eq_some_iff] at issues
    obtain ⟨y, draws, rfl⟩ := issues
    cases at_ : s.channel.producer w with
    | fetchAdd u curHead curTail => simp [Mpsc.pushResult, at_] at returns
    | _ => simp [Mpsc.ticketOf, at_] at draws
  | _ => simp [issueOf, *] at issues

theorem issueOf_of_emitOf {onTick : S → TickData F → S × Option Order} {s : State F S W}
    {a : Action F W} {x : Object × Order} (emits : emitOf onTick s a = some x) :
    issueOf s a = none := by
  cases a with
  | worker w => cases pc : s.worker w <;> simp [emitOf, issueOf, pc] at emits ⊢
  | _ => simp [emitOf] at emits

theorem byObject_append (o : Object) (l m : List (Object × Order)) :
    byObject o (l ++ m) = byObject o l ++ byObject o m := List.filterMap_append

@[simp] theorem byObject_self (o : Object) (order : Order) : byObject o [(o, order)] = [order] := by
  simp [byObject]

theorem byObject_other {o : Object} {x : Option (Object × Order)}
    (other : ∀ order, x ≠ some (o, order)) : byObject o x.toList = [] := by
  cases x with
  | none => rfl
  | some y =>
    obtain ⟨p, order⟩ := y
    have ne : p ≠ o := fun same => other order (by rw [same])
    simp [byObject, ne]

/-- onTick of `o` returns an order while an earlier one has no ticket yet. -/
def Crowds (onTick : S → TickData F → S × Option Order) (o : Object) (s : State F S W)
    (a : Action F W) : Prop :=
  (emitOf onTick s a).map Prod.fst = some o ∧ ∃ v, (s.unticketed v).map Prod.fst = some o

instance (onTick : S → TickData F → S × Option Order) (o : Object) (s : State F S W)
    (a : Action F W) : Decidable (Crowds onTick o s a) :=
  inferInstanceAs (Decidable (_ ∧ _))

/-- At most one order of `o` is on its way to a ticket, and it is the next one. -/
structure InOrder (onTick : S → TickData F → S × Option Order) (o : Object)
    (h : List (State F S W × Action F W)) (s : State F S W) : Prop where
  soFar : (byObject o (tickets h)).Sublist (emittedBy onTick o h)
  next : ∀ v order, s.unticketed v = some (o, order) →
    (byObject o (tickets h) ++ [order]).Sublist (emittedBy onTick o h)
  one : ∀ v w x y, s.unticketed v = some (o, x) → s.unticketed w = some (o, y) → v = w

section step
variable {onTick : S → TickData F → S × Option Order} {o : Object}
  {h : List (State F S W × Action F W)} {s t : State F S W} {a : Action F W}

theorem tickets_snoc : byObject o (tickets (h ++ [(s, a)])) =
    byObject o (tickets h) ++ byObject o (issueOf s a).toList := by
  rw [tickets, Machine.log_snoc, byObject_append, ← tickets]

theorem emittedBy_snoc : emittedBy onTick o (h ++ [(s, a)]) =
    emittedBy onTick o h ++ byObject o (emitOf onTick s a).toList := by
  rw [emittedBy, emitted, Machine.log_snoc, byObject_append, ← emitted, ← emittedBy]

theorem InOrder.emit (known : InOrder onTick o h s) (apart : ¬ Crowds onTick o s a)
    (step : Step onTick s a t) {order : Order} (emits : emitOf onTick s a = some (o, order)) :
    InOrder onTick o (h ++ [(s, a)]) t := by
  have fresh : ∀ v x, s.unticketed v ≠ some (o, x) := fun v x holds =>
    apart ⟨by rw [emits]; rfl, v, by rw [holds]; rfl⟩
  have newest : ∀ {v x}, t.unticketed v = some (o, x) → x = order ∧ a = .worker v := by
    intro v x holds
    rcases step.unticketed holds with old | ⟨now, mover⟩
    · exact absurd old (fresh v x)
    · rw [emits] at now
      cases now
      exact ⟨rfl, mover⟩
  have issues : byObject o (issueOf s a).toList = [] := by
    rw [issueOf_of_emitOf emits]
    rfl
  constructor
  · rw [tickets_snoc, emittedBy_snoc, issues, emits, List.append_nil]
    exact known.soFar.trans (List.sublist_append_left _ _)
  · intro v x holds
    rw [tickets_snoc, emittedBy_snoc, issues, emits, Option.toList_some, byObject_self,
      List.append_nil, (newest holds).1]
    exact known.soFar.append (List.Sublist.refl _)
  · intro v w x y hv hw
    have same := (newest hv).2.symm.trans (newest hw).2
    cases same
    rfl

theorem Step.unticketed_old (step : Step onTick s a t)
    (silent : ∀ order, emitOf onTick s a ≠ some (o, order)) {v : Fin W.val} {x : Order}
    (holds : t.unticketed v = some (o, x)) : s.unticketed v = some (o, x) := by
  rcases step.unticketed holds with old | ⟨now, _⟩
  · exact old
  · exact absurd now (silent x)

theorem InOrder.issue (known : InOrder onTick o h s) (step : Step onTick s a t)
    (silent : ∀ order, emitOf onTick s a ≠ some (o, order)) {order : Order}
    (issues : issueOf s a = some (o, order)) : InOrder onTick o (h ++ [(s, a)]) t := by
  obtain ⟨v, held, gone⟩ := step.issued issues
  have none : ∀ w x, t.unticketed w ≠ some (o, x) := by
    intro w x holds
    have same := known.one w v x order (step.unticketed_old silent holds) held
    subst same
    rw [gone] at holds
    cases holds
  constructor
  · rw [tickets_snoc, emittedBy_snoc, issues, byObject_other silent, Option.toList_some,
      byObject_self, List.append_nil]
    exact known.next v order held
  · exact fun w x holds => absurd holds (none w x)
  · exact fun w _ x _ holds => absurd holds (none w x)

theorem InOrder.rest (known : InOrder onTick o h s) (step : Step onTick s a t)
    (silent : ∀ order, emitOf onTick s a ≠ some (o, order))
    (other : ∀ order, issueOf s a ≠ some (o, order)) : InOrder onTick o (h ++ [(s, a)]) t := by
  have old := fun {v : Fin W.val} {x : Order} => step.unticketed_old (v := v) (x := x) silent
  constructor
  · rw [tickets_snoc, emittedBy_snoc, byObject_other silent, byObject_other other,
      List.append_nil, List.append_nil]
    exact known.soFar
  · intro v x holds
    rw [tickets_snoc, emittedBy_snoc, byObject_other silent, byObject_other other,
      List.append_nil, List.append_nil]
    exact known.next v x (old holds)
  · exact fun v w x y hv hw => known.one v w x y (old hv) (old hw)

theorem InOrder.step (known : InOrder onTick o h s) (apart : ¬ Crowds onTick o s a)
    (step : Step onTick s a t) : InOrder onTick o (h ++ [(s, a)]) t := by
  by_cases emits : ∃ order, emitOf onTick s a = some (o, order)
  · obtain ⟨order, emits⟩ := emits
    exact known.emit apart step emits
  · rw [not_exists] at emits
    by_cases issues : ∃ order, issueOf s a = some (o, order)
    · obtain ⟨order, issues⟩ := issues
      exact known.issue step emits issues
    · rw [not_exists] at issues
      exact known.rest step emits issues

end step

theorem inOrder_run {onTick : S → TickData F → S × Option Order} {added : List (Symbol × S)}
    (o : Object) {h : List (State F S W × Action F W)} {s : State F S W}
    (run : (machine onTick W added).Run h s) (apart : ∀ x ∈ h, ¬ Crowds onTick o x.1 x.2) :
    InOrder onTick o h s := by
  apply Machine.Run.invariant (M := machine onTick W added)
    (fun h s => (∀ x ∈ h, ¬ Crowds onTick o x.1 x.2) → InOrder onTick o h s) ?_ ?_ run apart
  · intro _
    exact ⟨List.Sublist.refl _, fun v order holds => (by cases holds),
      fun v w x y holds => (by cases holds)⟩
  intro h s a t _ known step apart
  exact (known fun x member => apart x (by simp [member])).step (apart (s, a) (by simp))
    (step_cases step)

/-- The orders leave in ticket order. The orders of one strategy leave in the order its
    onTick returned them in every run in which none of them is returned while an earlier
    one has no ticket. -/
theorem sent_in_order {onTick : S → TickData F → S × Option Order} {added : List (Symbol × S)}
    {h : List (State F S W × Action F W)} {s : State F S W}
    (run : (machine onTick W added).Run h s) :
    sent h = ((tickets h).take (sent h).length).map Prod.snd ∧
      ∀ o, (∀ x ∈ h, ¬ Crowds onTick o x.1 x.2) →
        (sentBy o h).Sublist (emittedBy onTick o h) := by
  refine ⟨sent_tickets run, fun o apart => ?_⟩
  have taken : ((tickets h).take (sent h).length).Sublist (tickets h) := List.take_sublist _ _
  exact (taken.filterMap _).trans (inOrder_run o run apart).soFar

/-! Two workers, one DualThrust: the first tick opens, the second closes. -/

abbrev oneStrategy : Machine (State ℚ (DualThrust ℚ) twoWorkers) (Action ℚ twoWorkers) :=
  machine DualThrust.onTick twoWorkers [([97], .fresh)]

def closeFirst : List (Action ℚ twoWorkers) :=
  twoTicks (tickOf [97] 10) (tickOf [97] 5) ++ taskUpToOrder 0 ++ taskUpToOrder 1 ++
    taskPush 1 ++ sendOne ++ taskPush 0 ++ sendOne

def openFirst : List (Action ℚ twoWorkers) :=
  twoTicks (tickOf [97] 10) (tickOf [97] 5) ++ taskUpToOrder 0 ++ taskPush 0 ++
    taskUpToOrder 1 ++ taskPush 1 ++ sendOne ++ sendOne

theorem openFirst_in_order :
    let h := oneStrategy.steps oneStrategy.init openFirst
    (sentBy ([97], 0) h).map Order.offset = [.OPEN, .CLOSE] ∧
      (sentBy ([97], 0) h).Sublist (emittedBy DualThrust.onTick ([97], 0) h) :=
  ⟨by decide +kernel,
    (sent_in_order (Machine.run_get (by decide +kernel))).2 ([97], 0) (by decide +kernel)⟩

theorem close_before_open :
    ¬ ∀ h s, oneStrategy.Run h s → ∀ o,
      (sentBy o h).Sublist (emittedBy DualThrust.onTick o h) := by
  intro always
  have run := @Machine.run_get _ _ oneStrategy closeFirst (by decide +kernel)
  have inOrder := always _ _ run ([97], 0)
  revert inOrder
  decide +kernel

end CtaEngine
