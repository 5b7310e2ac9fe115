import FuTrader.Engine.Liveness
import Mathlib.Algebra.Order.BigOperators.Group.Finset
import Mathlib.Algebra.Order.Group.Multiset

/- What becomes of an order: its push draws a ticket for it or is refused. Each worker comes to
   the outcome of one order before it has the next. -/

namespace Mpsc
variable {κ T : Type} {B : BufSize} {P : Nat}

theorem drawing_same [DecidableEq κ] {C : Counters κ B} {E : Element T} {s t : State κ T B P}
    {a : Action T P} (step : Step C E s a t) {j : Fin P} (begins : ∀ u, a ≠ .push j u)
    (other : a ≠ .producer j) : (t.producer j).drawing = (s.producer j).drawing := by
  apply Bool.eq_iff_iff.mpr
  constructor
  · intro draws
    rcases drawing_before step draws with ⟨u, pushes⟩ | before
    · exact absurd pushes (begins u)
    · exact before
  · intro draws
    rcases drawing_kept step draws with still | ⟨mine, _⟩
    · exact still
    · exact absurd mine other

theorem drawing_iff (s : State κ T B P) (i : Fin P) :
    (s.producer i).drawing = true ↔ ¬ Drawn i s := by
  cases pc : s.producer i <;> simp [Drawn, pc, Producer.drawing, Producer.ticket]

end Mpsc

namespace CtaEngine
open FuTrader
variable {F S : Type} {W : ThreadNum}

section
variable {ε : Type}

def ofWorker (v : Fin W.val) (f : State F S W → Action F W → Option ε) (s : State F S W) :
    Action F W → Option ε
  | .worker w => if w = v then f s (.worker w) else none
  | _ => none

theorem sum_ofWorker {f : State F S W → Action F W → Option ε}
    (inside : ∀ s a, (∀ w, a ≠ .worker w) → f s a = none) (h : List (State F S W × Action F W)) :
    (Machine.log f h : Multiset ε) = ∑ v, (Machine.log (ofWorker v f) h : Multiset ε) := by
  induction h using List.reverseRecOn with
  | nil => simp
  | append_singleton h x ih =>
    obtain ⟨s, a⟩ := x
    have here : ((f s a).toList : Multiset ε) = ∑ v, ((ofWorker v f s a).toList : Multiset ε) := by
      cases a with
      | worker w =>
        have others : ∀ v, ((ofWorker v f s (.worker w)).toList : Multiset ε) =
            if w = v then ((f s (.worker w)).toList : Multiset ε) else 0 := by
          intro v
          by_cases same : w = v <;> simp [ofWorker, same]
        simp [others]
      | _ => simp [inside, ofWorker]
    simp only [Machine.log_snoc, ← Multiset.coe_add, Finset.sum_add_distrib, ih, here]

end

def yieldOf (onTick : S → TickData F → S × Option Order) (s : State F S W) (a : Action F W) :
    Option Order := (emitOf onTick s a).map Prod.snd

theorem orders_log (onTick : S → TickData F → S × Option Order)
    (h : List (State F S W × Action F W)) :
    orders onTick h = Machine.log (yieldOf onTick) h := Machine.log_map_value _ _ h

def refuseOf (s : State F S W) (a : Action F W) : Option Order :=
  (channelAct s a).bind (Mpsc.refuseOf channelSize.sizeT s.channel)

/-- The step decides about an order: it has a ticket now, or push refuses it. -/
def outcomeOf (s : State F S W) (a : Action F W) : Option Order :=
  ((issueOf s a).map Prod.snd).or (refuseOf s a)

theorem dropped_log (h : List (State F S W × Action F W)) :
    dropped h = Machine.log refuseOf h := Machine.log_partOf _ _ _ h

theorem outcome_toList (s : State F S W) (a : Action F W) :
    (outcomeOf s a).toList = (issueOf s a).toList.map Prod.snd ++ (refuseOf s a).toList := by
  cases issues : issueOf s a with
  | none => simp [outcomeOf, issues]
  | some x =>
    have none : refuseOf s a = none := by
      cases a with
      | worker w =>
        cases pc : s.worker w with
        | pushing tick j order =>
          simp only [issueOf, pc, Option.map_eq_some_iff] at issues
          obtain ⟨y, draws, _⟩ := issues
          cases at_ : s.channel.producer w with
          | fetchAdd u curHead curTail => simp [refuseOf, channelAct, pc, Mpsc.refuseOf, at_]
          | _ => simp [Mpsc.ticketOf, at_] at draws
        | _ => simp [issueOf, pc] at issues
      | _ => simp [issueOf] at issues
    simp [outcomeOf, issues, none]

theorem outcomeOf_inside (s : State F S W) (a : Action F W) (other : ∀ w, a ≠ .worker w) :
    outcomeOf s a = none := by
  cases a with
  | worker w => exact absurd rfl (other w)
  | pusher =>
    cases pc : s.pusher <;> simp [outcomeOf, issueOf, refuseOf, channelAct, pc, Mpsc.refuseOf]
  | _ => simp [outcomeOf, issueOf, refuseOf, channelAct, Mpsc.refuseOf]

theorem outcomes_eq (h : List (State F S W × Action F W)) :
    (Machine.log outcomeOf h : Multiset Order) = (tickets h).map Prod.snd + dropped h := by
  rw [tickets, dropped_log]
  induction h using List.reverseRecOn with
  | nil => simp
  | append_singleton h x ih =>
    obtain ⟨s, a⟩ := x
    simp only [Machine.log_snoc, List.map_append, ← Multiset.coe_add, ih, outcome_toList]
    abel

section
variable {onTick : S → TickData F → S × Option Order} {added : List (Symbol × S)}
  {h : List (State F S W × Action F W)} {s t : State F S W} {a : Action F W} {v : Fin W.val}

def State.undecided (s : State F S W) (v : Fin W.val) : Option Order :=
  (s.unticketed v).map Prod.snd

theorem undecided_same (worker : t.worker v = s.worker v)
    (draws : (t.channel.producer v).drawing = (s.channel.producer v).drawing) :
    t.undecided v = s.undecided v := by
  unfold State.undecided State.unticketed
  rw [worker, draws]

theorem Step.undecided_other (step : Step onTick s a t) (other : a ≠ .worker v) :
    t.undecided v = s.undecided v := by
  have apart : ∀ {w}, a = .worker w → v ≠ w := by
    rintro w rfl same
    exact other (same ▸ rfl)
  cases step with
  | run w k tick free task =>
    by_cases here : v = w
    · subst here
      simp [State.undecided, State.unticketed, free]
    · exact undecided_same (by simp [here]) rfl
  | missing w | found w | last w | call w | silent w | emit w =>
    exact undecided_same (by simp [apart rfl]) rfl
  | push w tick j order c pc moves =>
    exact undecided_same (by simp [apart rfl])
      (Mpsc.drawing_same (Mpsc.step_cases moves) (by simp [(apart rfl).symm]) (by simp))
  | pushing w tick j order c pc moves =>
    exact undecided_same rfl
      (Mpsc.drawing_same (Mpsc.step_cases moves) (by simp) (by simp [(apart rfl).symm]))
  | pushed w tick j order c result pc moves =>
    exact undecided_same (by simp [apart rfl])
      (Mpsc.drawing_same (Mpsc.step_cases moves) (by simp) (by simp [(apart rfl).symm]))
  | spurious w c moves | pop c pc moves | popping c pc moves | empty c pc moves
  | taken c order pc moves | notify w c moves =>
    exact undecided_same rfl (Mpsc.drawing_same (Mpsc.step_cases moves) (by simp) (by simp))
  | _ => rfl

theorem Step.undecided_own (step : Step onTick s (.worker v) t) (aligned : Aligned s) :
    (s.undecided v).toList ++ (yieldOf onTick s (.worker v)).toList =
      (outcomeOf s (.worker v)).toList ++ (t.undecided v).toList := by
  have held := aligned.producers v
  rw [outcome_toList]
  cases step with
  | missing w tick pc | found w tick stgs pc | last w tick j pc | call w tick j stg pc =>
    simp [State.undecided, State.unticketed, yieldOf, emitOf, issueOf, refuseOf, channelAct, pc]
  | silent w tick j stg pc present silent =>
    simp [State.undecided, State.unticketed, yieldOf, emitOf, issueOf, refuseOf, channelAct, pc,
      present, silent]
  | emit w tick j stg order pc present some =>
    simp [State.undecided, State.unticketed, yieldOf, emitOf, issueOf, refuseOf, channelAct, pc,
      present, some]
  | push w tick j order c pc moves =>
    cases Mpsc.step_cases moves with
    | push i u idle =>
      simp [State.undecided, State.unticketed, yieldOf, emitOf, issueOf, refuseOf, channelAct, pc,
        Mpsc.refuseOf, Mpsc.Producer.drawing]
  | pushing w tick j order c pc moves inside =>
    rw [pc] at held
    cases Mpsc.step_cases moves with
    | refuse i u curHead at_pc full => simp [Mpsc.pushResult, at_pc, full] at inside
    | publish i u pos at_pc => simp [Mpsc.pushResult, at_pc] at inside
    | pass i u curHead at_pc room =>
      simp [State.undecided, State.unticketed, yieldOf, emitOf, issueOf, refuseOf, channelAct, pc,
        at_pc, Mpsc.ticketOf, Mpsc.refuseOf, Mpsc.Producer.drawing, room]
    | ticket i u curHead curTail at_pc | turn i u pos at_pc | busy i u pos at_pc
    | park i u pos seqVal at_pc | changed i u pos seqVal at_pc | write i u pos at_pc =>
      simp [State.undecided, State.unticketed, yieldOf, emitOf, issueOf, refuseOf, channelAct, pc,
        at_pc, Mpsc.ticketOf, Mpsc.refuseOf, Mpsc.Producer.drawing]
  | pushed w tick j order c result pc moves returns =>
    rw [pc] at held
    cases Mpsc.step_cases moves with
    | refuse i u curHead at_pc full =>
      have same : u = order := by simpa [at_pc, Mpsc.Producer.held, Worker.inPush] using held
      simp [State.undecided, State.unticketed, yieldOf, emitOf, issueOf, refuseOf, channelAct, pc,
        at_pc, Mpsc.ticketOf, Mpsc.refuseOf, Mpsc.Producer.drawing, full, same]
    | pass i u curHead at_pc room => simp [Mpsc.pushResult, at_pc, room] at returns
    | publish i u pos at_pc =>
      simp [State.undecided, State.unticketed, yieldOf, emitOf, issueOf, refuseOf, channelAct, pc,
        at_pc, Mpsc.ticketOf, Mpsc.refuseOf, Mpsc.Producer.drawing]
    | _ => simp [Mpsc.pushResult, *] at returns

theorem yieldOf_inside (s : State F S W) (a : Action F W) (other : ∀ w, a ≠ .worker w) :
    yieldOf onTick s a = none := by
  cases a with
  | worker w => exact absurd rfl (other w)
  | _ => rfl

theorem returned_run (run : (machine onTick W added).Run h s) (v : Fin W.val) :
    Machine.log (ofWorker v (yieldOf onTick)) h =
      Machine.log (ofWorker v outcomeOf) h ++ (s.undecided v).toList := by
  apply Machine.Run.invariant (M := machine onTick W added)
    (fun h s => Machine.log (ofWorker v (yieldOf onTick)) h =
      Machine.log (ofWorker v outcomeOf) h ++ (s.undecided v).toList) rfl ?_ run
  intro h s a t run known step
  have step := step_cases step
  rw [Machine.log_snoc, Machine.log_snoc, known, List.append_assoc, List.append_assoc]
  congr 1
  by_cases own : a = .worker v
  · subst own
    have decided := step.undecided_own (aligned_reachable run.reachable)
    simpa [ofWorker] using decided
  · have others : ∀ {f : State F S W → Action F W → Option Order}, ofWorker v f s a = none := by
      intro f
      cases a with
      | worker w =>
        have apart : w ≠ v := fun same => own (same ▸ rfl)
        simp [ofWorker, apart]
      | _ => rfl
    rw [others, others, step.undecided_other own]
    simp

/-! A worker comes to the outcome of its order. -/

def State.toOutcome (s : State F S W) (v : Fin W.val) : Nat :=
  match s.worker v with
  | .push _ _ _ => 3
  | .pushing _ _ _ => (s.channel.producer v).toTicket
  | _ => 0

theorem drawing_of_undecided {tick : TickData F} {j : Nat} {order : Order}
    (pc : s.worker v = .pushing tick j order) :
    s.undecided v ≠ none ↔ ¬ Mpsc.Drawn v s.channel := by
  rw [← Mpsc.drawing_iff]
  cases draws : (s.channel.producer v).drawing <;>
    simp [State.undecided, State.unticketed, pc, draws]

theorem undecided_able (aligned : Aligned s) (short : s.undecided v ≠ none) :
    Machine.Forever.Enabled (machine onTick W added) Action.thread s (.worker v) := by
  have held := aligned.producers v
  refine ⟨.worker v, rfl, ?_⟩
  cases pc : s.worker v with
  | push tick j order =>
    rw [pc] at held
    have idle : s.channel.producer v = .idle := (Mpsc.held_zero_iff _).mp held
    simp [machine, CtaEngine.step, workerStep, pc, channelStep, Mpsc.step, Mpsc.pushStep, idle]
  | pushing tick j order =>
    have able : (Mpsc.step channelSize.sizeT orderElement s.channel (.producer v)).isSome :=
      Mpsc.drawn_able ((drawing_of_undecided pc).mp short)
    simp only [machine, CtaEngine.step, workerStep, pc, channelStep]
    split <;> simp [able]
  | _ => simp [State.undecided, State.unticketed, pc] at short

theorem toOutcome_channel {b : Mpsc.Action Order W.val} (short : s.undecided v ≠ none)
    (worker : t.worker v = s.worker v) (moves : Moves s b t.channel) :
    t.undecided v = none ∨ t.toOutcome v < s.toOutcome v ∨
      t.toOutcome v = s.toOutcome v ∧ (b = .producer v → ∃ tick j order,
        s.worker v = .push tick j order) := by
  cases pc : s.worker v with
  | push tick j order =>
    exact .inr (.inr ⟨by simp [State.toOutcome, worker, pc], fun _ => ⟨tick, j, order, rfl⟩⟩)
  | pushing tick j order =>
    rw [pc] at worker
    rcases (Mpsc.step_cases moves).toTicket ((drawing_of_undecided pc).mp short) with
      drawn | less | ⟨same, other⟩
    · exact .inl (by simpa [drawn] using drawing_of_undecided worker)
    · exact .inr (.inl (by simpa [State.toOutcome, worker, pc] using less))
    · exact .inr (.inr ⟨by simpa [State.toOutcome, worker, pc] using same,
        fun own => absurd (by rw [own]; rfl) other⟩)
  | _ => simp [State.undecided, State.unticketed, pc] at short

theorem Step.toOutcome (step : Step onTick s a t) (short : s.undecided v ≠ none) :
    t.undecided v = none ∨ t.toOutcome v < s.toOutcome v ∨
      t.toOutcome v = s.toOutcome v ∧ a.thread ≠ .worker v := by
  have beside : ∀ {b}, t.worker v = s.worker v → Moves s b t.channel → a.thread ≠ .worker v →
      t.undecided v = none ∨ t.toOutcome v < s.toOutcome v ∨
        t.toOutcome v = s.toOutcome v ∧ a.thread ≠ .worker v := by
    intro b worker moves other
    rcases toOutcome_channel short worker moves with decided | less | ⟨same, _⟩
    · exact .inl decided
    · exact .inr (.inl less)
    · exact .inr (.inr ⟨same, other⟩)
  cases step with
  | run w k tick pc | missing w tick pc | found w tick stgs pc | last w tick j pc
  | call w tick j stg pc | silent w tick j stg pc | emit w tick j stg order pc =>
    have apart : v ≠ w := by
      rintro rfl
      simp [State.undecided, State.unticketed, pc] at short
    exact .inr (.inr ⟨by simp [State.toOutcome, apart], by simp [Action.thread, apart.symm]⟩)
  | push w tick j order c pc moves =>
    by_cases own : v = w
    · subst own
      cases Mpsc.step_cases moves with
      | push i u idle => simp [State.toOutcome, pc, Mpsc.Producer.toTicket]
    · exact beside (by simp [own]) moves (by simp [Action.thread, Ne.symm own])
  | pushing w tick j order c pc moves inside =>
    by_cases own : v = w
    · subst own
      rcases toOutcome_channel (t := { s with channel := c }) short rfl moves with
        decided | less | ⟨_, begins⟩
      · exact .inl decided
      · exact .inr (.inl less)
      · simp [pc] at begins
    · exact beside rfl moves (by simp [Action.thread, Ne.symm own])
  | pushed w tick j order c result pc moves returns =>
    by_cases own : v = w
    · subst own
      exact .inl (by simp [State.undecided, State.unticketed])
    · exact beside (by simp [own]) moves (by simp [Action.thread, Ne.symm own])
  | spurious w c moves | pop c pc moves | popping c pc moves | empty c pc moves
  | taken c order pc moves | notify w c moves =>
    exact beside rfl moves (by simp [Action.thread])
  | _ => exact .inr (.inr ⟨rfl, by simp [Action.thread]⟩)

theorem decides {w : (machine onTick W added).Forever}
    (fair : w.FairTo Action.thread (.worker v)) (n : Nat) :
    ∃ m, n ≤ m ∧ (w.state m).undecided v = none :=
  w.reaches (·.undecided v = none) (·.toOutcome v) (fun _ => Thread.worker v) (fun _ => fair)
    (fun _ reach short => undecided_able (aligned_reachable reach) short)
    (fun s a t _ short step => by
      rcases (step_cases step).toOutcome short with decided | less | ⟨same, other⟩
      · exact .inl decided
      · exact .inr (.inl less)
      · exact .inr (.inr ⟨same, rfl, other⟩)) n

theorem returned_decided {w : (machine onTick W added).Forever}
    (fair : w.FairTo Action.thread (.worker v)) (n : Nat) : ∃ m, n ≤ m ∧
      Machine.log (ofWorker v (yieldOf onTick)) (w.history n) <+:
        Machine.log (ofWorker v outcomeOf) (w.history m) := by
  obtain ⟨m, later, decided⟩ := decides fair n
  have all := returned_run (w.run m) v
  rw [decided, Option.toList_none, List.append_nil] at all
  refine ⟨m, later, ?_⟩
  rw [← all]
  exact (w.history_prefix later).filterMap _

theorem orders_decided {w : (machine onTick W added).Forever}
    (workers : ∀ v, w.FairTo Action.thread (.worker v)) (n : Nat) : ∃ m, n ≤ m ∧
      (orders onTick (w.history n) : Multiset Order) ≤
        (tickets (w.history m)).map Prod.snd + dropped (w.history m) := by
  choose time _ decided using fun v => returned_decided (workers v) n
  obtain ⟨m, all⟩ : ∃ m, ∀ v, time v ≤ m :=
    ⟨Finset.univ.sup time, fun v => Finset.le_sup (Finset.mem_univ v)⟩
  refine ⟨max n m, Nat.le_max_left n m, ?_⟩
  rw [← outcomes_eq, orders_log,
    sum_ofWorker (f := yieldOf onTick) yieldOf_inside, sum_ofWorker outcomeOf_inside]
  apply Finset.sum_le_sum
  intro v _
  have more : Machine.log (ofWorker v outcomeOf) (w.history (time v)) <+:
      Machine.log (ofWorker v outcomeOf) (w.history (max n m)) :=
    (w.history_prefix (Nat.le_trans (all v) (Nat.le_max_right n m))).filterMap _
  exact ((decided v).trans more).sublist.subperm

/-- Every order that a strategy returns is sent or refused in the end. -/
theorem every_order_settled (few : W.val ≤ 1025) (w : (machine onTick W added).Forever)
    (running : ∀ n, w.action n ≠ some .stop) (main : w.FairTo Action.thread .main)
    (workers : ∀ v, w.FairTo Action.thread (.worker v))
    (orderPush : w.FairTo Action.thread .orderPush) (n : Nat) : ∃ m, n ≤ m ∧
      (orders onTick (w.history n) : Multiset Order) ≤
        sent (w.history m) + dropped (w.history m) := by
  obtain ⟨m, later, decided⟩ := orders_decided workers n
  obtain ⟨k, after, enough⟩ := tickets_reach few running main workers orderPush m
  refine ⟨k, Nat.le_trans later after, decided.trans (add_le_add ?_ ?_)⟩
  · exact (sent_of_count after enough).sublist.subperm
  · rw [dropped_log, dropped_log]
    exact ((w.history_prefix after).filterMap _).sublist.subperm

theorem busyEngine_settled :
    (orders DualThrust.onTick (busyEngine.history 60)).length = 1 ∧
      ∃ m, 60 ≤ m ∧ (orders DualThrust.onTick (busyEngine.history 60) : Multiset Order) ≤
        sent (busyEngine.history m) + dropped (busyEngine.history m) :=
  ⟨by decide +kernel,
    every_order_settled (by decide) busyEngine busyEngine_running (busyEngine_fair (by simp))
      (fun _ => busyEngine_fair (by simp)) (busyEngine_fair (by simp)) 60⟩

end
end CtaEngine
