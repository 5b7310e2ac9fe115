import FuTrader.Engine.Channel
import FuTrader.StraCta.DualThrust

/- Where the orders are: with the task that has them, in the channel, with the
   order-push thread, sent, or dropped by a push whose false nobody reads. -/
namespace CtaEngine
open FuTrader
variable {F S : Type} {W : ThreadNum}

def emitOf (onTick : S → TickData F → S × Option Order) (s : State F S W) :
    Action F W → Option (Object × Order)
  | .worker w => match s.worker w with
    | .onTick tick j => (s.strategy (key tick, j)).bind fun stg =>
      (onTick stg tick).2.map fun order => ((key tick, j), order)
    | _ => none
  | _ => none

def sendOf (s : State F S W) : Action F W → Option Order
  | .pusher => match s.pusher with
    | .send order => some order
    | _ => none
  | _ => none

section logs
variable (onTick : S → TickData F → S × Option Order) (h : List (State F S W × Action F W))

def emitted : List (Object × Order) := Machine.log (emitOf onTick) h
def orders : List Order := (emitted onTick h).map Prod.snd
def sent : List Order := Machine.log sendOf h
def accepted : List Order := Mpsc.acceptedValues (channelPart h)
def dropped : List Order := Mpsc.refused channelSize.sizeT (channelPart h)
end logs

def Worker.waiting : Worker F → Multiset Order
  | .push _ _ order => {order}
  | _ => 0

def Worker.held : Worker F → Multiset Order
  | .push _ _ order | .pushing _ _ order => {order}
  | _ => 0

def Pusher.hand : Pusher → List Order
  | .send order => [order]
  | _ => []

def State.waiting (s : State F S W) : Multiset Order := ∑ w, (s.worker w).waiting
def State.held (s : State F S W) : Multiset Order := ∑ w, (s.worker w).held
def State.hand (s : State F S W) : Multiset Order := s.channel.consumer.hand + s.pusher.hand
def State.stored (s : State F S W) : Multiset Order := s.channel.stored channelSize.sizeT

theorem waiting_update (s : State F S W) (w : Fin W.val) (x : Worker F) :
    (s.setWorker w x).waiting + (s.worker w).waiting = s.waiting + x.waiting := by
  have moved : (fun v => (Function.update s.worker w x v).waiting) =
      Function.update (fun v => (s.worker v).waiting) w x.waiting :=
    Function.comp_update Worker.waiting s.worker w x
  rw [State.waiting, setWorker_worker, moved]
  exact Tally.sum_update (fun v => (s.worker v).waiting) w x.waiting

def beginOf (s : State F S W) (a : Action F W) : Option Order :=
  (channelAct s a).bind (Mpsc.pushOf s.channel)

theorem begun_log (h : List (State F S W × Action F W)) :
    Mpsc.begun (channelPart h) = Machine.log beginOf h := Machine.log_partOf _ _ _ h

theorem waiting_same {s : State F S W} {w : Fin W.val} {x : Worker F}
    (before : (s.worker w).waiting = 0) (after : x.waiting = 0) :
    (s.setWorker w x).waiting = s.waiting := by
  have moved := waiting_update s w x
  rwa [before, after, add_zero, add_zero] at moved

theorem Step.waiting {onTick : S → TickData F → S × Option Order} {s t : State F S W}
    {a : Action F W} (step : Step onTick s a t) :
    s.waiting + ((emitOf onTick s a).toList.map Prod.snd : List Order) =
      t.waiting + (beginOf s a).toList := by
  cases step with
  | emit w tick j stg order pc present some =>
    have moved := waiting_update (s.setStrategy (key tick, j) (onTick stg tick).1) w
      (.push tick j order)
    rw [setStrategy_worker, pc] at moved
    simp [emitOf, beginOf, channelAct, pc, present, some, Worker.waiting] at moved ⊢
    exact moved.symm
  | push w tick j order c pc moves =>
    have moved := waiting_update { s with channel := c } w (.pushing tick j order)
    rw [show ({ s with channel := c } : State F S W).worker w = .push tick j order from pc] at moved
    simp [emitOf, beginOf, channelAct, pc, Mpsc.pushOf, Worker.waiting] at moved ⊢
    exact moved.symm
  | run w k tick free task =>
    rw [waiting_same (by simp [free, Worker.waiting]) rfl]
    simp [emitOf, beginOf, channelAct, State.waiting]
  | silent w tick j stg pc present none =>
    rw [waiting_same (by simp [pc, Worker.waiting]) rfl]
    simp [emitOf, beginOf, channelAct, State.waiting, pc, present, none]
  | missing w tick pc | found w tick stgs pc | last w tick j pc | call w tick j stg pc =>
    rw [waiting_same (by simp [pc, Worker.waiting]) rfl]
    simp [emitOf, beginOf, channelAct, pc]
  | pushed w tick j order c result pc moves returns =>
    rw [waiting_same (by simp [pc, Worker.waiting]) rfl]
    simp [emitOf, beginOf, channelAct, State.waiting, pc, Mpsc.pushOf]
  | _ => simp [emitOf, beginOf, channelAct, State.waiting, Mpsc.pushOf, *]

theorem orders_run {onTick : S → TickData F → S × Option Order} {added : List (Symbol × S)}
    {h : List (State F S W × Action F W)} {s : State F S W}
    (run : (machine onTick W added).Run h s) :
    (orders onTick h : Multiset Order) = Mpsc.begun (channelPart h) + s.waiting := by
  apply Machine.Run.invariant (M := machine onTick W added)
    (fun h s => (orders onTick h : Multiset Order) = Mpsc.begun (channelPart h) + s.waiting)
    ?_ ?_ run
  · simp [orders, emitted, begun_log, State.waiting, machine, init, Worker.waiting]
  intro h s a t _ known step
  have moved := (step_cases step).waiting
  simp only [orders, emitted, begun_log, Machine.log_snoc, List.map_append,
    ← Multiset.coe_add] at known ⊢
  rw [known, add_assoc, moved]
  abel

/-! What pop returned. -/

def takeOf (s : State F S W) (a : Action F W) : Option Order :=
  (channelAct s a).bind (Mpsc.valueOf s.channel)

theorem popped_log (h : List (State F S W × Action F W)) :
    Mpsc.popped (channelPart h) = Machine.log takeOf h := Machine.log_partOf _ _ _ h

theorem Step.hand {onTick : S → TickData F → S × Option Order} {s t : State F S W}
    {a : Action F W} (unstarted : Unstarted s) (step : Step onTick s a t) :
    s.pusher.hand ++ (takeOf s a).toList = (sendOf s a).toList ++ t.pusher.hand := by
  have result := Mpsc.valueOf_consumer channelSize.sizeT s.channel
  cases step with
  | launch pc => simp [takeOf, sendOf, channelAct, Pusher.hand, unstarted pc]
  | again pc =>
    cases s.running <;> simp [takeOf, sendOf, channelAct, pc, Pusher.hand]
  | popping c pc moves inside =>
    rw [inside] at result
    simp [takeOf, sendOf, channelAct, pc, result]
  | empty c pc moves returns | taken c order pc moves returns =>
    rw [returns] at result
    simp [takeOf, sendOf, channelAct, pc, result, Pusher.hand]
  | _ => simp [takeOf, sendOf, channelAct, Mpsc.valueOf, Pusher.hand, *]

theorem popped_run {onTick : S → TickData F → S × Option Order} {added : List (Symbol × S)}
    {h : List (State F S W × Action F W)} {s : State F S W}
    (run : (machine onTick W added).Run h s) :
    Mpsc.popped (channelPart h) = sent h ++ s.pusher.hand := by
  apply Machine.Run.invariant (M := machine onTick W added)
    (fun h s => Mpsc.popped (channelPart h) = sent h ++ s.pusher.hand) rfl ?_ run
  intro h s a t run known step
  have moved := (step_cases step).hand (unstarted_reachable run.reachable)
  simp only [sent, popped_log, Machine.log_snoc] at known ⊢
  rw [known, List.append_assoc, moved, List.append_assoc]

/-- Every emitted order is in one of five places. -/
theorem accounting {onTick : S → TickData F → S × Option Order} {added : List (Symbol × S)}
    {h : List (State F S W × Action F W)} {s : State F S W}
    (run : (machine onTick W added).Run h s) :
    (orders onTick h : Multiset Order) = sent h + s.hand + s.stored + s.held + dropped h := by
  have inside := channel_run run
  have begun := Mpsc.begun_run inside
  have stored := Mpsc.accepted_sizeT (fits W) inside
  have taken := popped_run run
  have aligned := aligned_reachable run.reachable
  have pushing : s.channel.held = ∑ w, (s.worker w).inPush :=
    Finset.sum_congr rfl fun w _ => aligned.producers w
  have both : s.held = s.waiting + s.channel.held := by
    rw [pushing, State.waiting, ← Finset.sum_add_distrib]
    apply Finset.sum_congr rfl
    intro w _
    cases s.worker w <;> simp [Worker.held, Worker.waiting, Worker.inPush]
  rw [orders_run run, begun, stored, taken, both, State.hand, State.stored, dropped,
    ← Multiset.coe_add]
  abel

/-- A load of _tail that makes push return false. -/
def Drops (s : State F S W) (a : Action F W) : Prop :=
  ∃ w order curHead, channelAct s a = some (.producer w) ∧
    s.channel.producer w = .loadTail order curHead ∧
    channelSize.val ≤ (curHead - s.channel.tail).toNat

theorem drops_iff (s : State F S W) (a : Action F W) :
    Drops s a ↔ ∃ order,
      (channelAct s a).bind (Mpsc.refuseOf channelSize.sizeT s.channel) = some order := by
  constructor
  · rintro ⟨w, order, curHead, act, pc, full⟩
    refine ⟨order, Option.bind_eq_some_iff.mpr ⟨_, act, ?_⟩⟩
    exact Mpsc.refuseOf_eq_some_iff.mpr ⟨w, curHead, rfl, pc, decide_eq_true full⟩
  · rintro ⟨order, found⟩
    obtain ⟨b, act, refuses⟩ := Option.bind_eq_some_iff.mp found
    obtain ⟨w, curHead, rfl, pc, full⟩ := Mpsc.refuseOf_eq_some_iff.mp refuses
    exact ⟨w, order, curHead, act, pc, of_decide_eq_true full⟩

theorem dropped_eq_nil_iff (h : List (State F S W × Action F W)) :
    dropped h = [] ↔ ∀ x ∈ h, ¬ Drops x.1 x.2 := by
  rw [dropped, Mpsc.refused, channelPart, Machine.log_partOf, Machine.log,
    List.filterMap_eq_nil_iff]
  refine forall₂_congr fun x _ => ?_
  rw [drops_iff, not_exists, Option.eq_none_iff_forall_ne_some]

theorem kept_iff {onTick : S → TickData F → S × Option Order} {added : List (Symbol × S)}
    {h : List (State F S W × Action F W)} {s : State F S W}
    (run : (machine onTick W added).Run h s) :
    (orders onTick h : Multiset Order) ≤ sent h + s.hand + s.stored + s.held ↔
      dropped h = [] := by
  rw [accounting run, add_le_iff_nonpos_right, Multiset.le_zero, Multiset.coe_eq_zero]

/-! Two workers, a DualThrust on each of two symbols, one tick for each. -/

def tickOf (symbol : Symbol) (last : ℚ) : TickData ℚ :=
  { TickData.zero 0 with symbol := charArray 16 symbol, last }

abbrev twoWorkers : ThreadNum := ⟨2, by decide⟩

abbrev onePerSymbol : Machine (State ℚ (DualThrust ℚ) twoWorkers) (Action ℚ twoWorkers) :=
  machine DualThrust.onTick twoWorkers [([97], .fresh), ([98], .fresh)]

def taskUpToOrder {W : ThreadNum} (w : Fin W.val) : List (Action ℚ W) :=
  [.run w 0, .worker w, .worker w, .worker w]

def taskPush {W : ThreadNum} (w : Fin W.val) : List (Action ℚ W) := List.replicate 6 (.worker w)

def sendOne {W : ThreadNum} : List (Action ℚ W) := List.replicate 8 .pusher

def twoTicks {W : ThreadNum} (a b : TickData ℚ) : List (Action ℚ W) :=
  [.main, .main, .recv (some a), .main, .recv (some b), .main]

def overtaken : List (Action ℚ twoWorkers) :=
  twoTicks (tickOf [97] 10) (tickOf [98] 10) ++ taskUpToOrder 0 ++ [.worker 0] ++
    taskUpToOrder 1 ++ taskPush 1 ++ sendOne

/-- No emitted order disappears exactly in the runs in which no push is refused. -/
theorem no_order_lost_iff {onTick : S → TickData F → S × Option Order}
    {added : List (Symbol × S)} {h : List (State F S W × Action F W)} {s : State F S W}
    (run : (machine onTick W added).Run h s) :
    (orders onTick h : Multiset Order) ≤ sent h + s.hand + s.stored + s.held ↔
      ∀ x ∈ h, ¬ Drops x.1 x.2 := by
  rw [kept_iff run, dropped_eq_nil_iff]

def inTurn : List (Action ℚ twoWorkers) :=
  twoTicks (tickOf [97] 10) (tickOf [98] 10) ++ taskUpToOrder 1 ++ taskPush 1 ++ sendOne ++
    taskUpToOrder 0

theorem inTurn_keeps_orders :
    let M := onePerSymbol
    ∃ s, M.exec M.init inTurn = some s ∧
      (orders DualThrust.onTick (M.steps M.init inTurn)).length = 2 ∧
      ((orders DualThrust.onTick (M.steps M.init inTurn) : Multiset Order) ≤
          sent (M.steps M.init inTurn) + s.hand + s.stored + s.held ↔
        ∀ x ∈ M.steps M.init inTurn, ¬ Drops x.1 x.2) :=
  ⟨_, (Option.some_get (by decide +kernel)).symm, by decide +kernel,
    no_order_lost_iff (Machine.run_get (by decide +kernel))⟩

/-- Before stop(), one order of two is gone when worker 0 has compared its cur_head. -/
theorem order_dropped :
    ¬ ∀ h s, onePerSymbol.Run h s → s.running = true →
      (orders DualThrust.onTick h : Multiset Order) ≤ sent h + s.hand + s.stored + s.held := by
  intro always
  have run := @Machine.run_get _ _ onePerSymbol (overtaken ++ [.worker 0])
    (by decide +kernel)
  have gone := (kept_iff run).mp (always _ _ run (by decide +kernel))
  revert gone
  decide +kernel

/-- The orders sent are emitted orders, each of them sent once. -/
theorem sent_from_emitted {onTick : S → TickData F → S × Option Order}
    {added : List (Symbol × S)} {h : List (State F S W × Action F W)} {s : State F S W}
    (run : (machine onTick W added).Run h s) : List.Subperm (sent h) (orders onTick h) := by
  rw [← Multiset.coe_le, accounting run]
  simp only [add_assoc]
  exact Multiset.le_add_right _ _

theorem overtaken_sends_emitted :
    let h := onePerSymbol.steps onePerSymbol.init overtaken
    (sent h).length = 1 ∧ List.Subperm (sent h) (orders DualThrust.onTick h) :=
  ⟨by decide +kernel, sent_from_emitted (Machine.run_get (by decide +kernel))⟩

end CtaEngine
