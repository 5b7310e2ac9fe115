import FuTrader.Engine.Accounting
import FuTrader.Channel.Outstanding

/- stop() and the end of start(). The order-push thread and the poll loop read _running
   independently: the tasks that wait_for_all drains may push when nobody pops any more. -/
namespace CtaEngine
open FuTrader
variable {F S : Type} {W : ThreadNum}

def exits (s : State F S W) : Action F W → Bool
  | .pusher => s.pusher = .check ∧ s.running = false
  | _ => false

def draws (s : State F S W) (a : Action F W) : Bool :=
  ((channelAct s a).bind (Mpsc.ticketOf s.channel)).isSome

/-- At most `b` tickets are out when the order-push thread leaves its loop, and no later
    fetch_add makes them more. -/
def Within (b : Nat) (s : State F S W) (a : Action F W) : Prop :=
  (exits s a = true → s.channel.outstanding ≤ b) ∧
    (draws s a = true → s.pusher = .exited → s.channel.outstanding < b)

theorem spare (W : ThreadNum) : channelSize.val + W.val + 2 < 2 ^ 64 := by
  have := W.lt
  have : channelSize.val = 1024 := rfl
  omega

theorem channel_reachable {onTick : S → TickData F → S × Option Order}
    {added : List (Symbol × S)} {s : State F S W}
    (reach : (machine onTick W added).Reachable s) :
    (Mpsc.machine channelSize.sizeT orderElement W.val).Reachable s.channel := by
  obtain ⟨h, run⟩ := reach
  exact (channel_run run).reachable

theorem Step.exited_iff {onTick : S → TickData F → S × Option Order} {s t : State F S W}
    {a : Action F W} (unstarted : Unstarted s) (step : Step onTick s a t) :
    t.pusher = .exited ↔ s.pusher = .exited ∨ exits s a = true := by
  cases step with
  | launch pc => simp [exits, unstarted pc]
  | again pc => cases running : s.running <;> simp [exits, pc, running]
  | _ => simp [exits, *]

theorem not_exits_of_exited {s : State F S W} (exited : s.pusher = .exited) (a : Action F W) :
    exits s a = false := by
  cases a <;> simp [exits, exited]

theorem outstanding_step {onTick : S → TickData F → S × Option Order}
    {added : List (Symbol × S)} {s t : State F S W} {a : Action F W}
    (reach : (machine onTick W added).Reachable s) (step : Step onTick s a t)
    (quiet : s.pusher ≠ .popping) :
    t.channel.outstanding = s.channel.outstanding + (draws s a).toNat := by
  have inside := channel_reachable reach
  have idle := (aligned_reachable reach).consumer quiet
  obtain ⟨moves, rests⟩ := step.channel
  cases act : channelAct s a with
  | none => simp [draws, act, rests act]
  | some b =>
    have moved := Mpsc.step_cases (moves b act)
    cases drawn : Mpsc.ticketOf s.channel b with
    | none => simp [draws, act, drawn, Mpsc.outstanding_kept moved idle drawn]
    | some x =>
      have more := Mpsc.outstanding_ticket (spare W) inside moved (by simp [drawn])
      simp [draws, act, drawn, more]

/-- After the exit, the count tells whether every step was within the bound. -/
structure Settled (b : Nat) (h : List (State F S W × Action F W)) (s : State F S W) : Prop where
  before : s.pusher ≠ .exited → ∀ x ∈ h, Within b x.1 x.2
  after : s.pusher = .exited → (s.channel.outstanding ≤ b ↔ ∀ x ∈ h, Within b x.1 x.2)

theorem forall_snoc {p : State F S W × Action F W → Prop}
    {h : List (State F S W × Action F W)} {x : State F S W × Action F W} :
    (∀ y ∈ h ++ [x], p y) ↔ (∀ y ∈ h, p y) ∧ p x := by
  simp only [List.forall_mem_append, List.forall_mem_singleton]

theorem Settled.step {onTick : S → TickData F → S × Option Order} {added : List (Symbol × S)}
    {b : Nat} {h : List (State F S W × Action F W)} {s t : State F S W} {a : Action F W}
    (reach : (machine onTick W added).Reachable s) (settled : Settled b h s)
    (step : Step onTick s a t) : Settled b (h ++ [(s, a)]) t := by
  have left := step.exited_iff (unstarted_reachable reach)
  by_cases exited : s.pusher = .exited
  · have count := outstanding_step reach step (by simp [exited])
    have stays := not_exits_of_exited exited a
    constructor
    · intro out
      exact absurd (left.mpr (Or.inl exited)) out
    intro _
    rw [forall_snoc, ← settled.after exited, count]
    cases drawn : draws s a with
    | false => simp [Within, drawn, stays]
    | true =>
      simp only [Within, drawn, stays, exited, Bool.toNat_true, Bool.false_eq_true,
        false_imp_iff, true_and, forall_const]
      omega
  · cases leaves : exits s a with
    | false =>
      have out : t.pusher ≠ .exited := by
        rw [Ne, left, leaves]
        simp [exited]
      constructor
      · intro _
        rw [forall_snoc]
        exact ⟨settled.before exited, by simp [Within, leaves, exited]⟩
      · exact fun now => absurd now out
    | true =>
      obtain ⟨rfl, pc⟩ : a = .pusher ∧ s.pusher = .check := by
        cases a <;> simp_all [exits]
      have count := outstanding_step reach step (by simp [pc])
      have none : draws s .pusher = false := by simp [draws, channelAct, pc]
      constructor
      · intro out
        exact absurd (left.mpr (Or.inr leaves)) out
      intro _
      have last : Within b s .pusher ↔ s.channel.outstanding ≤ b := by simp [Within, leaves, exited]
      rw [forall_snoc, last, count, none]
      exact ⟨fun le => ⟨settled.before exited, le⟩, And.right⟩

theorem settled_run {onTick : S → TickData F → S × Option Order} {added : List (Symbol × S)}
    (b : Nat) {h : List (State F S W × Action F W)} {s : State F S W}
    (run : (machine onTick W added).Run h s) : Settled b h s := by
  apply Machine.Run.invariant (M := machine onTick W added) (Settled b) ?_ ?_ run
  · constructor
    · intro _ x member
      cases member
    · intro exited
      cases exited
  intro h s a t run settled step
  exact settled.step run.reachable (step_cases step)

def Drained (s : State F S W) : Prop :=
  s.main = .store ∨ s.main = .returned → s.pending = [] ∧ ∀ w, s.worker w = .idle

theorem Drained.step {onTick : S → TickData F → S × Option Order} {s t : State F S W}
    {a : Action F W} (drained : Drained s) (step : Step onTick s a t) : Drained t := by
  intro past
  cases step with
  | launch pc | recv tick pc => simp at past
  | loop pc => cases running : s.running <;> simp [running] at past
  | drained pc none idle => exact ⟨none, idle⟩
  | finish pc => exact drained (Or.inl pc)
  | run w k tick free task =>
    rw [(drained past).1] at task
    cases task
  | missing w tick pc | found w tick stgs pc | last w tick j pc | call w tick j stg pc
  | silent w tick j stg pc | emit w tick j stg order pc | push w tick j order c pc
  | pushed w tick j order c result pc =>
    rw [(drained past).2 w] at pc
    cases pc
  | _ => exact drained past

theorem drained_reachable {onTick : S → TickData F → S × Option Order}
    {added : List (Symbol × S)} {s : State F S W}
    (reach : (machine onTick W added).Reachable s) : Drained s := by
  apply Machine.Reachable.invariant (M := machine onTick W added) Drained ?_ ?_ reach
  · intro past
    simp [machine, init] at past
  intro s a t _ drained step
  exact drained.step (step_cases step)

theorem accepted_at_end {onTick : S → TickData F → S × Option Order}
    {added : List (Symbol × S)} {h : List (State F S W × Action F W)} {s : State F S W}
    (run : (machine onTick W added).Run h s) (exited : s.pusher = .exited) :
    (accepted h : Multiset Order) = sent h + s.stored := by
  have stored := Mpsc.accepted_sizeT (fits W) (channel_run run)
  have idle := (aligned_reachable run.reachable).consumer (by simp [exited])
  rw [popped_run run, idle, exited] at stored
  simpa [Pusher.hand, Mpsc.Consumer.hand, accepted, State.stored] using stored

theorem stored_at_end {onTick : S → TickData F → S × Option Order}
    {added : List (Symbol × S)} {s : State F S W}
    (reach : (machine onTick W added).Reachable s) (returned : s.main = .returned)
    (exited : s.pusher = .exited) : s.stored = 0 ↔ s.channel.outstanding = 0 := by
  have aligned := aligned_reachable reach
  have quiet : ∀ w, s.channel.producer w = .idle := by
    intro w
    rw [← Mpsc.held_zero_iff, aligned.producers w,
      (drained_reachable reach (Or.inr returned)).2 w]
    rfl
  exact Mpsc.stored_zero_iff (spare W) (channel_reachable reach)
    (aligned.consumer (by simp [exited])) quiet

/-- `_head` and `_tail` agree at the exit, and no fetch_add follows it. -/
theorem within_zero_iff (s : State F S W) (a : Action F W) :
    Within 0 s a ↔ (exits s a = true → s.channel.head = s.channel.tail) ∧
      (draws s a = true → s.pusher ≠ .exited) := by
  have none : s.channel.outstanding ≤ 0 ↔ s.channel.head = s.channel.tail := by
    rw [Nat.le_zero]
    change (s.channel.head - s.channel.tail).toNat = (0#64).toNat ↔ _
    rw [BitVec.toNat_inj, BitVec.sub_eq_iff_eq_add, BitVec.zero_add]
  simp [Within, none]

/-- When start() has returned and the order-push thread has left its loop, every order
    whose push returned true is sent and none is left in the channel, exactly in the runs
    in which the channel is empty when the thread leaves its loop and no fetch_add follows. -/
theorem shutdown_sends_iff {onTick : S → TickData F → S × Option Order}
    {added : List (Symbol × S)} {h : List (State F S W × Action F W)} {s : State F S W}
    (run : (machine onTick W added).Run h s) (returned : s.main = .returned)
    (exited : s.pusher = .exited) :
    ((accepted h : Multiset Order) ≤ sent h ∧ s.stored = 0) ↔
      ∀ x ∈ h, (exits x.1 x.2 = true → x.1.channel.head = x.1.channel.tail) ∧
        (draws x.1 x.2 = true → x.1.pusher ≠ .exited) := by
  have settled := (settled_run 0 run).after exited
  simp only [Nat.le_zero, within_zero_iff] at settled
  rw [← settled, ← stored_at_end run.reachable returned exited, accepted_at_end run exited]
  simp

/-! Two workers, one DualThrust, one tick. -/

def wholeTask {W : ThreadNum} (w : Fin W.val) : List (Action ℚ W) :=
  taskUpToOrder w ++ taskPush w ++ [.worker w]

def oneTick {W : ThreadNum} : List (Action ℚ W) := [.main, .main, .recv (some (tickOf [97] 10))]

def stopAndExit {W : ThreadNum} : List (Action ℚ W) := [.stop, .pusher]

def returnFromStart {W : ThreadNum} : List (Action ℚ W) := [.main, .main, .main]

def sentThenStop : List (Action ℚ twoWorkers) :=
  oneTick ++ wholeTask 0 ++ sendOne ++ stopAndExit ++ returnFromStart

theorem sentThenStop_clean :
    let M := onePerSymbol
    ∃ s, M.exec M.init sentThenStop = some s ∧
      (accepted (M.steps M.init sentThenStop)).length = 1 ∧
      (accepted (M.steps M.init sentThenStop) : Multiset Order) ≤
        sent (M.steps M.init sentThenStop) ∧
      s.stored = 0 :=
  ⟨_, (Option.some_get (by decide +kernel)).symm, by decide +kernel,
    (shutdown_sends_iff (Machine.run_get (by decide +kernel)) (by decide +kernel)
      (by decide +kernel)).mpr (by decide +kernel)⟩

def stopThenTask : List (Action ℚ twoWorkers) :=
  oneTick ++ stopAndExit ++ wholeTask 0 ++ returnFromStart

/-- push returned true, start() has returned, and the order is still in the channel. -/
theorem order_left_behind :
    ¬ ∀ h s, onePerSymbol.Run h s → s.main = .returned → s.pusher = .exited →
      (accepted h : Multiset Order) ≤ sent h := by
  intro always
  have run := @Machine.run_get _ _ onePerSymbol stopThenTask (by decide +kernel)
  have all := always _ _ run (by decide +kernel) (by decide +kernel)
  revert all
  decide +kernel

end CtaEngine
