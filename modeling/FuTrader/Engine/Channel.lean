import FuTrader.Channel.Held
import FuTrader.Engine.CtaEngine

/- The channel inside the engine: its part of a run is a run of the queue, and where
   the threads are tells what their calls of push and pop hold. -/
namespace CtaEngine
open FuTrader
variable {F S : Type} {W : ThreadNum}

def channelAct (s : State F S W) : Action F W → Option (Mpsc.Action Order W.val)
  | .worker w => match s.worker w with
    | .push _ _ order => some (.push w order)
    | .pushing _ _ _ => some (.producer w)
    | _ => none
  | .spurious w => some (.spurious w)
  | .pusher => match s.pusher with
    | .pop => some (.pop .optional)
    | .popping => some .consumer
    | _ => none
  | .notify w => some (.wake w)
  | _ => none

def channelPart (h : List (State F S W × Action F W)) :
    List (Mpsc.State Mpsc.SizeT Order channelSize W.val × Mpsc.Action Order W.val) :=
  Machine.partOf State.channel channelAct h

theorem Step.channel {onTick : S → TickData F → S × Option Order} {s t : State F S W}
    {a : Action F W} (step : Step onTick s a t) :
    (∀ b, channelAct s a = some b → Moves s b t.channel) ∧
      (channelAct s a = none → t.channel = s.channel) := by
  cases step with
  | push w tick j order c pc moves | pushing w tick j order c pc moves
  | pushed w tick j order c result pc moves | spurious w c moves | pop c pc moves
  | popping c pc moves | empty c pc moves | taken c order pc moves | notify w c moves =>
    simpa [channelAct, *] using moves
  | _ => simp [channelAct, *]

theorem channel_run {onTick : S → TickData F → S × Option Order} {added : List (Symbol × S)}
    {h : List (State F S W × Action F W)} {s : State F S W}
    (run : (machine onTick W added).Run h s) :
    (Mpsc.machine channelSize.sizeT orderElement W.val).Run (channelPart h) s.channel := by
  apply run.component State.channel channelAct rfl
  · intro s a t b step act
    exact (step_cases step).channel.1 b act
  · intro s a t step act
    exact (step_cases step).channel.2 act

theorem fits (W : ThreadNum) : channelSize.val + W.val ≤ 2 ^ 64 := by
  have := W.lt
  have : channelSize.val = 1024 := rfl
  omega

def Worker.inPush : Worker F → Multiset Order
  | .pushing _ _ order => {order}
  | _ => 0

def Unstarted (s : State F S W) : Prop := s.main = .start → s.pusher = .notStarted

theorem Unstarted.step {onTick : S → TickData F → S × Option Order} {s t : State F S W}
    {a : Action F W} (unstarted : Unstarted s) (step : Step onTick s a t) : Unstarted t := by
  intro start
  cases step with
  | launch | loop | drained | finish | recv => simp at start; try (split at start <;> cases start)
  | again pc | pop c pc | popping c pc | empty c pc | taken c order pc | send order pc | woken pc =>
    simp [unstarted start] at pc
  | _ => exact unstarted start

theorem unstarted_reachable {onTick : S → TickData F → S × Option Order}
    {added : List (Symbol × S)} {s : State F S W}
    (reach : (machine onTick W added).Reachable s) : Unstarted s := by
  apply Machine.Reachable.invariant (M := machine onTick W added) Unstarted (fun _ => rfl)
    ?_ reach
  intro s a t _ unstarted step
  exact unstarted.step (step_cases step)

/-- The workers inside push are the busy producers; pop runs inside the loop of the
    order-push thread only. -/
structure Aligned (s : State F S W) : Prop where
  producers : ∀ w, (s.channel.producer w).held = (s.worker w).inPush
  consumer : s.pusher ≠ .popping → s.channel.consumer = .idle

theorem aligned_init (added : List (Symbol × S)) : Aligned (F := F) (init W added) where
  producers _ := rfl
  consumer _ := rfl

theorem Aligned.setWorker {s t : State F S W} (aligned : Aligned s) {w : Fin W.val}
    {x : Worker F} (channel : t.channel = s.channel) (pusher : t.pusher = s.pusher)
    (worker : t.worker = Function.update s.worker w x) (before : (s.worker w).inPush = 0)
    (after : x.inPush = 0) : Aligned t where
  producers := by
    intro v
    rw [channel, aligned.producers v, worker]
    by_cases here : v = w
    · subst here
      rw [Function.update_self, before, after]
    · rw [Function.update_of_ne here]
  consumer := by
    rw [channel, pusher]
    exact aligned.consumer

theorem Aligned.step {onTick : S → TickData F → S × Option Order} {s t : State F S W}
    {a : Action F W} (unstarted : Unstarted s) (aligned : Aligned s) (step : Step onTick s a t) :
    Aligned t := by
  cases step with
  | launch pc =>
    exact ⟨aligned.producers, fun _ => aligned.consumer (by simp [unstarted pc])⟩
  | loop | drained | finish | recv | stop => exact ⟨aligned.producers, aligned.consumer⟩
  | run w k tick free task =>
    exact aligned.setWorker rfl rfl rfl (by rw [free]; rfl) rfl
  | missing w tick pc absent | found w tick stgs pc present | last w tick j pc absent
  | call w tick j stg pc present | silent w tick j stg pc present none
  | emit w tick j stg order pc present some =>
    exact aligned.setWorker rfl rfl rfl (by rw [pc]; rfl) rfl
  | push w tick j order c pc moves =>
    have step := Mpsc.step_cases moves
    refine ⟨fun v => ?_, fun out => ?_⟩
    · change (c.producer v).held = (Function.update s.worker w _ v).inPush
      rw [Mpsc.held_step step v]
      by_cases here : v = w
      · simp [Mpsc.heldAfter, here, Worker.inPush]
      · simp [Mpsc.heldAfter, here, aligned.producers v]
    · exact (Mpsc.consumer_kept step (Or.inl ⟨_, _, rfl⟩)).trans (aligned.consumer out)
  | pushing w tick j order c pc moves inside =>
    have step := Mpsc.step_cases moves
    refine ⟨fun v => ?_, fun out => ?_⟩
    · change (c.producer v).held = (s.worker v).inPush
      rw [Mpsc.held_step step v]
      simp [Mpsc.heldAfter, inside, aligned.producers v]
    · exact (Mpsc.consumer_kept step (Or.inr (Or.inl ⟨_, rfl⟩))).trans (aligned.consumer out)
  | pushed w tick j order c result pc moves returns =>
    have step := Mpsc.step_cases moves
    refine ⟨fun v => ?_, fun out => ?_⟩
    · change (c.producer v).held = (Function.update s.worker w _ v).inPush
      rw [Mpsc.held_step step v]
      by_cases here : v = w
      · simp [Mpsc.heldAfter, here, returns, Worker.inPush]
      · simp [Mpsc.heldAfter, here, aligned.producers v]
    · exact (Mpsc.consumer_kept step (Or.inr (Or.inl ⟨_, rfl⟩))).trans (aligned.consumer out)
  | spurious w c moves =>
    have step := Mpsc.step_cases moves
    exact ⟨fun v => (Mpsc.held_step step v).trans (aligned.producers v), fun out =>
      (Mpsc.consumer_kept step (Or.inr (Or.inr ⟨_, rfl⟩))).trans (aligned.consumer out)⟩
  | again pc => exact ⟨aligned.producers, fun _ => aligned.consumer (by simp [pc])⟩
  | pop c pc moves =>
    have step := Mpsc.step_cases moves
    exact ⟨fun v => (Mpsc.held_step step v).trans (aligned.producers v), fun out =>
      absurd rfl out⟩
  | popping c pc moves inside =>
    have step := Mpsc.step_cases moves
    exact ⟨fun v => (Mpsc.held_step step v).trans (aligned.producers v), fun out =>
      absurd pc out⟩
  | empty c pc moves returns | taken c order pc moves returns =>
    have step := Mpsc.step_cases moves
    exact ⟨fun v => (Mpsc.held_step step v).trans (aligned.producers v), fun _ =>
      Mpsc.idle_of_popResult step returns⟩
  | notify w c moves =>
    have step := Mpsc.step_cases moves
    refine ⟨fun v => (Mpsc.held_step step v).trans (aligned.producers v), fun out => ?_⟩
    have idle := aligned.consumer out
    cases step with
    | wake i k pos value u ticket seqVal pc parked same => simp [idle] at pc
  | send order pc => exact ⟨aligned.producers, fun _ => aligned.consumer (by simp [pc])⟩
  | woken pc => exact ⟨aligned.producers, fun _ => aligned.consumer (by simp [pc])⟩

theorem aligned_reachable {onTick : S → TickData F → S × Option Order}
    {added : List (Symbol × S)} {s : State F S W}
    (reach : (machine onTick W added).Reachable s) : Aligned s := by
  apply Machine.Reachable.invariant (M := machine onTick W added) Aligned (aligned_init added)
    ?_ reach
  intro s a t reach aligned step
  exact aligned.step (unstarted_reachable reach) (step_cases step)

end CtaEngine
