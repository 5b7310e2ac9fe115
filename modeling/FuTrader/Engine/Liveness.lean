import FuTrader.Channel.Progress
import FuTrader.Engine.InTurn

/- While nobody calls stop and no thread is held up for ever, the order-push thread comes back
   to its pop again and again, so that every order that is returned is sent or refused. -/
namespace CtaEngine
open FuTrader
variable {F S : Type} {W : ThreadNum}

/- Whose step it is. Nobody has to call stop, and nobody has to wake up without reason. -/
inductive Thread (W : ThreadNum) where
  | main
  | worker (w : Fin W.val)
  | orderPush
  | outside

def Action.thread : Action F W → Thread W
  | .main | .recv _ => .main
  | .run w _ | .worker w => .worker w
  | .pusher | .notify _ => .orderPush
  | .stop | .spurious _ => .outside

section
variable {onTick : S → TickData F → S × Option Order} {added : List (Symbol × S)}
  {s t : State F S W} {a : Action F W}

/-! Before stop. -/

def Alive (s : State F S W) : Prop :=
  s.running = true ∧ (s.main = .start ∨ s.main = .check ∨ s.main = .poll)

theorem Step.alive (step : Step onTick s a t) (alive : Alive s) (other : a ≠ .stop) : Alive t := by
  obtain ⟨running, main⟩ := alive
  cases step with
  | drained pc | finish pc => simp [pc] at main
  | stop => exact absurd rfl other
  | launch pc | loop pc | recv tick pc => simp [Alive, running]
  | _ => exact ⟨running, main⟩

theorem alive_forever (w : (machine onTick W added).Forever)
    (running : ∀ n, w.action n ≠ some .stop) (n : Nat) : Alive (w.state n) := by
  induction n with
  | zero =>
    rw [w.first]
    exact ⟨rfl, .inl rfl⟩
  | succ n ih =>
    cases taken : w.action n with
    | none => rwa [w.rests n taken]
    | some a =>
      exact (step_cases (w.moves n a taken)).alive ih fun stops => running n (stops ▸ taken)

/-- The order-push thread starts with the loop of start(), and ends after stop. -/
structure Launched (s : State F S W) : Prop where
  started : s.pusher = .notStarted → s.main = .start
  ended : s.pusher = .exited → s.running = false

theorem Launched.step (launched : Launched s) (step : Step onTick s a t) : Launched t := by
  obtain ⟨started, ended⟩ := launched
  cases step with
  | again pc => cases running : s.running <;> exact ⟨by simp, by simp⟩
  | launch | pop | empty | taken | send | woken => exact ⟨by simp, by simp⟩
  | popping c pc => exact ⟨by simp [pc], by simp [pc]⟩
  | loop pc | drained pc | recv tick pc =>
    exact ⟨fun waits => absurd (started waits) (by simp [pc]), ended⟩
  | finish pc => exact ⟨fun waits => absurd (started waits) (by simp [pc]), fun _ => rfl⟩
  | stop => exact ⟨started, fun _ => rfl⟩
  | _ => exact ⟨started, ended⟩

theorem launched_reachable (reach : (machine onTick W added).Reachable s) : Launched s := by
  apply Machine.Reachable.invariant (M := machine onTick W added) Launched ?_ ?_ reach
  · exact ⟨fun _ => rfl, by simp [machine, init]⟩
  · exact fun s a t _ launched step => launched.step (step_cases step)

/-! The order-push thread comes to its next pop. -/

def InPop (s : State F S W) : Prop := s.pusher = .pop ∨ s.pusher = .popping

def Pusher.toPop : Pusher → Nat
  | .notStarted => 3
  | .send _ | .sleep => 2
  | .check => 1
  | .pop | .popping | .exited => 0

def waker (s : State F S W) : Thread W := if s.pusher = .notStarted then .main else .orderPush

theorem waker_able (launched : Launched s) (alive : Alive s) (out : ¬ InPop s) :
    Machine.Forever.Enabled (machine onTick W added) Action.thread s (waker s) := by
  unfold InPop at out
  cases pc : s.pusher with
  | notStarted =>
    exact ⟨.main, by simp [Action.thread, waker, pc],
      by simp [machine, CtaEngine.step, mainStep, launched.started pc]⟩
  | check | send order | sleep =>
    exact ⟨.pusher, by simp [Action.thread, waker, pc],
      by simp [machine, CtaEngine.step, pusherStep, pc]⟩
  | pop | popping => simp [pc] at out
  | exited =>
    have stopped := launched.ended pc
    simp [alive.1] at stopped

theorem InPop.of_notify {w : Fin W.val} {c : Mpsc.State Mpsc.SizeT Order channelSize W.val}
    (aligned : Aligned s) (moves : Moves s (.wake w) c) : InPop s := by
  by_contra out
  have idle := aligned.consumer fun popping => out (.inr popping)
  cases Mpsc.step_cases moves with
  | wake i k pos value u ticket seqVal pc parked same => simp [idle] at pc

theorem Step.toPop (step : Step onTick s a t) (alive : Alive s) (launched : Launched s)
    (unstarted : Unstarted s) (aligned : Aligned s) (out : ¬ InPop s) :
    InPop t ∨ t.pusher.toPop < s.pusher.toPop ∨
      t.pusher.toPop = s.pusher.toPop ∧ waker t = waker s ∧ a.thread ≠ waker s := by
  have waits : ∀ {pc : Main}, s.main = pc → pc ≠ .start → waker s = .orderPush := by
    intro pc main past
    exact if_neg fun waits => past (main ▸ launched.started waits)
  unfold waker at *
  cases step with
  | launch pc => simp [unstarted pc, Pusher.toPop]
  | loop pc | drained pc | finish pc | recv tick pc =>
    exact .inr (.inr ⟨rfl, rfl, by simp [waits pc, Action.thread]⟩)
  | again pc => simp [InPop, alive.1]
  | pop c pc | popping c pc | empty c pc | taken c order pc => simp [InPop, pc] at out
  | notify w c moves => exact absurd (.of_notify aligned moves) out
  | send order pc | woken pc => simp [pc, Pusher.toPop]
  | _ => exact .inr (.inr ⟨rfl, rfl, by split <;> simp [Action.thread]⟩)

theorem pop_again (w : (machine onTick W added).Forever)
    (running : ∀ n, w.action n ≠ some .stop) (main : w.FairTo Action.thread .main)
    (orderPush : w.FairTo Action.thread .orderPush) (n : Nat) :
    ∃ m, n ≤ m ∧ InPop (w.state m) := by
  obtain ⟨m, later, reached⟩ := w.reaches (fun s => InPop s ∨ ¬ Alive s) (·.pusher.toPop) waker
    (fun s => by unfold waker; split; exacts [main, orderPush])
    (fun s reach short => by
      obtain ⟨out, alive⟩ := not_or.mp short
      exact waker_able (launched_reachable reach) (not_not.mp alive) out)
    (fun s a t reach short step => by
      obtain ⟨out, alive⟩ := not_or.mp short
      rcases (step_cases step).toPop (not_not.mp alive) (launched_reachable reach)
        (unstarted_reachable reach) (aligned_reachable reach) out with now | nearer
      · exact .inl (.inl now)
      · exact .inr nearer) n
  exact ⟨m, later, reached.resolve_right (not_not.mpr (alive_forever w running m))⟩

/-! The channel's part of the run. -/

def channelForever (w : (machine onTick W added).Forever) :
    (Mpsc.machine channelSize.sizeT orderElement W.val).Forever :=
  w.component State.channel channelAct rfl
    (fun _ _ _ b step act => (step_cases step).channel.1 b act)
    (fun _ _ _ step act => (step_cases step).channel.2 act)

theorem channel_history (w : (machine onTick W added).Forever) (n : Nat) :
    (channelForever w).history n = channelPart (w.history n) := w.component_history n

theorem pushing_of_able {w : Fin W.val} (aligned : Aligned s)
    (able : (Mpsc.producerStep channelSize.sizeT s.channel w).isSome) :
    ∃ tick j order, s.worker w = .pushing tick j order := by
  have held := aligned.producers w
  cases pc : s.worker w with
  | pushing tick j order => exact ⟨tick, j, order, rfl⟩
  | _ =>
    rw [pc] at held
    have idle : s.channel.producer w = .idle := (Mpsc.held_zero_iff _).mp held
    simp [Mpsc.producerStep, idle] at able

theorem producer_fair {w : (machine onTick W added).Forever} {v : Fin W.val}
    (fair : w.FairTo Action.thread (.worker v)) :
    (channelForever w).FairTo Mpsc.Action.thread (.producer v) := by
  intro n able
  have able : ∀ m, n ≤ m →
      (Mpsc.producerStep channelSize.sizeT (w.state m).channel v).isSome := by
    intro m later
    obtain ⟨b, acts, possible⟩ := able m later
    cases b <;> cases acts
    exact possible
  have pushing := fun {m} (later : n ≤ m) =>
    pushing_of_able (aligned_reachable (w.run m).reachable) (able m later)
  obtain ⟨m, later, a, taken, acts⟩ := fair n fun m later => by
    obtain ⟨tick, j, order, pc⟩ := pushing later
    refine ⟨.worker v, rfl, ?_⟩
    simp only [machine, CtaEngine.step, workerStep, pc, channelStep, Mpsc.step]
    split <;> simp [able m later]
  obtain ⟨tick, j, order, pc⟩ := pushing later
  refine ⟨m, later, .producer v, ?_, rfl⟩
  have moved := w.moves m a taken
  cases a <;> cases acts
  · simp [machine, CtaEngine.step, runStep, pc] at moved
  · simp [channelForever, Machine.Forever.component, taken, channelAct, pc]

def PopRuns (s : State F S W) : Prop := s.pusher = .popping → s.channel.consumer ≠ .idle

theorem PopRuns.step (runs : PopRuns s) (step : Step onTick s a t) : PopRuns t := by
  intro popping
  have kept : ∀ {b : Mpsc.Action Order W.val}
      {c : Mpsc.State Mpsc.SizeT Order channelSize W.val}, Moves s b c → s.pusher = .popping →
      (b = .consumer → Mpsc.popResult channelSize.sizeT s.channel = none) →
      c.consumer ≠ .idle :=
    fun moves popping inside => Mpsc.consumer_runs (Mpsc.step_cases moves) (runs popping) inside
  cases step with
  | push w tick j order c pc moves => exact kept moves popping (by simp)
  | pushing w tick j order c pc moves inside => exact kept moves popping (by simp)
  | pushed w tick j order c result pc moves returns => exact kept moves popping (by simp)
  | spurious w c moves => exact kept moves popping (by simp)
  | notify w c moves => exact kept moves popping (by simp)
  | popping c pc moves inside => exact kept moves pc fun _ => inside
  | pop c pc moves =>
    cases Mpsc.step_cases moves with
    | pop k idle => simp
  | again pc => cases running : s.running <;> simp [running] at popping
  | launch pc | empty c pc | taken c order pc | send order pc | woken pc => simp at popping
  | _ => exact runs popping

theorem popRuns_reachable (reach : (machine onTick W added).Reachable s) : PopRuns s := by
  apply Machine.Reachable.invariant (M := machine onTick W added) PopRuns ?_ ?_ reach
  · simp [PopRuns, machine, init]
  · exact fun s a t _ runs step => runs.step (step_cases step)

theorem InPop.able (inPop : InPop s) (aligned : Aligned s) (runs : PopRuns s) :
    Machine.Forever.Enabled (machine onTick W added) Action.thread s .orderPush := by
  rcases inPop with pc | pc
  · have idle := aligned.consumer (by simp [pc])
    exact ⟨.pusher, rfl, by
      simp [machine, CtaEngine.step, pusherStep, channelStep, Mpsc.step, Mpsc.popStep, pc, idle]⟩
  · cases found : Mpsc.woken channelSize.sizeT s.channel with
    | none =>
      have possible := Mpsc.pop_able orderElement (runs pc) found
      refine ⟨.pusher, rfl, ?_⟩
      simp only [machine, CtaEngine.step, pusherStep, pc, channelStep]
      split <;> simp [possible]
    | some v =>
      have possible := Mpsc.woken_able orderElement found
      exact ⟨.notify v, rfl, by simp [machine, CtaEngine.step, channelStep, possible]⟩

theorem InPop.stays (inPop : InPop s) (unstarted : Unstarted s) (step : Step onTick s a t)
    (other : a.thread ≠ .orderPush) : InPop t := by
  cases step with
  | launch pc => simp [InPop, unstarted pc] at inPop
  | again | pop | popping | empty | taken | notify | send | woken => exact absurd rfl other
  | _ => exact inPop

theorem consumer_fair {w : (machine onTick W added).Forever}
    (running : ∀ n, w.action n ≠ some .stop) (main : w.FairTo Action.thread .main)
    (orderPush : w.FairTo Action.thread .orderPush) :
    (channelForever w).FairTo Mpsc.Action.thread .consumer := by
  intro n _
  obtain ⟨m, later, inPop⟩ := pop_again w running main orderPush n
  obtain ⟨k, after, inPop, a, taken, acts⟩ := orderPush.acts InPop inPop
    (fun s reach inPop => inPop.able (aligned_reachable reach) (popRuns_reachable reach))
    (fun s a t reach inPop step => inPop.stays (unstarted_reachable reach) (step_cases step))
  refine ⟨k, Nat.le_trans later after, ?_⟩
  cases a <;> cases acts
  · rcases inPop with pc | pc
    · exact ⟨.pop .optional, by simp [channelForever, Machine.Forever.component, taken,
        channelAct, pc], rfl⟩
    · exact ⟨.consumer, by simp [channelForever, Machine.Forever.component, taken,
        channelAct, pc], rfl⟩
  · rename_i v
    exact ⟨.wake v, by simp [channelForever, Machine.Forever.component, taken, channelAct], rfl⟩

/-! Every order with a ticket is sent. -/

theorem Step.sends (step : Step onTick s a t) (aligned : Aligned s) {order : Order}
    (pc : s.pusher = .send order) (acts : a.thread = .orderPush) : t.pusher.hand = [] := by
  cases step with
  | send order pc => rfl
  | notify w c moves =>
    have inPop := InPop.of_notify aligned moves
    simp [InPop, pc] at inPop
  | again other | pop c other | popping c other | empty c other | taken c order other
  | woken other => simp [pc] at other
  | _ => cases acts

theorem hand_emptied {w : (machine onTick W added).Forever}
    (orderPush : w.FairTo Action.thread .orderPush) (n : Nat) :
    ∃ m, n ≤ m ∧ (Mpsc.popped (channelPart (w.history n))).length ≤
      (sent (w.history m)).length := by
  cases pc : (w.state n).pusher with
  | send order =>
    obtain ⟨m, later, pc, a, taken, acts⟩ := orderPush.acts (·.pusher = .send order) pc
      (fun s _ pc => ⟨.pusher, rfl, by simp [machine, CtaEngine.step, pusherStep, pc]⟩)
      (fun s a t reach pc step other => by
        cases step_cases step with
        | launch start => simp [unstarted_reachable reach start] at pc
        | again | pop | popping | empty | taken | notify | send | woken => exact absurd rfl other
        | _ => exact pc)
    have empty := (step_cases (w.moves m a taken)).sends
      (aligned_reachable (w.run m).reachable) pc acts
    have more : Mpsc.popped (channelPart (w.history n)) <+:
        Mpsc.popped (channelPart (w.history (m + 1))) := by
      rw [popped_log, popped_log]
      exact (w.history_prefix (Nat.le_succ_of_le later)).filterMap _
    refine ⟨m + 1, Nat.le_succ_of_le later, ?_⟩
    have sends := popped_run (w.run (m + 1))
    rw [empty, List.append_nil] at sends
    rw [← sends]
    exact more.length_le
  | _ =>
    refine ⟨n, Nat.le_refl n, ?_⟩
    rw [popped_run (w.run n), pc]
    simp [Pusher.hand]

theorem tickets_reach (few : W.val ≤ 1025) {w : (machine onTick W added).Forever}
    (running : ∀ n, w.action n ≠ some .stop) (main : w.FairTo Action.thread .main)
    (workers : ∀ v, w.FairTo Action.thread (.worker v))
    (orderPush : w.FairTo Action.thread .orderPush) (n : Nat) :
    ∃ m, n ≤ m ∧ (tickets (w.history n)).length ≤ (sent (w.history m)).length := by
  have half := W.lt
  obtain ⟨m, later, popped⟩ := Mpsc.popped_reaches few (by omega) (channelForever w)
    (fun v => producer_fair (workers v)) (consumer_fair running main orderPush) n
  obtain ⟨k, after, out⟩ := hand_emptied orderPush m
  refine ⟨k, Nat.le_trans later after, ?_⟩
  have same := congrArg List.length (tickets_values (w.run n))
  rw [List.length_map, List.length_map] at same
  rw [channel_history, channel_history, same] at popped
  exact Nat.le_trans popped out

theorem sent_of_count {w : (machine onTick W added).Forever} {n m : Nat} (later : n ≤ m)
    (enough : (tickets (w.history n)).length ≤ (sent (w.history m)).length) :
    (tickets (w.history n)).map Prod.snd <+: sent (w.history m) := by
  have more : tickets (w.history n) <+: tickets (w.history m) :=
    (w.history_prefix later).filterMap _
  rw [sent_tickets (w.run m)]
  apply List.IsPrefix.map
  rw [List.prefix_iff_eq_take.mp more]
  exact List.take_prefix_take_left enough

/-- Every order that has got a ticket is sent in the end, in the order of the tickets. -/
theorem every_ticket_sent (few : W.val ≤ 1025) (w : (machine onTick W added).Forever)
    (running : ∀ n, w.action n ≠ some .stop) (main : w.FairTo Action.thread .main)
    (workers : ∀ v, w.FairTo Action.thread (.worker v))
    (orderPush : w.FairTo Action.thread .orderPush) (n : Nat) :
    ∃ m, n ≤ m ∧ (tickets (w.history n)).map Prod.snd <+: sent (w.history m) := by
  obtain ⟨m, later, enough⟩ := tickets_reach few running main workers orderPush n
  exact ⟨m, later, sent_of_count later enough⟩

/-! Two workers take turns with the poll loop and the order-push thread, and all of them go on for
    ever. -/

def turn (tick : TickData F) (s : State F S W) : Thread W → Action F W
  | .main | .outside => if s.main = .poll then .recv (some tick) else .main
  | .worker v => if (s.worker v).isIdle then .run v 0 else .worker v
  | .orderPush => (Mpsc.woken channelSize.sizeT s.channel).elim .pusher .notify

theorem turn_thread (tick : TickData F) (s : State F S W) {i : Thread W} (inside : i ≠ .outside) :
    (turn tick s i).thread = i := by
  cases i with
  | main => by_cases poll : s.main = .poll <;> simp [turn, poll, Action.thread]
  | worker v => cases idle : (s.worker v).isIdle <;> simp [turn, idle, Action.thread]
  | orderPush =>
    cases found : Mpsc.woken channelSize.sizeT s.channel <;> simp [turn, found, Action.thread]
  | outside => exact absurd rfl inside

theorem turn_able (tick : TickData F) {i : Thread W} (inside : i ≠ .outside)
    (able : Machine.Forever.Enabled (machine onTick W added) Action.thread s i) :
    (CtaEngine.step onTick s (turn tick s i)).isSome := by
  obtain ⟨a, rfl, possible⟩ := able
  change (CtaEngine.step onTick s a).isSome at possible
  obtain ⟨t, step⟩ := Option.isSome_iff_exists.mp possible
  have notifies : ∀ {v}, Mpsc.woken channelSize.sizeT s.channel = some v →
      (CtaEngine.step onTick s (.notify v)).isSome := by
    intro v found
    simp [CtaEngine.step, channelStep, Mpsc.woken_able orderElement found]
  cases a with
  | main =>
    have other : s.main ≠ .poll := by
      intro poll
      simp [CtaEngine.step, mainStep, poll] at step
    simpa [Action.thread, turn, other] using possible
  | recv tick' =>
    cases step_cases step with
    | recv _ poll => simp [Action.thread, turn, CtaEngine.step, recvStep, poll]
  | run v k =>
    cases step_cases step with
    | run _ _ task idle there =>
      obtain ⟨inside, _⟩ := List.getElem?_eq_some_iff.mp there
      have some : 0 < s.pending.length := by omega
      simp [Action.thread, turn, CtaEngine.step, runStep, idle, Worker.isIdle, some]
  | worker v =>
    have busy : (s.worker v).isIdle = false := by
      cases pc : s.worker v with
      | idle => simp [CtaEngine.step, workerStep, pc] at step
      | _ => rfl
    simpa [Action.thread, turn, busy] using possible
  | pusher =>
    cases found : Mpsc.woken channelSize.sizeT s.channel with
    | none => simpa [Action.thread, turn, found] using possible
    | some v => simpa [Action.thread, turn, found] using notifies found
  | notify v =>
    cases found : Mpsc.woken channelSize.sizeT s.channel with
    | none => simp [CtaEngine.step, channelStep, Mpsc.woken_none orderElement found v] at possible
    | some v => simpa [Action.thread, turn, found] using notifies found
  | stop | spurious v => exact absurd rfl inside

def roundRobin (n : Nat) : Thread twoWorkers :=
  if n % 4 = 0 then .main
  else if n % 4 = 1 then .worker 0
  else if n % 4 = 2 then .worker 1
  else .orderPush

def busyEngine : onePerSymbol.Forever :=
  Machine.Forever.ofSchedule onePerSymbol fun n s => turn (tickOf [97] 10) s (roundRobin n)

theorem roundRobin_inside (n : Nat) : roundRobin n ≠ .outside := by
  unfold roundRobin
  split_ifs <;> simp

theorem roundRobin_again {i : Thread twoWorkers} (inside : i ≠ .outside) (n : Nat) :
    ∃ m, n ≤ m ∧ roundRobin m = i := by
  cases i with
  | main => exact ⟨4 * n, by omega, by simp [roundRobin]⟩
  | worker v =>
    match v with
    | 0 => exact ⟨4 * n + 1, by omega, by simp [roundRobin, show (4 * n + 1) % 4 = 1 by omega]⟩
    | 1 => exact ⟨4 * n + 2, by omega, by simp [roundRobin, show (4 * n + 2) % 4 = 2 by omega]⟩
  | orderPush =>
    exact ⟨4 * n + 3, by omega, by simp [roundRobin, show (4 * n + 3) % 4 = 3 by omega]⟩
  | outside => exact absurd rfl inside

theorem busyEngine_fair {i : Thread twoWorkers} (inside : i ≠ .outside) :
    busyEngine.FairTo Action.thread i := by
  apply Machine.Forever.ofSchedule_fairTo
  intro n
  obtain ⟨m, later, rfl⟩ := roundRobin_again inside n
  exact ⟨m, later, fun s => ⟨turn_thread _ s inside, turn_able _ inside⟩⟩

theorem busyEngine_running (n : Nat) : busyEngine.action n ≠ some .stop := by
  intro stops
  obtain ⟨t, _, taken⟩ := Option.map_eq_some_iff.mp stops
  have thread := turn_thread (tickOf [97] 10) (busyEngine.state n) (roundRobin_inside n)
  have same : turn (tickOf [97] 10) (busyEngine.state n) (roundRobin n) = .stop := taken
  rw [same] at thread
  exact roundRobin_inside n thread.symm

theorem busyEngine_sent :
    (tickets (busyEngine.history 60)).length = 1 ∧
      ∃ m, 60 ≤ m ∧
        (tickets (busyEngine.history 60)).map Prod.snd <+: sent (busyEngine.history m) :=
  ⟨by decide +kernel,
    every_ticket_sent (by decide) busyEngine busyEngine_running (busyEngine_fair (by simp))
      (fun _ => busyEngine_fair (by simp)) (busyEngine_fair (by simp)) 60⟩

end
end CtaEngine
