import FuTrader.BtMd.Feed

/- In a fair run every tick reaches the main thread: bt_thread retries only while the channel
   is full, and then the main thread can go on. -/
namespace BactestMd.Feed
open FuTrader (TickData)
open Mpsc (BufSize Element twoSlots)
variable {B : BufSize} {C : Casts} {E : Element (TickData ℚ)}
variable {s t : State B} {items rest : List (TickData ℚ)}

def occupied (s : State B) : Nat := (s.channel.writePos - s.channel.readPos).toNat

def remaining (C : Casts) (s : State B) : Nat := ((s.replay.left C).getD []).length

def replaySteps (s : State B) : Nat :=
  match s.replay with
  | .row _ _ | .sleep _ _ => 6
  | .push _ _ => 5
  | .pushing _ _ => match s.channel.producer with
    | .loadReadPos _ _ => 4
    | .writeData _ _ => 3
    | .storeWritePos _ _ => 2
    | .idle => 0

def readerSteps (s : State B) : Nat :=
  match s.reader with
  | .sleep => 5
  | .pop => 4
  | .popping => match s.channel.consumer with
    | .loadWritePos _ _ => 3
    | .readData _ _ => 2
    | .storeReadPos _ _ _ => 1
    | .idle => 0

/-- The ticks not yet received count first; and a tick in the channel is nearer than one that
    is not. -/
def rank (C : Casts) (s : State B) : Nat :=
  16 * (remaining C s + occupied s) +
    if occupied s = 0 then 8 + replaySteps s else readerSteps s

def helpful (s : State B) : Action := if occupied s = 0 then .replay else .reader

def Delivered (C : Casts) (s : State B) : Prop := remaining C s = 0 ∧ occupied s = 0

theorem Linked.occupied (linked : Linked C items rest s) : occupied s = items.length := by
  obtain ⟨⟨q, ⟨w, r, holds⟩, rfl⟩, _, _, _⟩ := linked
  rw [Feed.occupied, holds.writePos, holds.readPos]
  exact holds.occupied

theorem remaining_of (left : s.replay.left C = some rest) : remaining C s = rest.length := by
  rw [remaining, left, Option.getD_some]

theorem Linked.remaining (linked : Linked C items rest s) : remaining C s = rest.length :=
  remaining_of linked.left

theorem Linked.able (linked : Linked C items rest s) (short : ¬ Delivered C s) :
    (Feed.step C E s (helpful s)).isSome := by
  have pushing := linked.pushing
  have popping := linked.popping
  unfold helpful
  split
  · rename_i nothing
    cases pc : s.replay with
    | row tick rows =>
      have left := linked.left
      rw [pc] at left
      cases rows with
      | nil =>
        have none : Feed.remaining C s = 0 := by simp [Feed.remaining, pc, Replay.left, rowLoop]
        exact absurd ⟨none, nothing⟩ short
      | cons record rows =>
        obtain ⟨next, decoded, _⟩ := Option.bind_eq_some_iff.mp left
        simp [Feed.step, replayStep, pc, decoded]
    | push tick rows =>
      rw [pc] at pushing
      cases idle : s.channel.producer with
      | idle => simp [Feed.step, replayStep, pc, Spsc.pushStep, idle]
      | _ => simp [idle, Spsc.Producer.running, Replay.calls] at pushing
    | pushing tick rows =>
      rw [pc] at pushing
      cases at_pc : s.channel.producer with
      | idle => simp [at_pc, Spsc.Producer.running, Replay.calls] at pushing
      | loadReadPos u w =>
        simp only [Feed.step, replayStep, pc, Spsc.producerStep, at_pc, Option.isSome_map]
        split <;> rfl
      | _ => simp [Feed.step, replayStep, pc, Spsc.producerStep, at_pc]
    | sleep tick rows => simp [Feed.step, replayStep, pc]
  · cases pc : s.reader with
    | pop =>
      rw [pc] at popping
      cases idle : s.channel.consumer with
      | idle => simp [Feed.step, readerStep, pc, Spsc.popStep, idle]
      | _ => simp [idle, Spsc.Consumer.running, Reader.calls] at popping
    | popping =>
      rw [pc] at popping
      cases at_pc : s.channel.consumer with
      | idle => simp [at_pc, Spsc.Consumer.running, Reader.calls] at popping
      | loadWritePos k r =>
        simp only [Feed.step, readerStep, pc, Spsc.consumerStep, at_pc, Option.isSome_map]
        split <;> rfl
      | _ => simp [Feed.step, readerStep, pc, Spsc.consumerStep, at_pc]
    | sleep => simp [Feed.step, readerStep, pc]

/-! What each step does to the rank. -/

theorem replaySteps_le (s : State B) : replaySteps s ≤ 6 := by
  unfold replaySteps
  split <;> try omega
  split <;> omega

theorem readerSteps_le (s : State B) : readerSteps s ≤ 5 := by
  unfold readerSteps
  split <;> try omega
  split <;> omega

def Nearer (C : Casts) (s : State B) (a : Action) (t : State B) : Prop :=
  rank C t < rank C s ∨ rank C t = rank C s ∧ helpful t = helpful s ∧ a ≠ helpful s

theorem nearer_by_replay (channel : occupied t = occupied s) (left : remaining C t = remaining C s)
    (other : readerSteps t = readerSteps s)
    (steps : occupied s = 0 → replaySteps t < replaySteps s) : Nearer C s .replay t := by
  unfold Nearer rank helpful
  rw [channel, left, other]
  by_cases nothing : occupied s = 0
  · have fewer := steps nothing
    simp only [nothing, if_true]
    omega
  · simp [nothing]

theorem nearer_by_reader (channel : occupied t = occupied s) (left : remaining C t = remaining C s)
    (other : replaySteps t = replaySteps s)
    (steps : occupied s ≠ 0 → readerSteps t < readerSteps s) : Nearer C s .reader t := by
  unfold Nearer rank helpful
  rw [channel, left, other]
  by_cases nothing : occupied s = 0
  · simp [nothing]
  · have fewer := steps nothing
    simp only [nothing, if_false]
    omega

theorem nearer_by_publish
    (total : occupied t + remaining C t = occupied s + remaining C s)
    (left : remaining C s = remaining C t + 1) (other : readerSteps t = readerSteps s) :
    Nearer C s .replay t := by
  have most := readerSteps_le s
  have channel : occupied t = occupied s + 1 := by omega
  unfold Nearer rank helpful
  rw [channel, left, other]
  by_cases nothing : occupied s = 0
  · simp only [nothing, if_true, Nat.zero_add, one_ne_zero, if_false]
    omega
  · simp only [nothing, if_false, Nat.add_eq_zero_iff, false_and]
    exact .inr ⟨by omega, trivial, by decide⟩

theorem nearer_by_receipt (channel : occupied s = occupied t + 1)
    (left : remaining C t = remaining C s) : Nearer C s .reader t := by
  have most := replaySteps_le t
  have most' := readerSteps_le t
  refine .inl ?_
  unfold rank
  rw [channel, left]
  split <;> split <;> omega

theorem Linked.total (linked : Linked C items rest s) {a : Action} (step : Step C E s a t) :
    (receivedOf s a).toList.length + Feed.occupied t + Feed.remaining C t =
      Feed.occupied s + Feed.remaining C s := by
  obtain ⟨items', rest', next, same⟩ := linked.step step
  have lengths := congrArg List.length same
  simp only [List.length_append] at lengths
  rw [next.occupied, next.remaining, linked.occupied, linked.remaining]
  exact lengths

theorem Linked.loaded_write (linked : Linked C items rest s) {u : TickData ℚ} {w : Mpsc.SizeT}
    (pc : s.channel.producer = .loadReadPos u w) : w = s.channel.writePos := by
  obtain ⟨⟨q, ⟨_, _, holds⟩, rfl⟩, _, _, _⟩ := linked
  have ok := holds.producer
  rw [pc] at ok
  rw [holds.writePos]
  exact ok

theorem Linked.loaded_read (linked : Linked C items rest s) {k : Mpsc.Overload} {r : Mpsc.SizeT}
    (pc : s.channel.consumer = .loadWritePos k r) : r = s.channel.readPos := by
  obtain ⟨⟨q, ⟨_, _, holds⟩, rfl⟩, _, _, _⟩ := linked
  have ok := holds.consumer
  rw [pc] at ok
  rw [holds.readPos]
  exact ok

theorem Linked.nearer (linked : Linked C items rest s) {a : Action} (step : Step C E s a t) :
    Nearer C s a t := by
  have total := linked.total step
  cases step with
  | decode tick record rows next pc decoded =>
    have left : Feed.remaining C { s with replay := .push next rows } = Feed.remaining C s := by
      simp [Feed.remaining, Replay.left, rowLoop, pc, decoded]
    exact nearer_by_replay rfl left rfl fun _ => by simp [replaySteps, pc]
  | push tick rows channel pc inner =>
    have left : Feed.remaining C { s with channel, replay := .pushing tick rows } =
        Feed.remaining C s := by simp [Feed.remaining, Replay.left, pc]
    cases inner with
    | push _ idle =>
      exact nearer_by_replay rfl left rfl fun _ => by simp [replaySteps, pc]
  | pushing tick rows channel pc inner =>
    have left := linked.left
    rw [pc] at left
    obtain ⟨later, loop, rfl⟩ := Option.map_eq_some_iff.mp left
    cases inner with
    | refuse u w at_pc full =>
      refine nearer_by_replay rfl ?_ rfl fun nothing => ?_
      · simp [Feed.remaining, Replay.left, pc, Spsc.endOf_refuse at_pc full, afterPush]
      · rw [linked.loaded_write at_pc] at full
        have two := B.two_le
        rw [Feed.occupied] at nothing
        omega
    | pass u w at_pc room =>
      refine nearer_by_replay rfl ?_ rfl fun _ => ?_
      · simp [Feed.remaining, Replay.left, pc, Spsc.endOf_pass at_pc room, afterPush]
      · simp [replaySteps, pc, at_pc, Spsc.endOf_pass at_pc room, afterPush]
    | write u w at_pc =>
      have runs : Spsc.endOf s.channel .producer = none := by simp only [Spsc.endOf, at_pc]
      refine nearer_by_replay rfl ?_ rfl fun _ => ?_
      · simp [Feed.remaining, Replay.left, pc, runs, afterPush]
      · simp [replaySteps, pc, at_pc, runs, afterPush]
    | publish u w at_pc =>
      have ends : Spsc.endOf s.channel .producer = some (.push u, .pushed true) := by
        simp only [Spsc.endOf, at_pc]
      rw [ends] at total ⊢
      refine nearer_by_publish (by simpa [receivedOf] using total) ?_ rfl
      rw [linked.remaining]
      exact congrArg (· + 1) (Eq.symm (remaining_of loop))
  | retry tick rows pc =>
    have left : Feed.remaining C { s with replay := .push tick rows } = Feed.remaining C s := by
      simp [Feed.remaining, Replay.left, pc]
    exact nearer_by_replay rfl left rfl fun _ => by simp [replaySteps, pc]
  | pop channel pc inner =>
    cases inner with
    | pop _ idle =>
      exact nearer_by_reader rfl rfl rfl fun _ => by simp [readerSteps, pc]
  | popping channel pc inner runs =>
    cases inner with
    | empty k r at_pc nothing => simp [Spsc.endOf_empty at_pc nothing] at runs
    | ready k r at_pc filled =>
      exact nearer_by_reader rfl rfl rfl fun _ => by simp [readerSteps, pc, at_pc]
    | read k r at_pc =>
      exact nearer_by_reader rfl rfl rfl fun _ => by simp [readerSteps, pc, at_pc]
    | advance k r value at_pc => simp [Spsc.endOf, at_pc] at runs
  | received channel value pc inner ends =>
    simp only [receivedOf, pc, ends, Option.toList_some, List.length_singleton] at total
    refine nearer_by_receipt ?_ rfl
    change 1 + _ + Feed.remaining C s = _ at total
    omega
  | empty channel pc inner ends =>
    cases inner with
    | empty k r at_pc nothing =>
      refine nearer_by_reader rfl rfl rfl fun some => ?_
      rw [linked.loaded_read at_pc] at nothing
      rw [Feed.occupied, nothing] at some
      exact absurd rfl some
    | ready k r at_pc filled => simp [Spsc.endOf_ready at_pc filled] at ends
    | read k r at_pc => simp [Spsc.endOf, at_pc] at ends
    | advance k r value at_pc => simp [Spsc.endOf, at_pc] at ends
  | again pc => exact nearer_by_reader rfl rfl rfl fun _ => by simp [readerSteps, pc]

theorem Linked.delivered (linked : Linked C items rest s) (goal : Delivered C s) :
    items = [] ∧ rest = [] := by
  obtain ⟨left, nothing⟩ := goal
  rw [linked.remaining] at left
  rw [linked.occupied] at nothing
  exact ⟨List.length_eq_zero_iff.mp nothing, List.length_eq_zero_iff.mp left⟩

/-- However the two threads are scheduled, if neither is held up for ever the main thread gets
    every tick that start makes of the rows, and then nothing more. -/
theorem every_tick_received {D : Type} {epochMs : D → Int64} {table : List (Row D)}
    {ticks : List (TickData ℚ)} (decoded : start C epochMs table = some ticks)
    (w : (machine B C E (table.map (Row.columns epochMs))).Forever) (fair : w.Fair id) :
    ∃ n, ∀ m, n ≤ m → received (w.history m) = ticks := by
  rw [start_eq] at decoded
  obtain ⟨n, _, goal⟩ := w.reaches (Delivered C) (rank C) helpful (fun s => fair (helpful s))
    (fun s reach short => by
      obtain ⟨h, run⟩ := reach
      obtain ⟨items, rest, linked, _⟩ := linked_run decoded run
      exact ⟨helpful s, rfl, linked.able short⟩)
    (fun s a t reach _ step => by
      obtain ⟨h, run⟩ := reach
      obtain ⟨items, rest, linked, _⟩ := linked_run decoded run
      exact .inr (linked.nearer (step_cases step))) 0
  obtain ⟨items, rest, linked, total⟩ := linked_run decoded (w.run n)
  obtain ⟨rfl, rfl⟩ := linked.delivered goal
  simp only [List.append_nil] at total
  refine ⟨n, fun m later => ?_⟩
  obtain ⟨items, rest, _, total'⟩ := linked_run decoded (w.run m)
  have more : received (w.history n) <+: received (w.history m) :=
    (w.history_prefix later).filterMap _
  rw [total] at more
  rw [List.append_assoc] at total'
  exact (more.eq_of_length_le (total' ▸ List.prefix_append _ _).length_le).symm

theorem quiet_received :
    let w := Machine.Forever.ofSchedule quietFeed fun n _ => if n % 2 = 0 then .replay else .reader
    ∃ n, ∀ m, n ≤ m → received (w.history m) = quietTicks := by
  refine every_tick_received quietTicks_decoded _ fun a =>
    Machine.Forever.ofSchedule_fairTo_only (a := a) rfl (fun _ same => same) fun n => ?_
  cases a with
  | replay => exact ⟨2 * n, by omega, fun _ => if_pos (by omega)⟩
  | reader => exact ⟨2 * n + 1, by omega, fun _ => if_neg (by omega)⟩

end BactestMd.Feed
