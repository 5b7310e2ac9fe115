import FuTrader.Channel.MpscTest
import FuTrader.Channel.Progress
import Mathlib.Order.Lattice.Nat

/- The programs of mpsc_test.cc come to their end: as long as the consumer is in its loop it
   pops, so that in the end there are no more tickets, the queue is empty, and a push that is
   tried then goes ahead. -/
namespace MpscTest
open Mpsc (BufSize SizeT Overload)
variable {B : BufSize} {P : Nat} {k : Overload} {body : Fin P → List Int32}

/- Whose step it is. Nobody has to wake up without reason. -/
inductive Thread (P : Nat) where
  | producer (i : Fin P)
  | consumer
  | outside

def Action.thread : Action P → Thread P
  | .producer i => .producer i
  | .consumer | .notify _ => .consumer
  | .spurious _ => .outside

section
variable {s t : State B P} {a : Action P}

theorem consumer_able (aligned : Aligned s) (inLoop : s.consumer ≠ .done) :
    Machine.Forever.Enabled (machine B k body) Action.thread s .consumer := by
  cases pc : s.consumer with
  | loop =>
    refine ⟨.consumer, rfl, ?_⟩
    have idle := aligned.consumer (by simp [pc])
    simp only [machine, MpscTest.step, consumerStep, pc]
    split
    · simp [channelStep, Mpsc.step, Mpsc.popStep, idle]
    · rfl
  | popping =>
    cases found : Mpsc.woken B.sizeT s.channel with
    | none =>
      have possible := Mpsc.pop_able intElement (aligned.popping pc).1 found
      exact ⟨.consumer, rfl, by
        simp [machine, MpscTest.step, consumerStep, pc, channelStep, possible]⟩
    | some i =>
      have possible := Mpsc.woken_able intElement found
      exact ⟨.notify i, rfl, by simp [machine, MpscTest.step, channelStep, possible]⟩
  | done => exact absurd pc inLoop

theorem popping_of_notify (aligned : Aligned s) {i : Fin P} {c : Mpsc.State SizeT Int32 B P}
    (moves : Moves s (.wake i) c) : s.consumer = .popping := by
  by_contra out
  have idle := aligned.consumer out
  cases Mpsc.step_cases moves with
  | wake i _ pos value u ticket seqVal pc parked same => simp [idle] at pc

theorem Step.producer_kept (step : Step k s a t) {i : Fin P} (other : a.thread ≠ .producer i)
    (unparked : ∀ u pos seqVal, s.channel.producer i ≠ .parked u pos seqVal) :
    t.producer i = s.producer i ∧ t.channel.producer i = s.channel.producer i := by
  have kept : ∀ {b c}, Moves s b c → b ≠ .producer i → (∀ u, b ≠ .push i u) →
      c.producer i = s.channel.producer i := fun moves apart outside =>
    Mpsc.producer_kept (Mpsc.step_cases moves) apart outside unparked
  cases step with
  | push j value rest c pc moves | pushing j value rest c pc moves =>
    have apart : j ≠ i := by
      rintro rfl
      exact other rfl
    exact ⟨by simp [apart.symm], kept moves (by simp [apart]) (by simp [apart])⟩
  | spurious j c moves | pop c pc more moves | notify j c moves =>
    exact ⟨rfl, kept moves (by simp) (by simp)⟩
  | exit pc all => exact ⟨rfl, rfl⟩
  | popping c pc moves =>
    rw [afterPop_producer, afterPop_channel]
    exact ⟨rfl, kept moves (by simp) (by simp)⟩

end

/-! The channel's part of a run without end. -/

section
variable (w : (machine B k body).Forever)

def channelForever : (Mpsc.machine B.sizeT intElement P).Forever :=
  w.component State.channel (channelAct k) rfl
    (fun _ _ _ b step act => (step_cases step).channel.1 b act)
    (fun _ _ _ step act => (step_cases step).channel.2 act)

theorem channel_history (n : Nat) : (channelForever w).history n = channelPart k (w.history n) :=
  w.component_history n

end

section
variable {w : (machine B k body).Forever}

theorem producer_fair {i : Fin P} (fair : w.FairTo Action.thread (.producer i)) :
    (channelForever w).FairTo Mpsc.Action.thread (.producer i) := by
  intro n able
  have able : ∀ m, n ≤ m → (Mpsc.producerStep B.sizeT (w.state m).channel i).isSome := by
    intro m later
    obtain ⟨b, acts, possible⟩ := able m later
    cases b <;> cases acts
    exact possible
  have pushing : ∀ m, n ≤ m → ∃ value rest, (w.state m).producer i = .pushing value rest := by
    intro m later
    have held := (aligned_reachable (w.run m).reachable).producers i
    cases pc : (w.state m).producer i with
    | pushing value rest => exact ⟨value, rest, rfl⟩
    | push rest =>
      rw [pc] at held
      have idle : (w.state m).channel.producer i = .idle := (Mpsc.held_zero_iff _).mp held
      simpa [Mpsc.producerStep, idle] using able m later
  obtain ⟨m, later, a, taken, acts⟩ := fair n fun m later => by
    obtain ⟨value, rest, pc⟩ := pushing m later
    exact ⟨.producer i, rfl, by
      simp [machine, MpscTest.step, producerStep, pc, channelStep, Mpsc.step, able m later]⟩
  obtain ⟨value, rest, pc⟩ := pushing m later
  refine ⟨m, later, .producer i, ?_, rfl⟩
  cases a <;> cases acts
  simp [channelForever, Machine.Forever.component, taken, channelAct, pc]

theorem consumer_fair (fair : w.FairTo Action.thread .consumer)
    (inLoop : ∀ n, (w.state n).consumer ≠ .done) :
    (channelForever w).FairTo Mpsc.Action.thread .consumer := by
  intro n _
  obtain ⟨m, later, a, taken, acts⟩ := fair n fun m _ =>
    consumer_able (aligned_reachable (w.run m).reachable) (inLoop m)
  refine ⟨m, later, ?_⟩
  cases a <;> cases acts
  · cases pc : (w.state m).consumer with
    | loop =>
      by_cases more : (w.state m).finishedProducers.toNat < P
      · exact ⟨.pop k, by simp [channelForever, Machine.Forever.component, taken, channelAct, pc,
          more], rfl⟩
      · have ended := w.moves m .consumer taken
        simp only [machine, MpscTest.step, consumerStep, pc, more, if_false,
          Option.some.injEq] at ended
        exact absurd (by rw [← ended]) (inLoop (m + 1))
    | popping =>
      exact ⟨.consumer, by simp [channelForever, Machine.Forever.component, taken, channelAct, pc],
        rfl⟩
    | done => exact absurd pc (inLoop m)
  · rename_i i
    exact ⟨.wake i, by simp [channelForever, Machine.Forever.component, taken, channelAct], rfl⟩

/-! In the end there are no more tickets, and the queue is empty. -/

/-- From `n` on no ticket is drawn, and there is no value left to pop. -/
def Settled (w : (machine B k body).Forever) (n : Nat) : Prop :=
  ∀ m, n ≤ m → tickets k (w.history m) = tickets k (w.history n) ∧
    popped k (w.history m) = (tickets k (w.history n)).map Prod.snd

theorem tickets_le (fits : B.val + P ≤ 2 ^ 64) {h : List (State B P × Action P)} {s : State B P}
    (run : (machine B k body).Run h s) : (tickets k h).length ≤ ∑ i, (body i ++ [-1]).length := by
  have each : ∑ i, (Merged.ofSource i (tickets k h)).length = (tickets k h).length := by
    have count := congrArg Multiset.card (Merged.sum_ofSource (tickets k h))
    simpa only [Multiset.card_sum, Multiset.coe_card, List.length_map] using count
  rw [← each]
  exact Finset.sum_le_sum fun i _ => (tickets_run fits run i).length_le

theorem settles (few : P ≤ B.val + 1) (half : P ≤ 2 ^ 63)
    (producers : ∀ i, w.FairTo Action.thread (.producer i))
    (consumer : w.FairTo Action.thread .consumer) (inLoop : ∀ n, (w.state n).consumer ≠ .done) :
    ∃ n, Settled w n := by
  have fits : B.val + P ≤ 2 ^ 64 := by have := B.le_half; omega
  have longer : ∀ {n m}, n ≤ m → tickets k (w.history n) <+: tickets k (w.history m) := by
    intro n m later
    simp only [tickets, Mpsc.issued, channelPart, Machine.log_partOf]
    exact (w.history_prefix later).filterMap _
  have outLonger : ∀ {n m}, n ≤ m → popped k (w.history n) <+: popped k (w.history m) := by
    intro n m later
    simp only [popped, Mpsc.popped, channelPart, Machine.log_partOf]
    exact (w.history_prefix later).filterMap _
  -- the number of tickets does not grow without end
  let count := fun n => (tickets k (w.history n)).length
  have bounded : BddAbove (Set.range count) :=
    ⟨_, Set.forall_mem_range.mpr fun n => tickets_le fits (w.run n)⟩
  obtain ⟨n, most⟩ := Nat.sSup_mem (Set.range_nonempty count) bounded
  have same : ∀ m, n ≤ m → tickets k (w.history m) = tickets k (w.history n) := by
    intro m later
    have fewer : count m ≤ count n := by
      rw [most]
      exact le_csSup bounded ⟨m, rfl⟩
    exact ((longer later).eq_of_length_le fewer).symm
  obtain ⟨m, later, out⟩ := Mpsc.popped_reaches few half (channelForever w)
    (fun i => producer_fair (producers i)) (consumer_fair consumer inLoop) n
  rw [channel_history, channel_history] at out
  refine ⟨m, fun l after => ?_⟩
  have known := (same l (later.trans after)).trans (same m later).symm
  have inOrder : popped k (w.history l) <+: (tickets k (w.history l)).map Prod.snd :=
    Mpsc.popped_sizeT (.inl fits) (channel_run (w.run l))
  refine ⟨known, ?_⟩
  rw [known] at inOrder
  apply inOrder.eq_of_length_le
  rw [List.length_map, same m later]
  exact Nat.le_trans out (outLonger after).length_le

theorem goes_on {i : Fin P} (fair : w.FairTo Action.thread (.producer i)) {p : Producer}
    {q : Mpsc.Producer SizeT Int32} (unparked : ∀ u pos seqVal, q ≠ .parked u pos seqVal)
    (able : ∀ s : State B P, s.producer i = p → s.channel.producer i = q →
      (step k s (.producer i)).isSome) {n : Nat}
    (now : (w.state n).producer i = p ∧ (w.state n).channel.producer i = q) :
    ∃ m, n ≤ m ∧ ((w.state m).producer i = p ∧ (w.state m).channel.producer i = q) ∧
      w.action m = some (.producer i) := by
  obtain ⟨m, later, there, a, taken, acts⟩ := fair.acts
    (fun s => s.producer i = p ∧ s.channel.producer i = q) now
    (fun s _ there => ⟨.producer i, rfl, able s there.1 there.2⟩)
    (fun s a t _ there step other => by
      have kept := (step_cases step).producer_kept other (there.2 ▸ unparked)
      exact ⟨kept.1.trans there.1, kept.2.trans there.2⟩)
  refine ⟨m, later, there, ?_⟩
  cases a <;> cases acts
  exact taken

theorem draws_ticket {i : Fin P} (fair : w.FairTo Action.thread (.producer i)) {n : Nat}
    {top : SizeT}
    (empty : ∀ m, n ≤ m → (w.state m).channel.head = top ∧ (w.state m).channel.tail = top)
    {value : Int32} {rest : List Int32} (pc : (w.state n).producer i = .push (value :: rest))
    (idle : (w.state n).channel.producer i = .idle) :
    ∃ m, n ≤ m ∧ tickets k (w.history (m + 1)) = tickets k (w.history m) ++ [(i, value)] := by
  obtain ⟨m, later, ⟨pc, idle⟩, begins⟩ := goes_on fair (by simp)
    (fun s pc idle => by
      simp [MpscTest.step, producerStep, pc, channelStep, Mpsc.step, Mpsc.pushStep, idle])
    ⟨pc, idle⟩
  have loads : (w.state (m + 1)).producer i = .pushing value rest ∧
      (w.state (m + 1)).channel.producer i = .loadTail value top := by
    have moved := w.moves m _ begins
    simp only [machine, MpscTest.step, producerStep, pc, channelStep, Mpsc.step,
      Mpsc.pushStep, idle, Option.map_some, Option.some.injEq] at moved
    rw [← moved]
    simp [(empty m later).1]
  obtain ⟨m', later', ⟨pc, loads⟩, loaded⟩ := goes_on fair (by simp)
    (fun s pc loads => by
      simp only [MpscTest.step, producerStep, pc, channelStep, Mpsc.step, Mpsc.producerStep, loads]
      split <;> rfl)
    loads
  have draws : (w.state (m' + 1)).producer i = .pushing value rest ∧
      (w.state (m' + 1)).channel.producer i = .fetchAdd value top top := by
    have tail := (empty m' (by omega)).2
    have room : B.sizeT.full top (w.state m').channel.tail = false := by
      have two := B.two_le
      simp [tail, BufSize.sizeT]
      omega
    have moved := w.moves m' _ loaded
    simp only [machine, MpscTest.step, producerStep, pc, channelStep, Mpsc.step,
      Mpsc.producerStep, loads, room, Mpsc.pushResult, Option.map_some,
      Option.some.injEq, Bool.false_eq_true, if_false] at moved
    rw [← moved]
    simp [afterPush, tail]
  obtain ⟨l, after, ⟨pc, draws⟩, drawn⟩ := goes_on fair (by simp)
    (fun s pc draws => by
      simp [MpscTest.step, producerStep, pc, channelStep, Mpsc.step, Mpsc.producerStep, draws])
    draws
  refine ⟨l, by omega, ?_⟩
  rw [Machine.Forever.history, drawn]
  simp [tickets_snoc, channelAct, pc, Mpsc.ticketOf, draws]

theorem Settled.empty (fits : B.val + P ≤ 2 ^ 64) {n : Nat} (settled : Settled w n) (m : Nat)
    (later : n ≤ m) :
    (w.state m).channel.head = BitVec.ofNat 64 (tickets k (w.history n)).length ∧
      (w.state m).channel.tail = BitVec.ofNat 64 (tickets k (w.history n)).length := by
  obtain ⟨head, tail⟩ := Mpsc.counters_sizeT fits (channel_run (w.run m))
  obtain ⟨same, out⟩ := settled m later
  refine ⟨head.trans (congrArg (BitVec.ofNat 64 ·.length) same), tail.trans ?_⟩
  have count := congrArg List.length out
  rw [List.length_map] at count
  exact congrArg (BitVec.ofNat 64) count

theorem Settled.whole (few : P ≤ B.val + 1) (half : P ≤ 2 ^ 63)
    (producers : ∀ i, w.FairTo Action.thread (.producer i))
    (consumer : w.FairTo Action.thread .consumer) (inLoop : ∀ n, (w.state n).consumer ≠ .done)
    {n : Nat} (settled : Settled w n) (i : Fin P) :
    Mpsc.byProducer i (tickets k (w.history n)) = body i ++ [-1] := by
  have fits : B.val + P ≤ 2 ^ 64 := by have := B.le_half; omega
  obtain ⟨m, later, idle⟩ := Mpsc.push_reaches few half (channelForever w)
    (fun i => producer_fair (producers i)) (consumer_fair consumer inLoop) i n
  have idle : (w.state m).channel.producer i = .idle := idle
  obtain ⟨same, out⟩ := settled m later
  have left := left_of_popped fits (w.run m) (out.trans (by rw [same])) i
  rw [same] at left
  have held := (aligned_reachable (w.run m).reachable).producers i
  cases pc : (w.state m).producer i with
  | pushing value rest => simp [idle, pc, Mpsc.Producer.held, Producer.inPush] at held
  | push values =>
    cases values with
    | nil => simpa [pc, Producer.left] using left
    | cons value rest =>
      obtain ⟨l, after, longer⟩ := draws_ticket (producers i)
        (fun l after => settled.empty fits l (later.trans after)) pc idle
      rw [(settled l (by omega)).1, (settled (l + 1) (by omega)).1] at longer
      simp at longer

/-! The consumer leaves its loop. -/

theorem Step.stays_done {s t : State B P} {a : Action P} (aligned : Aligned s)
    (step : Step k s a t) (done : s.consumer = .done) : t.consumer = .done := by
  cases step with
  | pop c pc | exit pc | popping c pc => simp [pc] at done
  | notify i c moves => simp [popping_of_notify aligned moves] at done
  | _ => exact done

theorem done_forever {n : Nat} (done : (w.state n).consumer = .done) {m : Nat} (later : n ≤ m) :
    (w.state m).consumer = .done := by
  induction later with
  | refl => exact done
  | @step m later ih =>
    cases taken : w.action m with
    | none => rwa [w.rests m taken]
    | some a =>
      exact (step_cases (w.moves m a taken)).stays_done (aligned_reachable (w.run m).reachable) ih

theorem consumer_ends (few : P ≤ B.val + 1) (half : P ≤ 2 ^ 63) (unmarked : ∀ i, -1 ∉ body i)
    (producers : ∀ i, w.FairTo Action.thread (.producer i))
    (consumer : w.FairTo Action.thread .consumer) : ∃ n, (w.state n).consumer = .done := by
  by_contra never
  have inLoop : ∀ n, (w.state n).consumer ≠ .done := fun n done => never ⟨n, done⟩
  obtain ⟨n, settled⟩ := settles few half producers consumer inLoop
  have markers : ((tickets k (w.history n)).map Prod.snd).count (-1) = P := by
    have one : ∀ i, (Merged.ofSource i (tickets k (w.history n))).count (-1) = 1 := by
      intro i
      have whole : Merged.ofSource i (tickets k (w.history n)) = body i ++ [-1] :=
        settled.whole few half producers consumer inLoop i
      rw [whole, List.count_append, List.count_eq_zero.mpr (unmarked i), List.count_singleton_self]
    rw [← Merged.sum_count]
    simp [one]
  have all : ∀ m, n ≤ m → P ≤ (w.state m).finishedProducers.toNat := by
    intro m later
    rw [(told_run (w.run m)).finished, (settled m later).2, markers, UInt64.toNat_ofNat',
      Nat.mod_eq_of_lt (by omega)]
  have out : ∀ m, n ≤ m → (w.state m).consumer ≠ .popping := by
    intro m later inside
    have more := ((aligned_reachable (w.run m).reachable).popping inside).2
    exact absurd (all m later) (Nat.not_le.mpr more)
  obtain ⟨m, later, a, taken, acts⟩ := consumer n fun m _ =>
    consumer_able (aligned_reachable (w.run m).reachable) (inLoop m)
  cases a <;> cases acts
  · cases pc : (w.state m).consumer with
    | loop =>
      have moved := w.moves m _ taken
      simp only [machine, MpscTest.step, consumerStep, pc, Nat.not_lt.mpr (all m later), if_false,
        Option.some.injEq] at moved
      exact inLoop (m + 1) (by rw [← moved])
    | popping => exact out m later pc
    | done => exact inLoop m pc
  · obtain ⟨c, moves, _⟩ := channelStep_cases (w.moves m _ taken)
    exact out m later (popping_of_notify (aligned_reachable (w.run m).reachable) moves)

end

/-- If no thread is held up for ever mpsc_test.cc comes to its end: the consumer leaves its loop,
    the producers return, and what is required of count and sum holds. -/
theorem test_ends {N : UInt64} (few : P ≤ B.val + 1) (half : P ≤ 2 ^ 63)
    (small : N.toNat ≤ 2 ^ 31) (divides : P ∣ N.toNat) (w : (machine B k (part N)).Forever)
    (producers : ∀ i : Fin P, w.FairTo Action.thread (.producer i))
    (consumer : w.FairTo Action.thread .consumer) :
    ∃ n, ∀ m, n ≤ m → (w.state m).consumer = .done ∧
      (∀ i, (w.state m).producer i = .push []) ∧ Required N (w.state m) := by
  have fits : B.val + P ≤ 2 ^ 64 := by have := B.le_half; omega
  obtain ⟨n, done⟩ := consumer_ends few half (part_unmarked small) producers consumer
  refine ⟨n, fun m later => ?_⟩
  have done := done_forever done later
  exact ⟨done, returned_of_done fits small (w.run m) done,
    required_of_done fits small divides (w.run m) done⟩

/-! Two producers and the consumer take turns, and all of them go on as long as they can. -/

def turn (s : State B P) : Thread P → Action P
  | .producer i => .producer i
  | .consumer | .outside => (Mpsc.woken B.sizeT s.channel).elim .consumer .notify

def roundRobin (n : Nat) : Thread 2 :=
  if n % 3 = 0 then .producer 0 else if n % 3 = 1 then .producer 1 else .consumer

def takingTurns : twoNumbers.Forever :=
  Machine.Forever.ofSchedule twoNumbers fun n s => turn s (roundRobin n)

theorem turn_able (s : State B P) {i : Thread P} (inside : i ≠ .outside) :
    (turn s i).thread = i ∧ (Machine.Forever.Enabled (machine B k body) Action.thread s i →
      (step k s (turn s i)).isSome) := by
  cases i with
  | outside => exact absurd rfl inside
  | producer i =>
    refine ⟨rfl, ?_⟩
    rintro ⟨a, acts, possible⟩
    cases a <;> cases acts
    exact possible
  | consumer =>
    cases found : Mpsc.woken B.sizeT s.channel with
    | some i =>
      simp [turn, found, Action.thread, step, channelStep, Mpsc.woken_able intElement found]
    | none =>
      refine ⟨by simp [turn, found, Action.thread], ?_⟩
      rintro ⟨a, acts, possible⟩
      cases a <;> cases acts
      · simpa [turn, found, machine] using possible
      · rename_i i
        simp [machine, step, channelStep, Mpsc.woken_none intElement found i] at possible

theorem takingTurns_fair {i : Thread 2} (inside : i ≠ .outside) :
    takingTurns.FairTo Action.thread i := by
  apply Machine.Forever.ofSchedule_fairTo
  intro n
  have again : ∃ m, n ≤ m ∧ roundRobin m = i := by
    match i with
    | .producer 0 => exact ⟨3 * n, by omega, by simp [roundRobin]⟩
    | .producer 1 =>
      exact ⟨3 * n + 1, by omega, by simp [roundRobin, show (3 * n + 1) % 3 = 1 by omega]⟩
    | .consumer =>
      exact ⟨3 * n + 2, by omega, by simp [roundRobin, show (3 * n + 2) % 3 = 2 by omega]⟩
    | .outside => exact absurd rfl inside
  obtain ⟨m, later, rfl⟩ := again
  exact ⟨m, later, fun s => turn_able s inside⟩

theorem takingTurns_ends : ∃ n, ∀ m, n ≤ m → (takingTurns.state m).consumer = .done ∧
    (∀ i, (takingTurns.state m).producer i = .push []) ∧ Required 2 (takingTurns.state m) :=
  test_ends (by decide) (by decide) (by decide) (by decide) takingTurns
    (fun _ => takingTurns_fair (by simp)) (takingTurns_fair (by simp))

end MpscTest
