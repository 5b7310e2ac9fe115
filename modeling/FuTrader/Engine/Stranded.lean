import FuTrader.Engine.Calls
import FuTrader.Engine.Shutdown

/- A push that waits for a pop when the order-push thread is gone. push admits more
   tickets than slots, and the thread may leave its loop with the ring full. -/
namespace CtaEngine
open FuTrader

section
variable {F S : Type} {W : ThreadNum}

/-- The order-push thread has left its loop, and a task holds a ticket whose slot has not
    been freed. -/
def Stranded (s : State F S W) : Prop :=
  s.pusher = .exited ∧ ∃ w tick j order pos, s.worker w = .pushing tick j order ∧
    (s.channel.producer w).ticket = some pos ∧
    (s.channel.buffer (channelSize.sizeT.slot pos)).seq ≠ pos

theorem pushing_of_ticket {s : State F S W} (aligned : Aligned s) {w : Fin W.val}
    {pos : Mpsc.SizeT} (ticket : (s.channel.producer w).ticket = some pos) :
    ∃ tick j order, s.worker w = .pushing tick j order := by
  have held := aligned.producers w
  cases pc : s.worker w with
  | pushing tick j order => exact ⟨tick, j, order, rfl⟩
  | _ =>
    rw [pc] at held
    rw [(Mpsc.held_zero_iff _).mp held] at ticket
    cases ticket

theorem stranded_iff_outstanding {onTick : S → TickData F → S × Option Order}
    {added : List (Symbol × S)} {s : State F S W}
    (reach : (machine onTick W added).Reachable s) :
    Stranded s ↔ s.pusher = .exited ∧ channelSize.val < s.channel.outstanding := by
  have aligned := aligned_reachable reach
  apply and_congr_right
  intro exited
  rw [← Mpsc.waiting_iff (spare W) (channel_reachable reach) (aligned.consumer (by simp [exited]))]
  constructor
  · rintro ⟨w, tick, j, order, pos, _, ticket, other⟩
    exact ⟨w, pos, ticket, other⟩
  · rintro ⟨w, pos, ticket, other⟩
    obtain ⟨tick, j, order, pc⟩ := pushing_of_ticket aligned ticket
    exact ⟨w, tick, j, order, pos, pc, ticket, other⟩

theorem stranded_iff_within {onTick : S → TickData F → S × Option Order}
    {added : List (Symbol × S)} {h : List (State F S W × Action F W)} {s : State F S W}
    (run : (machine onTick W added).Run h s) :
    Stranded s ↔ s.pusher = .exited ∧ ¬ ∀ x ∈ h, Within channelSize.val x.1 x.2 := by
  rw [stranded_iff_outstanding run.reachable]
  apply and_congr_right
  intro exited
  rw [← (settled_run channelSize.val run).after exited, not_le]

theorem not_stranded_iff {onTick : S → TickData F → S × Option Order}
    {added : List (Symbol × S)} {h : List (State F S W × Action F W)} {s : State F S W}
    (run : (machine onTick W added).Run h s) :
    ¬ Stranded s ↔ ∀ x ∈ h, Within channelSize.val x.1 x.2 := by
  rw [stranded_iff_within run, not_and_not_right]
  constructor
  · intro known
    by_cases exited : s.pusher = .exited
    · exact known exited
    · exact (settled_run channelSize.val run).before exited
  · exact fun all _ => all

theorem Stranded.not_returned {onTick : S → TickData F → S × Option Order}
    {added : List (Symbol × S)} {s : State F S W}
    (reach : (machine onTick W added).Reachable s) (stranded : Stranded s) :
    s.main ≠ .store ∧ s.main ≠ .returned := by
  obtain ⟨_, w, tick, j, order, pos, pc, _⟩ := stranded
  rw [← not_or]
  intro past
  have idle := (drained_reachable reach past).2 w
  rw [pc] at idle
  cases idle

/-- A stranded worker stays so, and start() never returns. -/
theorem Stranded.forever {onTick : S → TickData F → S × Option Order}
    {added : List (Symbol × S)} {s t : State F S W}
    (reach : (machine onTick W added).Reachable s) (stranded : Stranded s)
    {as : List (Action F W)} (ran : (machine onTick W added).exec s as = some t) :
    Stranded t ∧ t.main ≠ .returned := by
  obtain ⟨h, run⟩ := reach
  have more := run.extend ran
  have still : Stranded t := by
    by_contra safe
    have all := (not_stranded_iff more).mp safe
    exact (not_stranded_iff run).mpr (fun x member => all x (by simp [member])) stranded
  exact ⟨still, (still.not_returned more.reachable).2⟩

/-- A lone worker is never stranded: its push draws no ticket beyond the ring. -/
theorem lone_worker_not_stranded {onTick : S → TickData F → S × Option Order}
    {added : List (Symbol × S)} {s : State F S W} (one : W.val ≤ 1)
    (reach : (machine onTick W added).Reachable s) : ¬ Stranded s := by
  rw [stranded_iff_outstanding reach]
  rintro ⟨exited, past⟩
  have idle := (aligned_reachable reach).consumer (by simp [exited])
  have bound := Mpsc.outstanding_admitted (spare W) (channel_reachable reach) idle
  omega

end

/-! 1024 DualThrusts on one symbol, one on another; one tick for each symbol. -/

section overfull
variable {W : ThreadNum}

def crowdedSymbol : List (Symbol × DualThrust ℚ) :=
  List.replicate channelSize.val ([97], .fresh) ++ [([98], .fresh)]

def firstTick : TickData ℚ := tickOf [97] 10
def secondTick : TickData ℚ := tickOf [98] 10

abbrev crowdedEngine (W : ThreadNum) : Machine (State ℚ (DualThrust ℚ) W) (Action ℚ W) :=
  machine DualThrust.onTick W crowdedSymbol

structure Filling (x y : Fin W.val) (j : Nat) (s : State ℚ (DualThrust ℚ) W) : Prop where
  reach : (crowdedEngine W).Reachable s
  visits : s.worker x = .visit firstTick j
  idle : s.worker y = .idle
  pending : s.pending = [secondTick]
  check : s.pusher = .check
  fresh : ∀ i, j ≤ i → i < channelSize.val → s.strategy (key firstTick, i) = some .fresh
  other : s.strategy (key secondTick, 0) = some .fresh
  head : s.channel.head = BitVec.ofNat 64 j
  tail : s.channel.tail = BitVec.ofNat 64 0

theorem first_emits : ∃ order, (DualThrust.onTick .fresh firstTick).2 = some order :=
  Option.isSome_iff_exists.mp (by decide +kernel)

theorem second_emits : ∃ order, (DualThrust.onTick .fresh secondTick).2 = some order :=
  Option.isSome_iff_exists.mp (by decide +kernel)

theorem crowded_first (W : ThreadNum) {i : Nat} (less : i < channelSize.val) :
    (init W crowdedSymbol : State ℚ (DualThrust ℚ) W).strategy (key firstTick, i) =
      some .fresh := by
  have symbol : key firstTick = [97] := by decide
  rw [strategy_init, symbol]
  simp [crowdedSymbol, less]

theorem crowded_second (W : ThreadNum) :
    (init W crowdedSymbol : State ℚ (DualThrust ℚ) W).strategy (key secondTick, 0) =
      some .fresh := by
  have symbol : key secondTick = [98] := by decide
  rw [strategy_init, symbol]
  simp [crowdedSymbol]

theorem filling_of_init {x y : Fin W.val} (ne : y ≠ x) {start : State ℚ (DualThrust ℚ) W}
    (first : start = init W crowdedSymbol) : ∃ s, Filling x y 0 s := by
  have fresh : ∀ i, 0 ≤ i → i < channelSize.val →
      start.strategy (key firstTick, i) = some .fresh := by
    intro i _ less
    rw [first, crowded_first W less]
  have other : start.strategy (key secondTick, 0) = some .fresh := by
    rw [first, crowded_second W]
  have idle : ∀ w, start.worker w = .idle := by
    intro w
    rw [first]
    rfl
  have reach : (crowdedEngine W).Reachable start := by
    rw [first]
    exact Machine.reachable_init _
  have received := exec_receive DualThrust.onTick crowdedSymbol
    (s := start) (by rw [first]; rfl) (by rw [first]; rfl) (by rw [first]; rfl) firstTick secondTick
  have found := exec_find DualThrust.onTick crowdedSymbol
    (s := { start with pusher := .check, main := .check, pending := [firstTick, secondTick] })
    (w := x) (k := 0) (idle x) rfl (by
      change (start.strategy (key firstTick, 0)).isSome = true
      rw [fresh 0 (Nat.le_refl 0) (by decide)]
      rfl)
  constructor
  constructor
  · exact (reach.leads (.of_exec received)).leads (.of_exec found)
  · exact Function.update_self _ _ _
  · exact (Function.update_of_ne ne _ _).trans (idle y)
  · rfl
  · rfl
  · exact fresh
  · exact other
  · change start.channel.head = _
    rw [first]
    rfl
  · change start.channel.tail = _
    rw [first]
    rfl

variable {x y : Fin W.val} {s : State ℚ (DualThrust ℚ) W} {j : Nat}

theorem Filling.outstanding (filling : Filling x y j s) (less : j < channelSize.val) :
    s.channel.outstanding = j := by
  have small := channelSize.lt
  rw [Mpsc.State.outstanding, filling.head, filling.tail]
  exact Counter.toNat_sub (Nat.zero_le j) (by omega)

theorem Filling.room (filling : Filling x y j s) (less : j < channelSize.val) :
    channelSize.sizeT.full s.channel.head s.channel.tail = false := by
  have small := channelSize.lt
  rw [filling.head, filling.tail, Mpsc.sizeT_full (Nat.zero_le j) (by omega)]
  exact decide_eq_false (by omega)

theorem Filling.outside (filling : Filling x y j s) {w : Fin W.val}
    (out : (s.worker w).inPush = 0) : s.channel.producer w = .idle := by
  rw [← Mpsc.held_zero_iff, (aligned_reachable filling.reach).producers w, out]

theorem other_symbol : key secondTick ≠ key firstTick := by decide

theorem Filling.next (ne : y ≠ x) (filling : Filling x y j s) (less : j < channelSize.val) :
    ∃ t, Filling x y (j + 1) t := by
  obtain ⟨order, emits⟩ := first_emits
  have quiet := (aligned_reachable filling.reach).consumer (by simp [filling.check])
  have free := Mpsc.next_slot_free (spare W) (channel_reachable filling.reach) quiet
    (by rw [filling.outstanding less]; exact less)
  have visited := exec_visit DualThrust.onTick crowdedSymbol filling.visits
    (filling.fresh j (Nat.le_refl j) less) emits
    (filling.outside (by rw [filling.visits]; rfl)) (filling.room less) free
  constructor
  constructor
  · exact filling.reach.leads (.of_exec visited)
  · exact Function.update_self _ _ _
  · exact (Function.update_of_ne ne _ _).trans filling.idle
  · exact filling.pending
  · exact filling.check
  · intro i above below
    have later : i ≠ j := by omega
    rw [setWorker_strategy, strategy_setStrategy (by simp [later])]
    exact filling.fresh i (by omega) below
  · rw [setWorker_strategy, strategy_setStrategy (by simp [other_symbol])]
    exact filling.other
  · change channelSize.sizeT.succ s.channel.head = _
    rw [filling.head, Mpsc.sizeT_succ]
  · exact filling.tail

theorem filled (ne : y ≠ x) (n : Nat) (le : n ≤ channelSize.val) : ∃ s, Filling x y n s := by
  induction n with
  | zero => exact filling_of_init ne rfl
  | succ n ih =>
    obtain ⟨s, filling⟩ := ih (by omega)
    exact filling.next ne (by omega)

def Passed (s : State ℚ (DualThrust ℚ) W) (w : Fin W.val) : Prop :=
  ∃ tick j order curHead curTail, s.worker w = .pushing tick j order ∧
    s.channel.producer w = .fetchAdd order curHead curTail

theorem both_pass (ne : y ≠ x) (filling : Filling x y 1023 s) :
    ∃ t, (crowdedEngine W).Reachable t ∧ Passed t x ∧ Passed t y ∧ t.pusher = .check ∧
      t.channel.head = s.channel.head ∧ t.channel.tail = s.channel.tail := by
  obtain ⟨order, emits⟩ := first_emits
  obtain ⟨last, answers⟩ := second_emits
  have less : 1023 < channelSize.val := by decide
  have room := filling.room less
  have aside : s.channel.producer y = .idle := filling.outside (by rw [filling.idle]; rfl)
  have passed := exec_pass DualThrust.onTick crowdedSymbol filling.visits
    (filling.fresh 1023 (Nat.le_refl _) less) emits
    (filling.outside (by rw [filling.visits]; rfl)) room
  let channel := s.channel.setProducer x (.fetchAdd order s.channel.head s.channel.tail)
  let t := ({ s with channel }.setStrategy (key firstTick, 1023)
    (DualThrust.onTick .fresh firstTick).1).setWorker x (.pushing firstTick 1023 order)
  have other : t.strategy (key secondTick, 0) = some .fresh := by
    rw [setWorker_strategy, strategy_setStrategy (by simp [other_symbol])]
    exact filling.other
  have found := exec_find DualThrust.onTick crowdedSymbol (s := t) (w := y)
    (k := 0) ((Function.update_of_ne ne _ _).trans filling.idle)
    (by change s.pending[0]? = _; rw [filling.pending]; rfl) (by rw [other]; rfl)
  let u := { t with pending := t.pending.eraseIdx 0 }.setWorker y (.visit secondTick 0)
  have followed := exec_pass DualThrust.onTick crowdedSymbol (s := u) (w := y)
    (Function.update_self _ _ _) other answers ((Function.update_of_ne ne _ _).trans aside) room
  constructor
  constructor
  · exact ((filling.reach.leads (.of_exec passed)).leads (.of_exec found)).leads (.of_exec followed)
  constructor
  · refine ⟨firstTick, 1023, order, s.channel.head, s.channel.tail, ?_, ?_⟩
    · simp [u, t, ne.symm]
    · simp [u, t, channel, ne.symm]
  constructor
  · exact ⟨secondTick, 0, last, _, _, Function.update_self _ _ _, Function.update_self _ _ _⟩
  · exact ⟨filling.check, rfl, rfl⟩

theorem stranded_of_two (ne : y ≠ x) :
    ∃ s, (crowdedEngine W).Reachable s ∧ Stranded s := by
  obtain ⟨s, filling⟩ := filled ne 1023 (by decide)
  obtain ⟨t, reach, ⟨tick, j, order, _, _, pcx, passedx⟩, ⟨tick', j', order', _, _, pcy, passedy⟩,
    check, head, tail⟩ := both_pass ne filling
  have first := exec_draw DualThrust.onTick crowdedSymbol pcx passedx
  let drawn := { t.channel with head := t.channel.head + 1 }.setProducer x
    (.loadSeq order t.channel.head)
  have second := exec_draw DualThrust.onTick crowdedSymbol
    (s := { t with channel := drawn }) pcy ((Function.update_of_ne ne _ _).trans passedy)
  have left := exec_leave DualThrust.onTick crowdedSymbol
    (s := { t with channel :=
      { drawn with head := drawn.head + 1 }.setProducer y (.loadSeq order' drawn.head) }) check
  have past := ((reach.leads (.of_exec first)).leads (.of_exec second)).leads (.of_exec left)
  refine ⟨_, past, (stranded_iff_outstanding past).mpr ⟨rfl, ?_⟩⟩
  change channelSize.val < (t.channel.head + 1 + 1 - t.channel.tail).toNat
  rw [head, tail, filling.head, filling.tail]
  decide

/-- No worker is stranded exactly in the runs in which at most 1024 tickets are out when
    the order-push thread leaves its loop, and no later fetch_add makes them more. Over
    all runs that is so for one worker only. -/
theorem no_worker_stranded_iff {F S : Type} (onTick : S → TickData F → S × Option Order)
    (added : List (Symbol × S)) (W : ThreadNum) :
    (∀ h s, (machine onTick W added).Run h s → (¬ Stranded s ↔
      ∀ x ∈ h, (exits x.1 x.2 = true → x.1.channel.outstanding ≤ 1024) ∧
        (draws x.1 x.2 = true → x.1.pusher = .exited → x.1.channel.outstanding < 1024))) ∧
    ((∀ strategies s, (machine (DualThrust.onTick (F := ℚ)) W strategies).Reachable s →
      ¬ Stranded s) ↔ W.val ≤ 1) := by
  constructor
  · exact fun h s run => not_stranded_iff run
  constructor
  · intro never
    by_contra many
    obtain ⟨s, reach, stranded⟩ := stranded_of_two (x := (⟨0, by omega⟩ : Fin W.val))
      (y := ⟨1, by omega⟩) (by simp)
    exact never crowdedSymbol s reach stranded
  · intro one strategies s reach
    exact lone_worker_not_stranded one reach

theorem sentThenStop_not_stranded :
    let M := onePerSymbol
    ∃ s, M.exec M.init sentThenStop = some s ∧ s.pusher = .exited ∧ ¬ Stranded s :=
  ⟨_, (Option.some_get (by decide +kernel)).symm, by decide +kernel,
    ((no_worker_stranded_iff _ _ _).1 _ _ (Machine.run_get (by decide +kernel))).mpr
      (by decide +kernel)⟩

theorem two_workers_stranded :
    ¬ ∀ s, (crowdedEngine twoWorkers).Reachable s → ¬ Stranded s := by
  intro never
  obtain ⟨s, reach, stranded⟩ := stranded_of_two (W := twoWorkers) (show (1 : Fin 2) ≠ 0 by decide)
  exact never s reach stranded

end overfull
end CtaEngine
