import FuTrader.Engine.Ordering

/- The ticks of one strategy object. Every tick received becomes a task of its own, and
   the executor starts the tasks on any workers in any order. -/
namespace CtaEngine
open FuTrader
variable {F S : Type} {W : ThreadNum}

def recvOf (_ : State F S W) : Action F W → Option (TickData F)
  | .recv tick => tick
  | _ => none

def startOf (s : State F S W) : Action F W → Option (TickData F)
  | .run _ k => s.pending[k]?
  | _ => none

def callOf (s : State F S W) : Action F W → Option (Object × TickData F)
  | .worker w => match s.worker w with
    | .visit tick j => (s.strategy (key tick, j)).map fun _ => ((key tick, j), tick)
    | _ => none
  | _ => none

def bySymbol (symbol : Symbol) (l : List (TickData F)) : List (TickData F) :=
  l.filter fun tick => key tick = symbol

def receivedBy (symbol : Symbol) (h : List (State F S W × Action F W)) : List (TickData F) :=
  bySymbol symbol (Machine.log recvOf h)

def startedBy (symbol : Symbol) (h : List (State F S W × Action F W)) : List (TickData F) :=
  bySymbol symbol (Machine.log startOf h)

def calledOn (o : Object) (h : List (State F S W × Action F W)) : List (TickData F) :=
  (Machine.log callOf h).filterMap fun x => if x.1 = o then some x.2 else none

def Worker.status (o : Object) : Worker F → Option (TickData F × Bool)
  | .idle => none
  | .find tick => if key tick = o.1 then some (tick, false) else none
  | .visit tick j => if key tick = o.1 then some (tick, decide (o.2 < j)) else none
  | .onTick tick j | .push tick j _ | .pushing tick j _ =>
    if key tick = o.1 then some (tick, decide (o.2 ≤ j)) else none

def State.status (s : State F S W) (o : Object) (w : Fin W.val) : Option (TickData F × Bool) :=
  (s.worker w).status o

/-- What a step does to the tasks of one symbol, with the tick whose task it starts and
    the tick it calls `o` with. -/
inductive Progress (o : Object) (s t : State F S W) :
    List (TickData F) → List (TickData F) → Prop where
  | rest (same : t.status o = s.status o) : Progress o s t [] []
  | start (w : Fin W.val) (tick : TickData F) (free : s.status o w = none)
      (now : t.status o = Function.update (s.status o) w (some (tick, false))) :
      Progress o s t [tick] []
  | call (w : Fin W.val) (tick : TickData F) (ready : s.status o w = some (tick, false))
      (now : t.status o = Function.update (s.status o) w (some (tick, true)))
      (present : (s.strategy o).isSome = true) : Progress o s t [] [tick]
  | finish (w : Fin W.val) (tick : TickData F) (called : Bool)
      (busy : s.status o w = some (tick, called))
      (now : t.status o = Function.update (s.status o) w none)
      (done : (s.strategy o).isSome = true → called = true) : Progress o s t [] []

theorem status_update {s t : State F S W} {w : Fin W.val} {x : Worker F}
    (worker : t.worker = Function.update s.worker w x) (o : Object) :
    t.status o = Function.update (s.status o) w (x.status o) := by
  have moved := Function.comp_update (Worker.status o) s.worker w x
  rw [← worker] at moved
  exact moved

theorem Progress.same {o : Object} {s t : State F S W} {w : Fin W.val} {x : Worker F}
    (worker : t.worker = Function.update s.worker w x) (same : x.status o = s.status o w) :
    Progress o s t [] [] := by
  refine .rest ?_
  rw [status_update worker, same, Function.update_eq_self]

theorem Progress.ends {o : Object} {s t : State F S W} {w : Fin W.val} {tick : TickData F}
    {called : Bool} (worker : t.worker = Function.update s.worker w .idle)
    (busy : s.status o w = if key tick = o.1 then some (tick, called) else none)
    (done : key tick = o.1 → (s.strategy o).isSome = true → called = true) :
    Progress o s t [] [] := by
  by_cases mine : key tick = o.1
  · rw [if_pos mine] at busy
    exact .finish w tick called busy (status_update worker o) (done mine)
  · rw [if_neg mine] at busy
    exact .same worker busy.symm

theorem strategy_before_end {s : State F S W} {symbol : Symbol} {i j : Nat}
    (absent : s.strategy (symbol, j) = none) (present : (s.strategy (symbol, i)).isSome = true) :
    i < j := by
  unfold State.strategy at *
  cases found : s.stgMap symbol with
  | none => simp [found] at present
  | some stgs =>
    simp only [found, Option.bind_some, List.getElem?_eq_none_iff] at absent present
    obtain ⟨stg, there⟩ := Option.isSome_iff_exists.mp present
    have inside := (List.getElem?_eq_some_iff.mp there).1
    omega

theorem status_next (o : Object) (tick : TickData F) (j : Nat) :
    (Worker.visit tick (j + 1)).status o =
      if key tick = o.1 then some (tick, decide (o.2 ≤ j)) else none := by
  simp only [Worker.status, Nat.lt_succ_iff]

theorem Step.progress {onTick : S → TickData F → S × Option Order} {s t : State F S W}
    {a : Action F W} (step : Step onTick s a t) (o : Object) :
    Progress o s t (bySymbol o.1 (startOf s a).toList)
      ((callOf s a).toList.filterMap fun x => if x.1 = o then some x.2 else none) := by
  cases step with
  | run w k tick free task =>
    have idle : s.status o w = none := by simp [State.status, free, Worker.status]
    by_cases mine : key tick = o.1
    · have now : (Worker.find tick).status o = some (tick, false) := by simp [Worker.status, mine]
      have started := Progress.start (t := { s with pending := s.pending.eraseIdx k }.setWorker w
        (.find tick)) w tick idle (by rw [← now]; exact status_update rfl o)
      simpa [startOf, callOf, task, bySymbol, mine] using started
    · have still : (Worker.find tick).status o = s.status o w := by
        rw [idle]
        simp [Worker.status, mine]
      have same := Progress.same (t := { s with pending := s.pending.eraseIdx k }.setWorker w
        (.find tick)) rfl still
      simpa [startOf, callOf, task, bySymbol, mine] using same
  | missing w tick pc absent =>
    have ended := Progress.ends (o := o) (s := s) (t := s.setWorker w .idle) rfl
      (by rw [State.status, pc]; rfl) fun mine present => by
        simp [State.strategy, ← mine, absent] at present
    simpa [startOf, callOf, pc, bySymbol] using ended
  | last w tick j pc absent =>
    have ended := Progress.ends (o := o) (s := s) (t := s.setWorker w .idle) rfl
      (by rw [State.status, pc]; rfl) fun mine present => by
        rw [mine] at absent
        exact decide_eq_true (strategy_before_end absent present)
    simpa [startOf, callOf, pc, bySymbol, absent] using ended
  | call w tick j stg pc present =>
    by_cases mine : (key tick, j) = o
    · subst mine
      have ready : s.status (key tick, j) w = some (tick, false) := by
        simp [State.status, pc, Worker.status]
      have now : (Worker.onTick tick j).status (key tick, j) = some (tick, true) := by
        simp [Worker.status]
      have called := Progress.call (t := s.setWorker w (.onTick tick j)) w tick ready
        (by rw [← now]; exact status_update rfl _) (by rw [present]; rfl)
      simpa [startOf, callOf, pc, bySymbol, present] using called
    · have still : (Worker.onTick tick j).status o = s.status o w := by
        by_cases symbol : key tick = o.1
        · have other : o.2 ≠ j := fun here => mine (by rw [symbol, ← here])
          simp [State.status, pc, Worker.status, symbol]
          omega
        · simp [State.status, pc, Worker.status, symbol]
      have same := Progress.same (t := s.setWorker w (.onTick tick j)) rfl still
      simpa [startOf, callOf, pc, bySymbol, present, mine] using same
  | found w tick stgs pc present =>
    have same := Progress.same (o := o) (t := s.setWorker w (.visit tick 0)) rfl
      (by simp [State.status, pc, Worker.status])
    simpa [startOf, callOf, pc, bySymbol] using same
  | silent w tick j stg pc present none =>
    have same := Progress.same (o := o) (s := s)
      (t := (s.setStrategy (key tick, j) (onTick stg tick).1).setWorker w (.visit tick (j + 1)))
      rfl (by rw [status_next, State.status, pc]; rfl)
    simpa [startOf, callOf, pc, bySymbol] using same
  | emit w tick j stg order pc present some =>
    have same := Progress.same (o := o) (s := s)
      (t := (s.setStrategy (key tick, j) (onTick stg tick).1).setWorker w (.push tick j order))
      rfl (by simp [State.status, pc, Worker.status])
    simpa [startOf, callOf, pc, bySymbol] using same
  | push w tick j order c pc moves =>
    have same := Progress.same (o := o) (s := s)
      (t := { s with channel := c }.setWorker w (.pushing tick j order))
      rfl (by simp [State.status, pc, Worker.status])
    simpa [startOf, callOf, pc, bySymbol] using same
  | pushed w tick j order c result pc moves returns =>
    have same := Progress.same (o := o) (s := s)
      (t := { s with channel := c }.setWorker w (.visit tick (j + 1)))
      rfl (by rw [status_next, State.status, pc]; rfl)
    simpa [startOf, callOf, pc, bySymbol] using same
  | pushing w tick j order c pc moves inside =>
    have same := Progress.rest (o := o) (s := s) (t := { s with channel := c }) rfl
    simpa [startOf, callOf, pc, bySymbol] using same
  | _ => exact .rest rfl

def Worker.symbol : Worker F → Option Symbol
  | .idle => none
  | .find tick | .visit tick _ | .onTick tick _ | .push tick _ _ | .pushing tick _ _ =>
    some (key tick)

/-- A task of this symbol is started only when it is the oldest one submitted and no other
    one is running. -/
def startsInTurn (symbol : Symbol) (s : State F S W) : Action F W → Bool
  | .run _ k => match s.pending[k]? with
    | some tick => key tick = symbol →
      (∀ v, (s.worker v).symbol ≠ some symbol) ∧
        ∀ earlier ∈ s.pending.take k, key earlier ≠ symbol
    | none => true
  | _ => true

theorem status_eq_none {o : Object} {x : Worker F} (other : x.symbol ≠ some o.1) :
    x.status o = none := by
  cases x <;> simp_all [Worker.symbol, Worker.status]

/-! The queue of tasks of one symbol. -/

theorem Step.pending {onTick : S → TickData F → S × Option Order} {s t : State F S W}
    {a : Action F W} (step : Step onTick s a t) (symbol : Symbol) :
    (bySymbol symbol (startOf s a).toList ++ bySymbol symbol t.pending).Perm
        (bySymbol symbol s.pending ++ bySymbol symbol (recvOf s a).toList) ∧
      (startsInTurn symbol s a = true →
        bySymbol symbol (startOf s a).toList ++ bySymbol symbol t.pending =
          bySymbol symbol s.pending ++ bySymbol symbol (recvOf s a).toList) := by
  cases step with
  | run w k tick free task =>
    obtain ⟨inside, here⟩ := List.getElem?_eq_some_iff.mp task
    have whole : s.pending = s.pending.take k ++ tick :: s.pending.drop (k + 1) := by
      rw [← here, List.cons_getElem_drop_succ, List.take_append_drop]
    have rest := List.eraseIdx_eq_take_drop_succ s.pending k
    have before : bySymbol symbol s.pending = bySymbol symbol (s.pending.take k) ++
        (bySymbol symbol [tick] ++ bySymbol symbol (s.pending.drop (k + 1))) := by
      conv_lhs => rw [whole]
      simp only [bySymbol, ← List.filter_append, List.singleton_append]
    have after : bySymbol symbol (s.pending.eraseIdx k) =
        bySymbol symbol (s.pending.take k) ++ bySymbol symbol (s.pending.drop (k + 1)) := by
      rw [rest, bySymbol, List.filter_append]
      rfl
    simp only [startOf, recvOf, task, setWorker_pending, Option.toList_some, Option.toList_none,
      before, after]
    refine ⟨?_, fun turn => ?_⟩
    · simp only [bySymbol, List.filter_nil, List.append_nil, ← List.append_assoc]
      exact List.Perm.append_right _ List.perm_append_comm
    · by_cases mine : key tick = symbol
      · have first : bySymbol symbol (s.pending.take k) = [] := by
          simp only [startsInTurn, task, decide_eq_true_eq] at turn
          exact List.filter_eq_nil_iff.mpr fun earlier member => by
            simpa using (turn mine).2 earlier member
        simp only [first, List.nil_append]
        simp [bySymbol]
      · simp [bySymbol, mine]
  | recv tick pc => simp [startOf, recvOf, bySymbol]
  | _ => simp [startOf, recvOf, bySymbol]

theorem Step.present {onTick : S → TickData F → S × Option Order} {s t : State F S W}
    {a : Action F W} (step : Step onTick s a t) (o : Object) :
    (t.strategy o).isSome = (s.strategy o).isSome := by
  have kept : ∀ (p : Object) (stg : S),
      ((s.setStrategy p stg).strategy o).isSome = (s.strategy o).isSome := by
    intro p stg
    by_cases same : o.1 = p.1
    · cases found : s.stgMap p.1 with
      | none => simp [State.strategy, State.setStrategy, same, found]
      | some stgs =>
        have place : (stgs.set p.2 stg)[o.2]?.isSome = stgs[o.2]?.isSome := by
          rw [Bool.eq_iff_iff, Option.isSome_iff_ne_none, Option.isSome_iff_ne_none, Ne, Ne,
            List.getElem?_eq_none_iff, List.getElem?_eq_none_iff, List.length_set]
        simpa [State.strategy, State.setStrategy, same, found] using place
    · simp [State.strategy, State.setStrategy, same]
  cases step with
  | silent w tick j stg pc present none => exact kept _ _
  | emit w tick j stg order pc present some => exact kept _ _
  | _ => rfl

/-! Each tick is processed at most once. -/

def uncalled : Option (TickData F × Bool) → Multiset (TickData F)
  | some (tick, false) => {tick}
  | _ => 0

def State.uncalled (s : State F S W) (o : Object) : Multiset (TickData F) :=
  ∑ w, CtaEngine.uncalled (s.status o w)

theorem uncalled_update {s t : State F S W} {o : Object} {w : Fin W.val}
    {x : Option (TickData F × Bool)} (now : t.status o = Function.update (s.status o) w x) :
    t.uncalled o + CtaEngine.uncalled (s.status o w) = s.uncalled o + CtaEngine.uncalled x := by
  have moved := Function.comp_update CtaEngine.uncalled (s.status o) w x
  have same : (fun v => CtaEngine.uncalled (t.status o v)) =
      Function.update (fun v => CtaEngine.uncalled (s.status o v)) w (CtaEngine.uncalled x) := by
    rw [now]
    exact moved
  rw [State.uncalled, same]
  exact Tally.sum_update _ w _

theorem Progress.total {o : Object} {s t : State F S W} {started called : List (TickData F)}
    (progress : Progress o s t started called) :
    (called : Multiset (TickData F)) + t.uncalled o ≤ s.uncalled o + started := by
  cases progress with
  | rest same =>
    have eq : t.uncalled o = s.uncalled o := by rw [State.uncalled, same, ← State.uncalled]
    simp [eq]
  | start w tick free now =>
    have moved := uncalled_update now
    rw [free] at moved
    simp [CtaEngine.uncalled] at moved
    simp [moved]
  | call w tick ready now present =>
    have moved := uncalled_update now
    rw [ready] at moved
    simp only [CtaEngine.uncalled, add_zero] at moved
    rw [← moved, Multiset.coe_singleton, Multiset.coe_nil, add_zero, add_comm]
  | finish w tick called busy now done =>
    have moved := uncalled_update now
    have less : t.uncalled o ≤ t.uncalled o + CtaEngine.uncalled (s.status o w) :=
      Multiset.le_add_right _ _
    rw [moved] at less
    simpa [CtaEngine.uncalled] using less

section logs
variable (o : Object) (h : List (State F S W × Action F W)) (s : State F S W) (a : Action F W)

theorem calledOn_snoc : calledOn o (h ++ [(s, a)]) = calledOn o h ++
    (callOf s a).toList.filterMap fun x => if x.1 = o then some x.2 else none := by
  rw [calledOn, Machine.log_snoc, List.filterMap_append, ← calledOn]

theorem receivedBy_snoc : receivedBy o.1 (h ++ [(s, a)]) =
    receivedBy o.1 h ++ bySymbol o.1 (recvOf s a).toList := by
  rw [receivedBy, Machine.log_snoc, bySymbol, List.filter_append]
  rfl

theorem startedBy_snoc : startedBy o.1 (h ++ [(s, a)]) =
    startedBy o.1 h ++ bySymbol o.1 (startOf s a).toList := by
  rw [startedBy, Machine.log_snoc, bySymbol, List.filter_append]
  rfl

end logs

theorem called_once {onTick : S → TickData F → S × Option Order} {added : List (Symbol × S)}
    (o : Object) {h : List (State F S W × Action F W)} {s : State F S W}
    (run : (machine onTick W added).Run h s) :
    (calledOn o h : Multiset (TickData F)) + s.uncalled o + bySymbol o.1 s.pending ≤
      receivedBy o.1 h := by
  apply Machine.Run.invariant (M := machine onTick W added)
    (fun h s => (calledOn o h : Multiset (TickData F)) + s.uncalled o +
      bySymbol o.1 s.pending ≤ receivedBy o.1 h) ?_ ?_ run
  · have none : (init W added : State F S W).uncalled o = 0 := Finset.sum_eq_zero fun w _ => rfl
    change 0 + (init W added : State F S W).uncalled o + 0 ≤ 0
    rw [none]
    rfl
  intro h s a t _ known step
  have progress := ((step_cases step).progress o).total
  have queue := Multiset.coe_eq_coe.mpr ((step_cases step).pending o.1).1
  rw [calledOn_snoc, receivedBy_snoc]
  simp only [← Multiset.coe_add] at queue ⊢
  calc _ ≤ (calledOn o h : Multiset (TickData F)) +
        (s.uncalled o + bySymbol o.1 (startOf s a).toList) + bySymbol o.1 t.pending := by
        rw [add_assoc (calledOn o h : Multiset (TickData F))]
        exact add_le_add_left (add_le_add_right progress _) _
    _ = (calledOn o h : Multiset (TickData F)) + s.uncalled o + bySymbol o.1 s.pending +
        bySymbol o.1 (recvOf s a).toList := by
        rw [← add_assoc, add_assoc _ _ (bySymbol o.1 t.pending : Multiset (TickData F)), queue,
          ← add_assoc]
    _ ≤ _ := add_le_add_left known _

/-! In turn, the ticks are processed one at a time and in the order received. -/

structure Turn (o : Object) (h : List (State F S W × Action F W)) (s : State F S W) : Prop where
  one : ∀ v w, s.status o v ≠ none → s.status o w ≠ none → v = w
  queued : receivedBy o.1 h = startedBy o.1 h ++ bySymbol o.1 s.pending
  absent : (s.strategy o).isSome = false → calledOn o h = []
  free : (s.strategy o).isSome = true → (∀ v, s.status o v = none) →
    calledOn o h = startedBy o.1 h
  busy : ∀ v tick called, s.status o v = some (tick, called) →
    (s.strategy o).isSome = true →
      startedBy o.1 h = calledOn o h ++ if called then [] else [tick]

theorem alone_of_start {o : Object} {s : State F S W} {a : Action F W}
    (inTurn : startsInTurn o.1 s a = true) (starts : bySymbol o.1 (startOf s a).toList ≠ [])
    (v : Fin W.val) : s.status o v = none := by
  cases a with
  | run w k =>
    cases task : s.pending[k]? with
    | none => simp [startOf, task, bySymbol] at starts
    | some tick =>
      have mine : key tick = o.1 := by
        by_contra other
        simp [startOf, task, bySymbol, other] at starts
      simp only [startsInTurn, task, decide_eq_true_eq] at inTurn
      exact status_eq_none ((inTurn mine).1 v)
  | _ => simp [startOf, bySymbol] at starts

structure Adds (o : Object) (h : List (State F S W × Action F W)) (s : State F S W)
    (k : List (State F S W × Action F W)) (t : State F S W)
    (started called : List (TickData F)) : Prop where
  queued : receivedBy o.1 k = startedBy o.1 k ++ bySymbol o.1 t.pending
  present : (t.strategy o).isSome = (s.strategy o).isSome
  starts : startedBy o.1 k = startedBy o.1 h ++ started
  calls : calledOn o k = calledOn o h ++ called

section turns
variable {o : Object} {h k : List (State F S W × Action F W)} {s t : State F S W}
  {w : Fin W.val} {tick : TickData F}

theorem Turn.rest (turn : Turn o h s) (adds : Adds o h s k t [] [])
    (same : t.status o = s.status o) : Turn o k t := by
  have starts := adds.starts.trans (List.append_nil _)
  have calls := adds.calls.trans (List.append_nil _)
  constructor
  · rw [same]
    exact turn.one
  · exact adds.queued
  · rw [adds.present, calls]
    exact turn.absent
  · rw [adds.present, same, calls, starts]
    exact turn.free
  · rw [adds.present, same, calls, starts]
    exact turn.busy

theorem Turn.start (turn : Turn o h s) (adds : Adds o h s k t [tick] [])
    (quiet : ∀ v, s.status o v = none)
    (now : t.status o = Function.update (s.status o) w (some (tick, false))) : Turn o k t := by
  have calls := adds.calls.trans (List.append_nil _)
  have only : ∀ v, t.status o v ≠ none → v = w := by
    intro v some
    by_contra other
    rw [now, Function.update_of_ne other] at some
    exact some (quiet v)
  constructor
  · exact fun v v' hv hv' => (only v hv).trans (only v' hv').symm
  · exact adds.queued
  · rw [adds.present, calls]
    exact turn.absent
  · intro _ all
    have mine := all w
    rw [now, Function.update_self] at mine
    cases mine
  · intro v tick' called holds here
    obtain rfl := only v (by rw [holds]; simp)
    rw [now, Function.update_self] at holds
    cases holds
    rw [adds.present] at here
    rw [adds.starts, calls, turn.free here quiet]
    rfl

theorem Turn.call (turn : Turn o h s) (adds : Adds o h s k t [] [tick])
    (ready : s.status o w = some (tick, false))
    (now : t.status o = Function.update (s.status o) w (some (tick, true)))
    (there : (s.strategy o).isSome = true) : Turn o k t := by
  have starts := adds.starts.trans (List.append_nil _)
  have before : ∀ v, t.status o v ≠ none → s.status o v ≠ none := by
    intro v some
    by_cases here : v = w
    · rw [here, ready]
      simp
    · rwa [now, Function.update_of_ne here] at some
  constructor
  · exact fun v v' hv hv' => turn.one v v' (before v hv) (before v' hv')
  · exact adds.queued
  · intro gone
    rw [adds.present, there] at gone
    cases gone
  · intro _ all
    have mine := all w
    rw [now, Function.update_self] at mine
    cases mine
  · intro v tick' called holds _
    obtain rfl := turn.one v w (before v (by rw [holds]; simp)) (by rw [ready]; simp)
    rw [now, Function.update_self] at holds
    cases holds
    rw [starts, adds.calls, turn.busy v _ _ ready there]
    simp

theorem Turn.finish {called : Bool} (turn : Turn o h s) (adds : Adds o h s k t [] [])
    (busy : s.status o w = some (tick, called))
    (now : t.status o = Function.update (s.status o) w none)
    (done : (s.strategy o).isSome = true → called = true) : Turn o k t := by
  have starts := adds.starts.trans (List.append_nil _)
  have calls := adds.calls.trans (List.append_nil _)
  have before : ∀ v, t.status o v ≠ none → v ≠ w ∧ s.status o v ≠ none := by
    intro v some
    by_cases here : v = w
    · rw [here, now, Function.update_self] at some
      exact absurd rfl some
    · exact ⟨here, by rwa [now, Function.update_of_ne here] at some⟩
  constructor
  · exact fun v v' hv hv' => turn.one v v' (before v hv).2 (before v' hv').2
  · exact adds.queued
  · rw [adds.present, calls]
    exact turn.absent
  · intro here _
    rw [adds.present] at here
    have all := turn.busy w tick called busy here
    rw [done here, if_pos rfl, List.append_nil] at all
    rw [calls, starts, all]
  · intro v tick' c holds _
    obtain ⟨other, some⟩ := before v (by rw [holds]; simp)
    exact absurd (turn.one v w some (by rw [busy]; simp)) other

end turns

theorem Turn.step {onTick : S → TickData F → S × Option Order} {o : Object}
    {h : List (State F S W × Action F W)} {s t : State F S W} {a : Action F W}
    (turn : Turn o h s) (inTurn : startsInTurn o.1 s a = true) (step : Step onTick s a t) :
    Turn o (h ++ [(s, a)]) t := by
  have progress := step.progress o
  have alone := alone_of_start inTurn
  have queue := (step.pending o.1).2 inTurn
  have queued : receivedBy o.1 (h ++ [(s, a)]) =
      startedBy o.1 (h ++ [(s, a)]) ++ bySymbol o.1 t.pending := by
    rw [receivedBy_snoc, startedBy_snoc, turn.queued, List.append_assoc, List.append_assoc, queue]
  have adds : Adds o h s (h ++ [(s, a)]) t _ _ :=
    ⟨queued, step.present o, startedBy_snoc o h s a, calledOn_snoc o h s a⟩
  generalize bySymbol o.1 (startOf s a).toList = started at progress alone adds
  generalize (callOf s a).toList.filterMap _ = called at progress adds
  cases progress with
  | rest same => exact turn.rest adds same
  | start w tick free now => exact turn.start adds (alone (by simp)) now
  | call w tick ready now there => exact turn.call adds ready now there
  | finish w tick called busy now done => exact turn.finish adds busy now done

theorem turn_run {onTick : S → TickData F → S × Option Order} {added : List (Symbol × S)}
    (o : Object) {h : List (State F S W × Action F W)} {s : State F S W}
    (run : (machine onTick W added).Run h s)
    (inTurn : ∀ x ∈ h, startsInTurn o.1 x.1 x.2 = true) : Turn o h s := by
  apply Machine.Run.invariant (M := machine onTick W added)
    (fun h s => (∀ x ∈ h, startsInTurn o.1 x.1 x.2 = true) → Turn o h s) ?_ ?_ run inTurn
  · intro _
    exact ⟨fun v w some => absurd rfl some, rfl, fun _ => rfl, fun _ _ => rfl,
      fun v tick called some => (by cases some)⟩
  intro h s a t _ known step inTurn
  exact (known fun x member => inTurn x (by simp [member])).step (inTurn (s, a) (by simp))
    (step_cases step)

theorem Turn.calledOn_prefix {o : Object} {h : List (State F S W × Action F W)}
    {s : State F S W} (turn : Turn o h s) : calledOn o h <+: receivedBy o.1 h := by
  rw [turn.queued]
  cases present : (s.strategy o).isSome with
  | false =>
    rw [turn.absent present]
    exact List.nil_prefix
  | true =>
    by_cases quiet : ∀ v, s.status o v = none
    · rw [turn.free present quiet]
      exact List.prefix_append _ _
    · obtain ⟨v, busy⟩ := not_forall.mp quiet
      obtain ⟨⟨tick, called⟩, holds⟩ := Option.ne_none_iff_exists'.mp busy
      rw [turn.busy v tick called holds present, List.append_assoc]
      exact List.prefix_append _ _

def Worker.inCall (o : Object) : Worker F → Bool
  | .onTick tick j => (key tick, j) = o
  | _ => false

theorem status_of_inCall {o : Object} {x : Worker F} (inside : x.inCall o = true) :
    x.status o ≠ none := by
  cases x with
  | onTick tick j =>
    simp only [Worker.inCall, decide_eq_true_eq] at inside
    subst inside
    simp [Worker.status]
  | _ => simp [Worker.inCall] at inside

/-- A strategy processes each tick received of its symbol at most once, and no other. It
    processes them one at a time and in the order received in every run in which the
    tasks of its symbol are started in turn. -/
theorem ticks_of_strategy {onTick : S → TickData F → S × Option Order}
    {added : List (Symbol × S)} {h : List (State F S W × Action F W)} {s : State F S W}
    (run : (machine onTick W added).Run h s) (o : Object) :
    List.Subperm (calledOn o h) (receivedBy o.1 h) ∧
      ((∀ x ∈ h, startsInTurn o.1 x.1 x.2 = true) →
        (∀ v w, (s.worker v).inCall o = true → (s.worker w).inCall o = true → v = w) ∧
          calledOn o h <+: receivedBy o.1 h) := by
  refine ⟨?_, fun inTurn => ?_⟩
  · rw [← Multiset.coe_le]
    refine le_trans ?_ (called_once o run)
    rw [add_assoc]
    exact Multiset.le_add_right _ _
  · have turn := turn_run o run inTurn
    exact ⟨fun v w hv hw => turn.one v w (status_of_inCall hv) (status_of_inCall hw),
      turn.calledOn_prefix⟩

/-! Two ticks for one DualThrust. -/

def inSeries : List (Action ℚ twoWorkers) :=
  twoTicks (tickOf [97] 10) (tickOf [97] 5) ++ taskUpToOrder 0 ++ taskPush 0 ++ [.worker 0] ++
    taskUpToOrder 1

theorem inSeries_in_order :
    let M := oneStrategy
    ∃ s, M.exec M.init inSeries = some s ∧
      (calledOn ([97], 0) (M.steps M.init inSeries)).map TickData.last = [10, 5] ∧
      (∀ v w, (s.worker v).inCall ([97], 0) = true → (s.worker w).inCall ([97], 0) = true → v = w) ∧
      calledOn ([97], 0) (M.steps M.init inSeries) <+: receivedBy [97] (M.steps M.init inSeries) :=
  ⟨_, (Option.some_get (by decide +kernel)).symm, by decide +kernel,
    (ticks_of_strategy (Machine.run_get (by decide +kernel)) ([97], 0)).2 (by decide +kernel)⟩

def bothInside : List (Action ℚ twoWorkers) :=
  twoTicks (tickOf [97] 10) (tickOf [97] 5) ++ [.run 0 1, .worker 0, .worker 0, .run 1 0,
    .worker 1, .worker 1]

/-- Two calls on one object at once, and in the wrong order. -/
theorem ticks_overlap :
    (¬ ∀ h s, oneStrategy.Run h s → ∀ o v w, (s.worker v).inCall o = true →
      (s.worker w).inCall o = true → v = w) ∧
    ¬ ∀ h s, oneStrategy.Run h s → ∀ o : Object, (calledOn o h).Sublist (receivedBy o.1 h) := by
  have run := @Machine.run_get _ _ oneStrategy bothInside (by decide +kernel)
  constructor
  · intro always
    have same := always _ _ run ([97], 0) 0 1 (by decide +kernel) (by decide +kernel)
    cases same
  · intro always
    have inOrder := (always _ _ run ([97], 0)).map TickData.last
    revert inOrder
    decide +kernel

end CtaEngine
