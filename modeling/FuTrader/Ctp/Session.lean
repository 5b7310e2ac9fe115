import FuTrader.Ctp.Releases

/- The session that the market data front keeps for CtpMdClient. It begins empty with every
   connection; the client logs in and subscribes in start() and nowhere else. -/
namespace CtpMd
open Ctp Errconfig

deriving instance DecidableEq for Req, Stmt

/-- `sent` are the requests that the front got over this connection, `answers` its responses
    to them with their ErrorIDs. -/
structure Session where
  sent : List Req
  answers : List (Req × Option Int)

def Good (errorID : Option Int) : Prop := ∀ e ∈ errorID, e = 0

instance (errorID : Option Int) : Decidable (Good errorID) :=
  inferInstanceAs (Decidable (∀ e ∈ errorID, e = 0))

def Session.step (v : Session) (s : State) : Action → Session
  | .send ret _ => match s.todo with
    | .req r :: _ =>
      if ret = 0 ∧ s.front = .connected then { v with sent := v.sent ++ [r] } else v
    | _ => v
  | .response k errorID _ => match s.pending[k]? with
    | some r => if r ∈ v.sent then { v with answers := v.answers ++ [(r, errorID)] } else v
    | none => v
  | .onFrontDisconnected _ => ⟨[], []⟩
  | .subscribe _ | .start | .init | .acquire | .onFrontConnected => v

def session (h : List (State × Action)) : Session :=
  h.foldl (fun v x => v.step x.1 x.2) ⟨[], []⟩

def Session.Served (v : Session) (r : Req) : Prop :=
  (∃ e, (r, e) ∈ v.answers) ∧ ∀ e, (r, e) ∈ v.answers → Good e

def Session.LoggedIn (userID : String) (v : Session) : Prop := v.Served (.userLogin userID)

def Session.Subscribed (v : Session) (symbol : String) : Prop :=
  ∃ symbols, symbol ∈ symbols ∧ v.Served (.subscribeMarketData symbols)

def startedOf (s : State) : Action → Option (List String)
  | .start => some s.symbols
  | _ => none

def symbolsOf (h : List (State × Action)) : List String := (Machine.log startedOf h).flatten

structure State.Settled (s : State) : Prop where
  started : s.started = true
  todo : s.todo = []
  front : s.front = .connected
  pending : s.pending = []

def needed (userID : String) (symbols : List String) : List Req :=
  .userLogin userID :: if symbols = [] then [] else [.subscribeMarketData symbols]

/-- The request is accepted over a connection that is not lost from then on, and is answered
    without errors. -/
def Keeps (r : Req) (s : State) : Action → Prop
  | .send ret _ => s.todo.head? = some (.req r) → ret = 0 ∧ s.front = .connected
  | .response k errorID _ => s.pending[k]? = some r → Good errorID
  | .onFrontDisconnected _ => .req r ∈ s.todo
  | .subscribe _ | .start | .init | .acquire | .onFrontConnected => True

instance (r : Req) (s : State) : DecidablePred (Keeps r s)
  | .send ret _ => inferInstanceAs
      (Decidable (s.todo.head? = some (.req r) → ret = 0 ∧ s.front = .connected))
  | .response k errorID _ =>
    inferInstanceAs (Decidable (s.pending[k]? = some r → Good errorID))
  | .onFrontDisconnected _ => inferInstanceAs (Decidable (.req r ∈ s.todo))
  | .subscribe _ | .start | .init | .acquire | .onFrontConnected =>
    inferInstanceAs (Decidable True)

/-- What a step means for one request of start(); `ok` says that it is kept. -/
inductive Effect (r : Req) (s t : State) (v w : Session) (ok : Prop) : Prop where
  | rest (kept : ok) (todo : .req r ∈ t.todo ↔ .req r ∈ s.todo)
      (pending : r ∈ t.pending ↔ r ∈ s.pending) (sent : r ∈ w.sent ↔ r ∈ v.sent)
      (answers : ∀ e, (r, e) ∈ w.answers ↔ (r, e) ∈ v.answers)
  | heard (kept : ok) (before : .req r ∈ s.todo) (after : .req r ∉ t.todo)
      (pending : r ∈ t.pending) (sent : r ∈ w.sent) (answers : w.answers = v.answers)
  | unheard (lost : ¬ ok) (before : .req r ∈ s.todo) (after : .req r ∉ t.todo) (same : w = v)
  | answered (e : Option Int) (kept : ok ↔ Good e) (todo : t.todo = s.todo)
      (due : r ∈ s.pending) (sent : w.sent = v.sent)
      (answers : w.answers = if r ∈ v.sent then v.answers ++ [(r, e)] else v.answers)
  | dropped (kept : ok ↔ .req r ∈ s.todo) (todo : t.todo = s.todo)
      (pending : t.pending = s.pending) (empty : w = ⟨[], []⟩)

/- The request is to be made, or is in this session, or can no longer be served. -/

structure ToMake (r : Req) (s : State) (v : Session) : Prop where
  todo : .req r ∈ s.todo
  pending : r ∉ s.pending
  sent : r ∉ v.sent
  answers : ∀ e, (r, e) ∉ v.answers

structure Kept (r : Req) (s : State) (v : Session) : Prop where
  todo : .req r ∉ s.todo
  sent : r ∈ v.sent
  heard : r ∈ s.pending ∨ ∃ e, (r, e) ∈ v.answers
  good : ∀ e, (r, e) ∈ v.answers → Good e

structure Lost (r : Req) (s : State) (v : Session) : Prop where
  todo : .req r ∉ s.todo
  gone : (r ∉ v.sent ∧ ∀ e, (r, e) ∉ v.answers) ∨ ∃ e, (r, e) ∈ v.answers ∧ ¬ Good e

section effects
variable {r : Req} {s t : State} {v w : Session} {ok : Prop}

theorem Lost.step (lost : Lost r s v) (effect : Effect r s t v w ok) : Lost r t w := by
  obtain ⟨todo, gone⟩ := lost
  cases effect with
  | rest _ same _ sent answers =>
    constructor
    · rwa [same]
    · simpa [sent, answers] using gone
  | heard _ before | unheard _ before => exact absurd before todo
  | answered e _ same _ sent answers =>
    constructor
    · rwa [same]
    · rcases gone with ⟨absent, none⟩ | ⟨e', member, bad⟩
      · left
        rw [sent, answers, if_neg absent]
        exact ⟨absent, none⟩
      · right
        refine ⟨e', ?_, bad⟩
        rw [answers]
        split
        · exact List.mem_append_left _ member
        · exact member
  | dropped _ same _ empty =>
    constructor
    · rwa [same]
    · left
      simp [empty]

theorem Kept.step (kept : Kept r s v) (effect : Effect r s t v w ok) :
    (ok ∧ Kept r t w) ∨ (¬ ok ∧ Lost r t w) := by
  obtain ⟨todo, present, heard, good⟩ := kept
  cases effect with
  | rest fine same pending sent answers =>
    refine .inl ⟨fine, ?_, ?_, ?_, ?_⟩
    · rwa [same]
    · rwa [sent]
    · simpa [pending, answers] using heard
    · simpa [answers] using good
  | heard _ before | unheard _ before => exact absurd before todo
  | answered e fine same due sent answers =>
    rw [if_pos present] at answers
    by_cases succeeds : Good e
    · refine .inl ⟨fine.mpr succeeds, ?_, ?_, ?_, ?_⟩
      · rwa [same]
      · rwa [sent]
      · exact .inr ⟨e, by simp [answers]⟩
      · intro e' member
        rw [answers, List.mem_append, List.mem_singleton] at member
        rcases member with earlier | last
        · exact good e' earlier
        · cases last
          exact succeeds
    · refine .inr ⟨fun holds => succeeds (fine.mp holds), ?_, .inr ⟨e, ?_, succeeds⟩⟩
      · rwa [same]
      · simp [answers]
  | dropped fine same _ empty =>
    refine .inr ⟨fun holds => todo (fine.mp holds), ?_, .inl ?_⟩
    · rwa [same]
    · simp [empty]

theorem ToMake.step (toMake : ToMake r s v) (effect : Effect r s t v w ok) :
    (ok ∧ (ToMake r t w ∨ Kept r t w)) ∨ (¬ ok ∧ Lost r t w) := by
  obtain ⟨todo, absent, unsent, unanswered⟩ := toMake
  cases effect with
  | rest fine same pending sent answers =>
    refine .inl ⟨fine, .inl ⟨?_, ?_, ?_, ?_⟩⟩
    · rwa [same]
    · rwa [pending]
    · rwa [sent]
    · simpa [answers] using unanswered
  | heard fine _ after pending sent answers =>
    refine .inl ⟨fine, .inr ⟨after, sent, .inl pending, ?_⟩⟩
    intro e member
    rw [answers] at member
    exact absurd member (unanswered e)
  | unheard bad _ after same =>
    subst same
    exact .inr ⟨bad, after, .inl ⟨unsent, unanswered⟩⟩
  | answered _ _ _ due => exact absurd due absent
  | dropped fine same pending empty =>
    refine .inl ⟨fine.mpr todo, .inl ⟨?_, ?_, ?_, ?_⟩⟩
    · rwa [same]
    · rwa [pending]
    · simp [empty]
    · simp [empty]

/-- A request of start(), along a history in which it is always kept or not. -/
def Fate (r : Req) (s : State) (v : Session) (ok : Prop) : Prop :=
  (ok ∧ (ToMake r s v ∨ Kept r s v)) ∨ (¬ ok ∧ Lost r s v)

theorem Fate.step {before : Prop} (fate : Fate r s v before) (effect : Effect r s t v w ok) :
    Fate r t w (before ∧ ok) := by
  rcases fate with ⟨so, toMake | kept⟩ | ⟨bad, lost⟩
  · rcases toMake.step effect with ⟨fine, next⟩ | ⟨bad, lost⟩
    · exact .inl ⟨⟨so, fine⟩, next⟩
    · exact .inr ⟨fun both => bad both.2, lost⟩
  · rcases kept.step effect with ⟨fine, next⟩ | ⟨bad, lost⟩
    · exact .inl ⟨⟨so, fine⟩, .inr next⟩
    · exact .inr ⟨fun both => bad both.2, lost⟩
  · exact .inr ⟨fun both => bad both.1, lost.step effect⟩

theorem Fate.served_iff (fate : Fate r s v ok) (todo : s.todo = []) (pending : s.pending = []) :
    v.Served r ↔ ok := by
  rcases fate with ⟨fine, toMake | kept⟩ | ⟨bad, lost⟩
  · have next := toMake.todo
    rw [todo] at next
    cases next
  · refine iff_of_true ⟨?_, kept.good⟩ fine
    rcases kept.heard with due | answered
    · rw [pending] at due
      cases due
    · exact answered
  · refine iff_of_false ?_ bad
    rintro ⟨⟨e, member⟩, good⟩
    rcases lost.gone with ⟨_, none⟩ | ⟨e', member', fails⟩
    · exact none e member
    · exact fails (good e' member')

end effects

def State.Once (s : State) : Prop := ∀ r rest, s.todo = .req r :: rest → .req r ∉ rest

section steps
variable {B : Permits.Semaphore} {userID : String} {s t : State} {a : Action}

theorem mem_eraseIdx {l : List Req} {k : Nat} (within : k < l.length) {r : Req}
    (other : l[k] ≠ r) : r ∈ l.eraseIdx k ↔ r ∈ l := by
  have whole : l.take k ++ l[k] :: l.drop (k + 1) = l := by
    rw [List.getElem_cons_drop, List.take_append_drop]
  rw [List.eraseIdx_eq_take_drop_succ]
  conv_rhs => rw [← whole]
  simp only [List.mem_append, List.mem_cons, Ne.symm other, false_or]

theorem effect_response (r : Req) (v : Session) (k : Nat) (errorID : Option Int) (bIsLast : Bool)
    (within : k < s.pending.length) (todo : t.todo = s.todo)
    (pending : s.pending[k] ≠ r → (r ∈ t.pending ↔ r ∈ s.pending)) :
    Effect r s t v (v.step s (.response k errorID bIsLast))
      (Keeps r s (.response k errorID bIsLast)) := by
  have found : s.pending[k]? = some s.pending[k] := List.getElem?_eq_getElem within
  by_cases mine : s.pending[k] = r
  · have known : s.pending[k]? = some r := by rw [found, mine]
    refine .answered errorID ?_ todo (by rw [← mine]; exact List.getElem_mem within) ?_ ?_
    · exact ⟨fun keeps => keeps known, fun good _ => good⟩
    · simp only [Session.step, known]
      split <;> rfl
    · simp only [Session.step, known]
      split <;> rfl
  · refine .rest ?_ (by rw [todo]) (pending mine) ?_ ?_
    · intro known
      rw [found] at known
      exact absurd (Option.some.inj known) mine
    · simp only [Session.step, found]
      split <;> rfl
    · intro e
      simp only [Session.step, found]
      split
      · simp [Ne.symm mine]
      · rfl

theorem Step.effect (step : Step B userID s a t) (begun : s.started = true) (once : s.Once)
    (r : Req) (v : Session) : Effect r s t v (v.step s a) (Keeps r s a) := by
  cases step with
  | subscribe => exact .rest trivial .rfl .rfl .rfl fun _ => .rfl
  | acquire rest todo => exact .rest trivial (by simp [todo]) .rfl .rfl fun _ => .rfl
  | start fresh =>
    rw [begun] at fresh
    cases fresh
  | init rest todo =>
    exact .rest trivial (by simp [todo]) .rfl .rfl fun _ => .rfl
  | accepted r' rest n todo lasts =>
    by_cases mine : r' = r
    · subst mine
      have before : .req r' ∈ s.todo := by simp [todo]
      by_cases front : s.front = .connected
      · refine .heard (fun _ => ⟨rfl, front⟩) before (once r' rest todo) ?_ ?_ ?_
        · simp [Nat.ne_of_gt (lasts_pos lasts)]
        · simp [Session.step, todo, front]
        · simp [Session.step, todo, front]
      · refine .unheard ?_ before (once r' rest todo) (by simp [Session.step, todo, front])
        intro keeps
        exact front (keeps (by rw [todo]; rfl)).2
    · refine .rest ?_ (by simp [todo, Ne.symm mine]) (by simp [Ne.symm mine]) ?_ ?_
      · intro head
        rw [todo] at head
        cases head
        exact absurd rfl mine
      · by_cases front : s.front = .connected <;>
          simp [Session.step, todo, front, Ne.symm mine]
      · intro e
        by_cases front : s.front = .connected <;> simp [Session.step, todo, front]
  | rejected r' rest ret n code todo =>
    have refused : ret ≠ 0 := by omega
    by_cases mine : r' = r
    · subst mine
      refine .unheard ?_ (by simp [todo]) (once r' rest todo)
        (by simp [Session.step, todo, refused])
      intro keeps
      exact refused (keeps (by rw [todo]; rfl)).1
    · refine .rest ?_ (by simp [todo, Ne.symm mine]) .rfl
        (by simp [Session.step, todo, refused]) fun e => by simp [Session.step, todo, refused]
      intro head
      rw [todo] at head
      cases head
      exact absurd rfl mine
  | response k errorID within => exact effect_response r v k errorID false within rfl fun _ => .rfl
  | last k errorID within =>
    exact effect_response r v k errorID true within rfl fun other => mem_eraseIdx within other
  | connected front => exact .rest trivial .rfl .rfl .rfl fun _ => .rfl
  | disconnected nReason front => exact .dropped .rfl rfl rfl rfl

end steps

/-! Along a run. -/

section runs
variable {B : Permits.Semaphore} {userID : String} {h : List (State × Action)} {s t : State}
  {a : Action}

def requests (userID : String) (symbols : List String) : List Req :=
  [.userLogin userID, .subscribeMarketData symbols]

theorem suffix_once {symbols : List String} (suffix : s.todo <:+ start userID symbols) :
    s.Once ∧ ∀ r, .req r ∈ s.todo → r ∈ requests userID symbols := by
  constructor
  · intro r rest todo
    rw [todo] at suffix
    simp only [start, List.suffix_cons_iff] at suffix
    rcases suffix with here | here | here | here | here | here | here <;> simp at here
    all_goals
      obtain ⟨rfl, rfl⟩ := here
      simp
  · intro r member
    have among := suffix.subset member
    simpa [start, requests] using among

theorem session_snoc (x : State × Action) :
    session (h ++ [x]) = (session h).step x.1 x.2 := by
  simp [session]

theorem symbolsOf_snoc : symbolsOf (h ++ [(s, a)]) = symbolsOf h ++ (startedOf s a).getD [] := by
  rw [symbolsOf, Machine.log_snoc, List.flatten_append, ← symbolsOf]
  cases startedOf s a <;> simp

theorem step_sent {v : Session} {r : Req} (member : r ∈ (v.step s a).sent) :
    r ∈ v.sent ∨ .req r ∈ s.todo := by
  cases a with
  | send ret n =>
    simp only [Session.step] at member
    split at member
    · rename_i r' rest todo
      split at member
      · rw [List.mem_append, List.mem_singleton] at member
        refine member.imp_right fun same => ?_
        rw [todo, same]
        exact List.mem_cons_self
      · exact .inl member
    · exact .inl member
  | response k errorID bIsLast =>
    simp only [Session.step] at member
    repeat' split at member
    all_goals exact .inl member
  | onFrontDisconnected => cases member
  | _ => exact .inl member

theorem step_answers {v : Session} {x : Req × Option Int} (member : x ∈ (v.step s a).answers) :
    x ∈ v.answers ∨ x.1 ∈ v.sent := by
  cases a with
  | send ret n =>
    simp only [Session.step] at member
    repeat' split at member
    all_goals exact .inl member
  | response k errorID bIsLast =>
    simp only [Session.step] at member
    split at member
    · split at member
      · rename_i present
        rw [List.mem_append, List.mem_singleton] at member
        refine member.imp_right fun same => ?_
        rw [same]
        exact present
      · exact .inl member
    · exact .inl member
  | onFrontDisconnected => cases member
  | _ => exact .inl member

inductive Known (userID : String) (h : List (State × Action)) (s : State) : Prop where
  | fresh (started : s.started = false) (todo : s.todo = []) (pending : s.pending = [])
      (front : s.front = .closed) (symbols : symbolsOf h = []) (session : session h = ⟨[], []⟩)
      (keeps : ∀ r, ∀ x ∈ h, Keeps r x.1 x.2)
  | begun (started : s.started = true) (todo : s.todo <:+ start userID (symbolsOf h))
      (sent : ∀ r ∈ (session h).sent, r ∈ requests userID (symbolsOf h))
      (answers : ∀ x ∈ (session h).answers, x.1 ∈ requests userID (symbolsOf h))
      (fate : ∀ r ∈ requests userID (symbolsOf h),
        Fate r s (session h) (∀ x ∈ h, Keeps r x.1 x.2))

theorem Known.start (known : Known userID h s) (fresh : s.started = false) :
    Known userID (h ++ [(s, .start)])
      { s with started := true, todo := start userID s.symbols } := by
  cases known with
  | begun started =>
    rw [started] at fresh
    cases fresh
  | fresh _ _ pending _ symbols none keeps =>
    have same : symbolsOf (h ++ [(s, .start)]) = s.symbols := by
      rw [symbolsOf_snoc, symbols]
      rfl
    have still : session (h ++ [(s, .start)]) = ⟨[], []⟩ := by
      rw [session_snoc, none]
      rfl
    apply Known.begun rfl
    · exact same ▸ List.suffix_refl _
    · simp [still]
    · simp [still]
    · intro r member
      rw [same] at member
      rw [still, List.forall_mem_append, List.forall_mem_singleton]
      refine .inl ⟨⟨keeps r, trivial⟩, .inl ⟨?_, ?_, ?_, ?_⟩⟩
      · simpa [CtpMd.start, requests] using member
      · simp [pending]
      · simp
      · simp

theorem Known.later (known : Known userID h s) (begun : s.started = true)
    (step : Step B userID s a t) (started : t.started = s.started) (same : startedOf s a = none)
    (todo : t.todo <:+ s.todo) : Known userID (h ++ [(s, a)]) t := by
  cases known with
  | fresh no =>
    rw [begun] at no
    cases no
  | begun _ suffix sent answers fate =>
    obtain ⟨once, asked⟩ := suffix_once suffix
    have symbols : symbolsOf (h ++ [(s, a)]) = symbolsOf h := by
      rw [symbolsOf_snoc, same, Option.getD_none, List.append_nil]
    apply Known.begun (started.trans begun)
    · rw [symbols]
      exact todo.trans suffix
    · intro r member
      rw [session_snoc] at member
      rw [symbols]
      exact (step_sent member).elim (sent r) (asked r)
    · intro x member
      rw [session_snoc] at member
      rw [symbols]
      exact (step_answers member).elim (answers x) (sent x.1)
    · intro r member
      rw [symbols] at member
      rw [session_snoc, List.forall_mem_append, List.forall_mem_singleton]
      exact (fate r member).step (step.effect begun once r (session h))

theorem Known.begun_of (known : Known userID h s)
    (touched : s.todo ≠ [] ∨ s.pending ≠ [] ∨ s.front ≠ .closed) : s.started = true := by
  cases known with
  | fresh _ todo pending front =>
    rcases touched with other | other | other
    · exact absurd todo other
    · exact absurd pending other
    · exact absurd front other
  | begun started => exact started

theorem Known.step (known : Known userID h s) (step : Step B userID s a t) :
    Known userID (h ++ [(s, a)]) t := by
  have taken := step
  cases step with
  | subscribe symbols idle =>
    have before := known
    cases before with
    | begun started => exact known.later started taken rfl rfl (List.suffix_refl _)
    | fresh started todo pending front asked none keeps =>
      refine .fresh started todo pending front ?_ ?_ ?_
      · rw [symbolsOf_snoc, asked]
        rfl
      · rw [session_snoc, none]
        rfl
      · intro r
        rw [List.forall_mem_append, List.forall_mem_singleton]
        exact ⟨keeps r, trivial⟩
  | start fresh => exact known.start fresh
  | init rest todo | acquire rest todo | accepted r rest n todo | rejected r rest ret n code todo =>
    have begun := known.begun_of (.inl (by simp [todo]))
    refine known.later begun taken rfl rfl ?_
    rw [todo]
    exact List.suffix_cons _ _
  | response k errorID within | last k errorID within =>
    have some : s.pending ≠ [] := List.ne_nil_of_length_pos (by omega)
    exact known.later (known.begun_of (.inr (.inl some))) taken rfl rfl (List.suffix_refl _)
  | connected front | disconnected nReason front =>
    have begun := known.begun_of (.inr (.inr (by simp [front])))
    exact known.later begun taken rfl rfl (List.suffix_refl _)

theorem known_run (run : (client B userID).Run h s) : Known userID h s := by
  apply run.invariant (Known userID) (.fresh rfl rfl rfl rfl rfl rfl (by simp))
  intro h s a t _ known step
  exact known.step (step_cases step)

theorem subscribed_iff {v : Session} {symbols : List String}
    (answers : ∀ x ∈ v.answers, x.1 ∈ requests userID symbols) :
    (∀ symbol ∈ symbols, v.Subscribed symbol) ↔
      (symbols ≠ [] → v.Served (.subscribeMarketData symbols)) := by
  constructor
  · intro each some
    obtain ⟨symbol, member⟩ := List.exists_mem_of_ne_nil _ some
    obtain ⟨others, _, served⟩ := each symbol member
    obtain ⟨e, among⟩ := served.1
    obtain rfl : others = symbols := by simpa [requests] using answers _ among
    exact served
  · intro served symbol member
    exact ⟨symbols, member, served (List.ne_nil_of_mem member)⟩

/-- When start() has returned and all is quiet, the session is logged in and has all symbols
    subscribed just in case every request for this was kept: accepted over a connection that
    has not been lost since, and answered without errors. -/
theorem stays_subscribed_iff (run : (client B userID).Run h s) (settled : s.Settled) :
    ((session h).LoggedIn userID ∧
        ∀ symbol ∈ symbolsOf h, (session h).Subscribed symbol) ↔
      ∀ r ∈ needed userID (symbolsOf h), ∀ x ∈ h, Keeps r x.1 x.2 := by
  cases known_run run with
  | fresh no =>
    rw [settled.started] at no
    cases no
  | begun _ _ _ answers fate =>
    have served : ∀ r ∈ requests userID (symbolsOf h),
        ((session h).Served r ↔ ∀ x ∈ h, Keeps r x.1 x.2) :=
      fun r member => (fate r member).served_iff settled.todo settled.pending
    have login := served (.userLogin userID) (by simp [requests])
    have subscription := served (.subscribeMarketData (symbolsOf h)) (by simp [requests])
    rw [Session.LoggedIn, login, subscribed_iff answers, subscription]
    by_cases none : symbolsOf h = []
    · simp [needed, none]
    · rw [needed, if_neg none, List.forall_mem_cons, List.forall_mem_singleton,
        forall_prop_of_true none]

def subscribedOnce : List Action := subscribing 1 ++ [.response 0 (some 0) true, .acquire]

theorem subscribedOnce_session : let M := ttsClient
    ∃ s, M.exec M.init subscribedOnce = some s ∧ s.Settled ∧
      (session (M.steps M.init subscribedOnce)).LoggedIn "u" ∧
      ∀ symbol ∈ ["MA509", "rb2507"],
        (session (M.steps M.init subscribedOnce)).Subscribed symbol := by
  have ran : (ttsClient.exec ttsClient.init subscribedOnce).isSome = true := rfl
  have served := (stays_subscribed_iff (Machine.run_get ran) ⟨rfl, rfl, rfl, rfl⟩).mpr (by decide)
  exact ⟨_, (Option.some_get ran).symm, ⟨rfl, rfl, rfl, rfl⟩, served⟩

def reconnected : List Action :=
  subscribedOnce ++ [.onFrontDisconnected 0x1001, .onFrontConnected]

theorem reconnected_unsubscribed :
    ¬ ∀ h s, ttsClient.Run h s → s.Settled → (session h).LoggedIn "u" ∧
      ∀ symbol ∈ symbolsOf h, (session h).Subscribed symbol := by
  intro always
  have ran : (ttsClient.exec ttsClient.init reconnected).isSome = true := rfl
  obtain ⟨⟨⟨e, member⟩, _⟩, _⟩ := always _ _ (Machine.run_get ran) ⟨rfl, rfl, rfl, rfl⟩
  cases member

end runs

end CtpMd
