import FuTrader.Ctp.Waiting

/- How little it takes for a caller of CtpTdClient to go on before its answer: a wait that
   begins, or is cut off, with a callback to come that is not its own. -/
namespace CtpTd
open Ctp

section
variable {P : Type}

structure Joined (acts : List (Action P)) (s : State P) : Prop where
  closed : s.front = .closed → .onFrontConnected ∉ acts
  connected : s.front = .connected → .onFrontConnected ∈ acts

theorem Joined.kept {acts : List (Action P)} {s t : State P} {a : Action P}
    (joined : Joined acts s) (front : t.front = s.front) (other : a ≠ .onFrontConnected) :
    Joined (acts ++ [a]) t := by
  constructor
  · intro closed
    simpa [other.symm] using joined.closed (front ▸ closed)
  · intro connected
    exact List.mem_append_left _ (joined.connected (front ▸ connected))

theorem Joined.unanswered {acts : List (Action P)} {s : State P} (joined : Joined acts s)
    (front : s.front = .closed) : ∀ b ∈ acts, ¬ Answers 0 b := by
  intro b member answers
  cases b with
  | onFrontConnected => exact joined.closed front member
  | response => exact answers.1 rfl
  | call | init | send | acquire | flowOff | onFrontDisconnected => exact answers

structure Past (acts : List (Action P)) (s : State P) : Prop where
  numbered : ∀ p ∈ s.pending, p.1 ≤ s.requested
  later : ∀ b ∈ acts, ∀ n, s.requested < n → ¬ Answers n b
  waking : s.Blocked → ∀ b ∈ acts, ¬ Answers s.requested b

theorem Past.sent {acts : List (Action P)} {s : State P} (past : Past acts s) (r : Req P)
    (ret : Int) (todo : List (Stmt P)) :
    Past (acts ++ [.send ret]) { s.request r ret with todo := todo } := by
  constructor
  · intro p member
    by_cases zero : ret = 0
    · simp only [State.request, zero, ↓reduceIte, List.mem_append, List.mem_singleton] at member ⊢
      rcases member with old | rfl
      · exact Nat.le_succ_of_le (past.numbered p old)
      · exact Nat.le_refl _
    · simp only [State.request, zero, ↓reduceIte] at member ⊢
      exact Nat.le_succ_of_le (past.numbered p member)
  · simp only [List.forall_mem_append, List.forall_mem_singleton]
    constructor
    · intro b member n more
      exact past.later b member n (Nat.lt_of_succ_lt more)
    · intro n _
      exact id
  · intro _
    simp only [List.forall_mem_append, List.forall_mem_singleton]
    exact ⟨fun b member => past.later b member _ (Nat.lt_succ_self _), id⟩

theorem Past.unsent {acts : List (Action P)} {s t : State P} {a : Action P} (past : Past acts s)
    (requested : t.requested = s.requested) (pending : t.pending ⊆ s.pending)
    (later : ∀ n, s.requested < n → ¬ Answers n a)
    (waking : t.Blocked → (∀ b ∈ acts, ¬ Answers s.requested b) ∧ ¬ Answers s.requested a) :
    Past (acts ++ [a]) t := by
  constructor
  · intro p member
    rw [requested]
    exact past.numbered p (pending member)
  · simp only [List.forall_mem_append, List.forall_mem_singleton, requested]
    exact ⟨past.later, later⟩
  · simpa only [List.forall_mem_append, List.forall_mem_singleton, requested] using waking

variable [Zero P] {B : Permits.Semaphore} {cfg : Config} {s t : State P} {a : Action P}

theorem Joined.step {acts : List (Action P)} (joined : Joined acts s) (step : Step B cfg s a t) :
    Joined (acts ++ [a]) t := by
  cases step with
  | init | disconnected => constructor <;> intro front <;> cases front
  | connected => constructor <;> simp
  | _ => exact joined.kept rfl (by simp)

theorem Past.step {acts : List (Action P)} (past : Past acts s) (joined : Joined acts s)
    (placed : Placed s) (step : Step B cfg s a t) : Past (acts ++ [a]) t := by
  cases step with
  | req r rest ret | throw r rest ret => exact past.sent r ret _
  | again r rest ret => exact past.sent r ret s.todo
  | succeed r rest => exact past.sent r 0 rest
  | call c | runsOn c =>
    apply past.unsent (by rfl) (by simp) (fun _ _ => id)
    intro blocked
    exact absurd blocked.1 (by simp [body_request])
  | returns rest todo =>
    apply past.unsent (by rfl) (by simp) (fun _ _ => id)
    intro blocked
    exact absurd blocked.1 (by simp [placed.ends todo, acquires])
  | init rest todo =>
    have untouched := placed.opens rest todo
    apply past.unsent (by rfl) (by simp) (fun _ _ => id)
    intro _
    rw [untouched.requested]
    exact ⟨joined.unanswered untouched.front, id⟩
  | acquire rest todo =>
    apply past.unsent (by rfl) (by simp) (fun _ _ => id)
    intro blocked
    exact absurd blocked.1 (by simp [placed.once todo])
  | response n errorID p found =>
    have silent (k : Nat) : ¬ Answers k (.response n errorID false : Action P) :=
      fun answers => Bool.noConfusion answers.2.2
    apply past.unsent rfl (List.Subset.refl _) fun k _ => silent k
    intro blocked
    exact ⟨past.waking blocked, silent _⟩
  | last n errorID p found =>
    have matched : p.1 = n := by simpa using List.find?_some found
    have known := past.numbered p (List.mem_of_find?_eq_some found)
    apply past.unsent (by rfl) (by exact List.eraseP_subset)
    · intro k more answers
      have same : n = k := answers.2.1
      omega
    · intro blocked
      exact absurd blocked.2 (by simp)
  | connected front =>
    apply past.unsent (by rfl) (by simp)
    · intro n more answers
      have zero : n = 0 := answers
      omega
    · intro blocked
      exact absurd blocked.2 (by simp)
  | disconnected nReason front =>
    apply past.unsent (by rfl) (by simp) (fun _ _ => id)
    intro blocked
    exact ⟨past.waking blocked, id⟩

theorem past_run {h : List (State P × Action P)} {s : State P} (run : (client B cfg).Run h s) :
    Joined (h.map Prod.snd) s ∧ Past (h.map Prod.snd) s := by
  induction run with
  | start => constructor <;> constructor <;> simp [client, State.Blocked, acquires]
  | next run step ih =>
    obtain ⟨joined, past⟩ := ih
    have moved := step_cases step
    rw [List.map_append]
    exact ⟨joined.step moved, past.step joined (placed_run run.reachable) moved⟩

/-- The run can go on to a `_sem.acquire()` that is passed before its answer. -/
def Early (B : Permits.Semaphore) (cfg : Config) (h : List (State P × Action P)) : Prop :=
  ∃ k u, (client B cfg).Run (h ++ k) u ∧ acquires u.todo = true ∧ 0 < u.sem ∧
    ∀ b ∈ (h ++ k).map Prod.snd, ¬ Answers u.requested b

structure Foreign (B : Permits.Semaphore) (cfg : Config) (s : State P) (b : Action P) : Prop where
  other : ¬ Answers s.requested b
  wakes : ∃ t, (client B cfg).step s b = some t ∧ 0 < t.sem ∧ t.todo = s.todo ∧
    t.requested = s.requested

theorem foreign_response {p : Nat × Req P} (other : p.1 ≠ s.requested)
    (found : s.pending.find? (fun q => q.1 = p.1) = some p) :
    Foreign B cfg s (.response p.1 none true) := by
  refine ⟨fun answers => other answers.2.1, _, Option.map_eq_some_iff.mpr ⟨p, found, rfl⟩, ?_⟩
  rw [callback_onRsp]
  exact ⟨B.pos _, rfl, rfl⟩

theorem foreign_connected (sent : s.requested ≠ 0) (front : s.front = .connecting) :
    Foreign B cfg s .onFrontConnected :=
  ⟨sent, _, if_pos front, B.pos _, rfl, rfl⟩

theorem Foreign.early {h : List (State P × Action P)} {b : Action P} (foreign : Foreign B cfg s b)
    (run : (client B cfg).Run h s) (waits : acquires s.todo = true)
    (fresh : ∀ b ∈ h.map Prod.snd, ¬ Answers s.requested b) : Early B cfg h := by
  obtain ⟨other, t, step, held, todo, requested⟩ := foreign
  refine ⟨[(s, b)], t, run.next step, by rwa [todo], held, ?_⟩
  rw [List.map_append, List.forall_mem_append, requested]
  constructor
  · exact fresh
  · simpa using other

theorem foreign_sent {acts : List (Action P)} (past : Past acts s) (due : s.Outstanding)
    (r : Req P) (ret : Int) (todo : List (Stmt P)) :
    ∃ b, Foreign B cfg { s.request r ret with todo := todo } b := by
  cases pending : s.pending with
  | cons p rest =>
    have before : p.1 ≤ s.requested := past.numbered p (by simp [pending])
    have found : (s.request r ret).pending.find? (fun q => q.1 = p.1) = some p := by
      by_cases zero : ret = 0 <;> simp [State.request, zero, pending]
    exact ⟨_, foreign_response (Nat.ne_of_lt (Nat.lt_succ_of_le before)) found⟩
  | nil =>
    have front : s.front = .connecting := by simpa [State.Outstanding, pending] using due
    exact ⟨_, foreign_connected (Nat.succ_ne_zero _) front⟩

theorem early_sent {h : List (State P × Action P)} {r : Req P} {ret : Int}
    {todo : List (Stmt P)} (before : (client B cfg).Run h s)
    (run : (client B cfg).Run (h ++ [(s, .send ret)]) { s.request r ret with todo := todo })
    (waits : acquires todo = true) (due : ¬ s.Clear) :
    Early B cfg (h ++ [(s, .send ret)]) := by
  have past := (past_run before).2
  have fresh : ∀ b ∈ (h ++ [(s, Action.send ret)]).map Prod.snd, ¬ Answers (s.requested + 1) b := by
    rw [List.map_append, List.forall_mem_append]
    exact ⟨fun b member => past.later b member _ (Nat.lt_succ_self _), by simp [Answers]⟩
  by_cases held : 0 < s.sem
  · refine ⟨[], { s.request r ret with todo := todo }, ?_, waits, held, ?_⟩
    · rwa [List.append_nil]
    · rwa [List.append_nil]
  · have due : s.Outstanding := by
      by_contra none_due
      exact due (clear_iff.mpr ⟨Nat.eq_zero_of_not_pos held, none_due⟩)
    obtain ⟨b, foreign⟩ := foreign_sent past due r ret todo
    exact foreign.early run waits fresh

/-- The condition is exact: after a step that breaks it, the caller can go on before its
    answer. -/
theorem early_of_broken {h : List (State P × Action P)} {s t : State P} {a : Action P}
    (run : (client B cfg).Run h s) (step : (client B cfg).step s a = some t)
    (broken : ¬ Alone s a) : Early B cfg (h ++ [(s, a)]) := by
  have next := run.next step
  cases step_cases step with
  | req r rest ret code todo =>
    simp only [Alone, State.goesOn, todo, Classical.not_imp] at broken
    exact early_sent run next broken.1 broken.2
  | succeed r rest todo =>
    simp only [Alone, State.goesOn, todo, Classical.not_imp] at broken
    exact early_sent run next (by simpa using broken.1) broken.2
  | again r rest ret code todo | throw r rest ret code todo =>
    have refused : ret ≠ 0 := by omega
    simp [Alone, State.goesOn, todo, refused] at broken
  | disconnected nReason front =>
    have blocked : s.Blocked := not_not.mp broken
    obtain ⟨joined, past⟩ := past_run run
    have sent : s.requested ≠ 0 := past.waking blocked _ (joined.connected front)
    have foreign : Foreign B cfg { s with front := .connecting } .onFrontConnected :=
      foreign_connected sent rfl
    refine foreign.early next blocked.1 ?_
    rw [List.map_append, List.forall_mem_append]
    exact ⟨past.waking blocked, by simp [Answers]⟩
  | _ => exact absurd trivial broken

end
end CtpTd
