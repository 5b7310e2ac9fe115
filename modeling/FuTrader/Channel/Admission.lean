import FuTrader.Channel.Wrap

/- How far push over-admits. The full check and the fetch_add are separate steps,
   so several producers can pass the check together and draw tickets beyond the
   buffer; but one of them always stays behind. -/
namespace Mpsc
variable {T : Type} {B : BufSize} {P : Nat}

/-- The producer draws no ticket above `v` before it has read a _tail it does not yet
    see: it is idle, has a cur_head above `v`, or holds a ticket up to `v`. -/
def Producer.Behind (v : Nat) : Producer Nat T → Prop
  | .idle => True
  | .loadTail _ curHead => v < curHead
  | .fetchAdd _ _ _ => False
  | .loadSeq _ pos | .wait _ pos _ | .parked _ pos _ | .writeData _ pos | .storeSeq _ pos =>
    pos ≤ v

structure Admitted (s : State Nat T B P) : Prop where
  snapshot : ∀ i u curHead, s.producer i = .loadTail u curHead → curHead ≤ s.head
  behind : ∀ v, s.tail + B.val ≤ v + 1 → v < s.head → ∃ i, (s.producer i).Behind v

theorem behind_ticket {p : Producer Nat T} {v q : Nat} (behind : p.Behind v)
    (ticket : p.ticket = some q) : q ≤ v := by
  cases p <;> simp_all [Producer.Behind, Producer.ticket]

theorem Linked.head_lt {log : List (Fin P × T)} {s : State Nat T B P} (linked : Linked log s)
    (admitted : Admitted s) : s.head ≤ s.freed + B.val + (P - 1) := by
  have slots := B.two_le
  have old := tail_le_freed s
  by_cases short : s.head < s.tail + B.val
  · omega
  · obtain ⟨i, behind⟩ := admitted.behind (s.tail + B.val - 1) (by omega) (by omega)
    have bound := TicketRing.issued_le linked.ring (Finset.univ.erase i) (by
      intro j q holds high
      refine Finset.mem_erase.mpr ⟨?_, Finset.mem_univ j⟩
      rintro rfl
      have := behind_ticket behind holds
      change s.freed + B.val ≤ q at high
      omega)
    rw [Finset.card_erase_of_mem (Finset.mem_univ i), Finset.card_univ, Fintype.card_fin] at bound
    change log.length ≤ s.freed + B.val + (P - 1) at bound
    rwa [linked.count] at bound

/-- A snapshot at or above `_tail + BufSize` is refused. -/
theorem Admitted.refused {s : State Nat T B P} (admitted : Admitted s)
    (near : s.head < s.tail + 2 ^ 64) {i : Fin P} {u : T} {curHead : Nat}
    (pc : s.producer i = .loadTail u curHead) (high : s.tail + B.val ≤ curHead) :
    B.unbounded.full curHead s.tail = true := by
  have snapshot := admitted.snapshot i u curHead pc
  rw [unbounded_full, sizeT_full (by omega) (by omega)]
  exact decide_eq_true (by omega)

theorem admitted_init (E : Element T) : Admitted (init B.unbounded E P) where
  snapshot _ _ _ pc := by cases pc
  behind _ _ less := absurd less (Nat.not_lt_zero _)

theorem Admitted.setProducer {s : State Nat T B P} (admitted : Admitted s) {i : Fin P}
    {p : Producer Nat T} (snapshot : ∀ u curHead, p = .loadTail u curHead → curHead ≤ s.head)
    (behind : ∀ v, s.tail + B.val ≤ v + 1 → v < s.head → (s.producer i).Behind v → p.Behind v) :
    Admitted (s.setProducer i p) where
  snapshot := by
    intro j u curHead now
    by_cases here : j = i
    · subst here
      exact snapshot u curHead (by simpa using now)
    · exact admitted.snapshot j u curHead (by simpa [here] using now)
  behind := by
    intro v (high : s.tail + B.val ≤ v + 1) (low : v < s.head)
    obtain ⟨j, old⟩ := admitted.behind v high low
    refine ⟨j, ?_⟩
    by_cases here : j = i
    · subst here
      simpa using behind v high low old
    · simpa [here] using old

theorem Admitted.ticket {s : State Nat T B P} (admitted : Admitted s) {i : Fin P} {u : T}
    {curHead curTail : Nat} (pc : s.producer i = .fetchAdd u curHead curTail) :
    Admitted ({ s with head := s.head + 1 }.setProducer i (.loadSeq u s.head)) where
  snapshot := by
    intro j v curHead now
    by_cases here : j = i
    · subst here
      simp at now
    · exact Nat.le_succ_of_le (admitted.snapshot j v curHead (by simpa [here] using now))
  behind := by
    intro v (high : s.tail + B.val ≤ v + 1) (low : v < s.head + 1)
    by_cases newest : v = s.head
    · exact ⟨i, by simp [Producer.Behind, newest]⟩
    · obtain ⟨j, old⟩ := admitted.behind v high (by omega)
      have other : j ≠ i := by
        rintro rfl
        simp [pc, Producer.Behind] at old
      exact ⟨j, by simpa [other] using old⟩

theorem Admitted.step {log : List (Fin P × T)} {E : Element T} {s t : State Nat T B P}
    {a : Action T P} (near : s.head < s.tail + 2 ^ 64) (linked : Linked log s)
    (admitted : Admitted s) (step : Step B.unbounded E s a t) : Admitted t := by
  cases step with
  | push i u pc =>
    refine admitted.setProducer ?_ fun v _ low _ => low
    rintro _ _ ⟨⟩
    exact Nat.le_refl _
  | refuse i u curHead pc full =>
    refine admitted.setProducer ?_ fun _ _ _ _ => trivial
    rintro _ _ ⟨⟩
  | publish i u pos pc =>
    refine Admitted.setProducer (s := s.setSlot _ _)
      ⟨admitted.snapshot, admitted.behind⟩ ?_ fun _ _ _ _ => trivial
    rintro _ _ ⟨⟩
  | pass i u curHead pc room =>
    refine admitted.setProducer ?_ fun v high _ old => ?_
    · rintro _ _ ⟨⟩
    · rw [pc] at old
      have less : v < curHead := old
      have refused := admitted.refused near pc (by omega)
      rw [room] at refused
      cases refused
  | ticket i u curHead curTail pc => exact admitted.ticket pc
  | turn i u pos pc | busy i u pos pc | park i u pos seqVal pc | changed i u pos seqVal pc
  | spurious i u pos seqVal pc =>
    refine admitted.setProducer ?_ fun v _ _ old => ?_
    · rintro _ _ ⟨⟩
    · rw [pc] at old
      exact old
  | write i u pos pc =>
    refine Admitted.setProducer (s := s.setSlot _ _)
      ⟨admitted.snapshot, admitted.behind⟩ ?_ fun v _ _ old => ?_
    · rintro _ _ ⟨⟩
    · rw [setSlot_producer, pc] at old
      exact old
  | wake i k pos value u q seqVal pc parked =>
    refine Admitted.setProducer (s := s.setConsumer (.storeTail k pos value))
      ⟨admitted.snapshot, admitted.behind⟩ ?_ fun v _ _ old => ?_
    · rintro _ _ ⟨⟩
    · rw [setConsumer_producer, parked] at old
      exact old
  | advance k pos value pc =>
    have ok := linked.consumer
    rw [pc] at ok
    obtain ⟨rfl, _⟩ := ok
    exact ⟨admitted.snapshot, fun v (high : s.tail + 1 + B.val ≤ v + 1) low =>
      admitted.behind v (by omega) low⟩
  | pop k pc | empty k pos pc | ready k pos pc | read k pos pc | free k pos value pc
  | nobody k pos value pc => exact ⟨admitted.snapshot, admitted.behind⟩

theorem Linked.near_tail {h : List (State Nat T B P × Action T P)} {s : State Nat T B P}
    (linked : Linked (issued h) s) (admitted : Admitted s)
    (room : B.val + P < 2 ^ 64 ∨ (issued h).length < 2 ^ 64) : s.head < s.tail + 2 ^ 64 := by
  have bound := linked.head_lt admitted
  have count := linked.count
  have freed := freed_le_succ_tail s
  have half := B.le_half
  rcases room with few | short <;> omega

theorem admitted_run {E : Element T} {h : List (State Nat T B P × Action T P)}
    {s : State Nat T B P} (room : B.val + P < 2 ^ 64 ∨ (issued h).length < 2 ^ 64)
    (run : (machine B.unbounded E P).Run h s) : Admitted s := by
  induction run with
  | start => exact admitted_init E
  | @next h s t a run step ih =>
    have earlier : B.val + P < 2 ^ 64 ∨ (issued h).length < 2 ^ 64 := by
      apply room.imp_right
      intro short
      rw [issued, Machine.log_snoc, List.length_append] at short
      exact Nat.lt_of_le_of_lt (Nat.le_add_right _ _) short
    have admitted := ih earlier
    have linked := linked_run (earlier.imp_left Nat.le_of_lt) run
    exact admitted.step (linked.near_tail admitted earlier) linked (step_cases step)

theorem admitted_reachable {E : Element T} (fits : B.val + P < 2 ^ 64) {s : State Nat T B P}
    (reach : (machine B.unbounded E P).Reachable s) : Admitted s := by
  obtain ⟨h, run⟩ := reach
  exact admitted_run (.inl fits) run

/-! The slots that a run has freed, and who holds the tickets beyond them. -/

def freeOf {κ : Type} (s : State κ T B P) : Action T P → Option κ
  | .consumer => match s.consumer with
    | .storeSeq _ pos _ => some pos
    | _ => none
  | _ => none

def freedSlots {κ : Type} (h : List (State κ T B P × Action T P)) : List κ := Machine.log freeOf h

def Producer.waiting {κ : Type} : Producer κ T → Option (T × κ)
  | .loadSeq u pos | .wait u pos _ | .parked u pos _ => some (u, pos)
  | _ => none

theorem freed_step {log : List (Fin P × T)} {E : Element T} {s t : State Nat T B P}
    {a : Action T P} (linked : Linked log s) (step : Step B.unbounded E s a t) :
    t.freed = s.freed + (freeOf s a).toList.length := by
  have ok := linked.consumer
  cases step with
  | free k pos value pc => simp [State.freed, freeOf, pc]
  | advance k pos value pc =>
    rw [pc] at ok
    obtain ⟨rfl, _⟩ := ok
    simp [State.freed, freeOf, pc]
  | pop k pc | empty k pos pc | ready k pos pc | read k pos pc | nobody k pos value pc
  | wake i k pos value u q seqVal pc => simp [State.freed, freeOf, pc]
  | push i u pc | refuse i u curHead pc | pass i u curHead pc | ticket i u curHead curTail pc
  | turn i u pos pc | busy i u pos pc | park i u pos seqVal pc | changed i u pos seqVal pc
  | write i u pos pc | publish i u pos pc | spurious i u pos seqVal pc =>
    simp [State.freed, freeOf]

theorem freed_run {E : Element T} {h : List (State Nat T B P × Action T P)}
    {s : State Nat T B P} (room : Room h) (run : (machine B.unbounded E P).Run h s) :
    (freedSlots h).length = s.freed := by
  induction run with
  | start => rfl
  | next run step ih =>
    have linked := linked_run room.before run
    rw [freedSlots, Machine.log_snoc, List.length_append, ← freedSlots, ih room.before,
      freed_step linked (step_cases step)]

theorem freeOf_image (s : State Nat T B P) (a : Action T P) :
    freeOf s.image a = (freeOf s a).map (BitVec.ofNat 64) := by
  cases a with
  | consumer => cases pc : s.consumer <;> simp [freeOf, pc, Consumer.image]
  | _ => rfl

theorem freedSlots_image (k : List (State Nat T B P × Action T P)) :
    freedSlots (k.map (Prod.map State.image id)) = (freedSlots k).map (BitVec.ofNat 64) := by
  rw [freedSlots, Machine.log_map, freedSlots, Machine.log_map_value]
  simp only [freeOf_image]

theorem Linked.waiting {log : List (Fin P × T)} {s : State Nat T B P} (linked : Linked log s)
    {q : Nat} (high : s.freed + B.val ≤ q) (drawn : q < log.length) :
    ∃ i u, log[q]? = some (i, u) ∧ (s.producer i).waiting = some (u, q) := by
  rcases linked.ring.kept q (show s.freed ≤ q by omega) drawn with ⟨i, holds⟩ | ⟨_, less⟩
  · have turn := mt (TicketRing.waits_iff B.two_le linked.ring holds).mp (Nat.not_lt.mpr high)
    change (s.producer i).ticket = some q at holds
    have unowned : (s.producer i).owned ≠ some q := fun owns => turn (linked.owned_turn owns).2
    obtain ⟨u, entry⟩ := linked.value_of_ticket holds
    have ok := linked.producers i
    refine ⟨i, u, entry, ?_⟩
    cases pc : s.producer i with
    | loadSeq v p | wait v p seqVal | parked v p seqVal =>
      rw [pc] at holds ok
      obtain rfl : p = q := Option.some.inj holds
      have same : log[p]? = some (i, v) := by first | exact ok | exact ok.1
      rw [entry] at same
      cases same
      rfl
    | writeData v p | storeSeq v p =>
      rw [pc] at holds unowned
      exact absurd holds unowned
    | idle | loadTail | fetchAdd => simp [pc, Producer.ticket] at holds
  · change q < s.freed + B.val at less
    omega

theorem image_waiting (p : Producer Nat T) :
    p.image.waiting = p.waiting.map fun x => (x.1, BitVec.ofNat 64 x.2) := by
  cases p <;> rfl

/-- push admits at most `P - 1` tickets beyond the buffer. Each ticket beyond the slots freed
    and the buffer is held by another push, which has not seen its turn. -/
theorem admission_bound {E : Element T} {h : List (State SizeT T B P × Action T P)}
    {s : State SizeT T B P} (room : B.val + P < 2 ^ 64 ∨ (issued h).length < 2 ^ 64)
    (run : (machine B.sizeT E P).Run h s) :
    (issued h).length ≤ (freedSlots h).length + B.val + (P - 1) ∧
      ∃ holder : {q // (freedSlots h).length + B.val ≤ q ∧ q < (issued h).length} → Fin P,
        Function.Injective holder ∧ ∀ q, ∃ u, (issued h)[q.val]? = some (holder q, u) ∧
          (s.producer (holder q)).waiting = some (u, BitVec.ofNat 64 q.val) := by
  obtain ⟨k, t, below, rfl, rfl⟩ := sizeT_run (room.imp_left Nat.le_of_lt) run
  rw [issued_image] at room
  have linked := linked_run (room.imp_left Nat.le_of_lt) below
  have bound := linked.head_lt (admitted_run room below)
  have freed := freed_run (room.imp_left Nat.le_of_lt) below
  rw [issued_image, freedSlots_image, List.length_map, freed, linked.count]
  refine ⟨bound, ?_⟩
  have held : ∀ q : {q // t.freed + B.val ≤ q ∧ q < t.head}, ∃ i u,
      (issued k)[q.val]? = some (i, u) ∧ (t.producer i).waiting = some (u, q.val) := by
    rintro ⟨q, high, drawn⟩
    exact linked.waiting high (by rw [linked.count]; exact drawn)
  choose holder value entry waits using held
  refine ⟨holder, ?_, fun q => ⟨value q, entry q, ?_⟩⟩
  · intro p q same
    have one := waits p
    rw [same, waits q] at one
    exact Subtype.ext (Prod.mk.inj (Option.some.inj one)).2.symm
  · rw [image_producer, image_waiting, waits q]
    rfl

def tooMany : List (Action Nat 2) :=
  [.push 0 5, .producer 0, .producer 0, .producer 0, .producer 0, .producer 0,
    .push 0 6, .push 1 7, .producer 0, .producer 1, .producer 0, .producer 1]

theorem tooMany_bounded :
    let M := machine twoSlots.sizeT ⟨0, id⟩ 2
    (issued (M.steps M.init tooMany)).length = 3 ∧
      (issued (M.steps M.init tooMany)).length ≤
        (freedSlots (M.steps M.init tooMany)).length + 2 + (2 - 1) :=
  ⟨by decide, (admission_bound (.inl (by decide)) (Machine.run_get (by decide))).1⟩

end Mpsc
