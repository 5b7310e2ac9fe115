import FuTrader.Channel.Accounting

/- What a caller of push and pop can tell of the channel: the value its push holds, and
   whether its pop still runs. -/
namespace Mpsc
variable {κ T : Type} {B : BufSize} {P : Nat}

def heldAfter (C : Counters κ B) (s : State κ T B P) (j : Fin P) : Action T P → Multiset T
  | .push i u => if j = i then {u} else (s.producer j).held
  | .producer i =>
    if j = i ∧ (pushResult C s i).isSome then 0 else (s.producer j).held
  | _ => (s.producer j).held

theorem held_moved {s : State κ T B P} {i j : Fin P} {p : Producer κ T}
    (same : p.held = (s.producer i).held) :
    (Function.update s.producer i p j).held = (s.producer j).held := by
  by_cases here : j = i
  · subst here
    rw [Function.update_self, same]
  · rw [Function.update_of_ne here]

theorem held_step {C : Counters κ B} {E : Element T} {s t : State κ T B P} {a : Action T P}
    (step : Step C E s a t) (j : Fin P) : (t.producer j).held = heldAfter C s j a := by
  cases step with
  | push i u pc =>
    by_cases here : j = i <;> simp [heldAfter, here, Producer.held]
  | refuse i u curHead pc full =>
    by_cases here : j = i <;> simp [heldAfter, here, pushResult, pc, full, Producer.held]
  | publish i u pos pc =>
    by_cases here : j = i <;> simp [heldAfter, here, pushResult, pc, Producer.held]
  | pass i u curHead pc room =>
    rw [setProducer_producer, held_moved (by rw [pc]; rfl)]
    simp [heldAfter, pushResult, pc, room]
  | ticket i u curHead curTail pc | turn i u pos pc now | busy i u pos pc other
  | park i u pos seqVal pc same | changed i u pos seqVal pc other | write i u pos pc =>
    simp only [heldAfter, pushResult, pc, Option.isSome_none, Bool.false_eq_true, and_false,
      if_false]
    exact held_moved (s := s) (by rw [pc]; rfl)
  | spurious i u pos seqVal pc => exact held_moved (by rw [pc]; rfl)
  | wake i k pos value u q seqVal pc parked => exact held_moved (s := s) (by rw [parked]; rfl)
  | pop k pc | empty k pos pc other | ready k pos pc filled | read k pos pc
  | free k pos value pc | nobody k pos value pc none | advance k pos value pc => rfl

theorem held_zero_iff (p : Producer κ T) : p.held = 0 ↔ p = .idle := by
  cases p <;> simp [Producer.held]

theorem acceptOf_producer (C : Counters κ B) {s : State κ T B P} {i : Fin P} {u : T}
    (held : (s.producer i).held = {u}) :
    acceptOf s (.producer i) = if pushResult C s i = some true then some (i, u) else none := by
  cases pc : s.producer i with
  | loadTail v curHead =>
    by_cases full : C.full curHead s.tail <;> simp [acceptOf, pushResult, pc, full]
  | storeSeq v pos =>
    rw [pc] at held
    simpa [acceptOf, pushResult, pc] using Multiset.singleton_inj.mp held
  | _ => simp [acceptOf, pushResult, pc]

theorem pending_held (p : Producer κ T) :
    p.pending = [] ∨ ∃ u, p.pending = [u] ∧ p.held = {u} := by
  cases p with
  | idle | loadTail | fetchAdd => exact .inl rfl
  | loadSeq u | wait u | parked u | writeData u | storeSeq u => exact .inr ⟨u, rfl, rfl⟩

theorem valueOf_consumer [DecidableEq κ] (C : Counters κ B) (s : State κ T B P) :
    valueOf s .consumer = (popResult C s).join := by
  cases pc : s.consumer with
  | loadSeq k pos =>
    simp only [valueOf, popResult, pc]
    split <;> rfl
  | _ => simp [valueOf, popResult, pc]

theorem idle_of_popResult [DecidableEq κ] {C : Counters κ B} {E : Element T} {s t : State κ T B P}
    (step : Step C E s .consumer t) {result : Option T} (returns : popResult C s = some result) :
    t.consumer = .idle := by
  cases step with
  | empty k pos pc other => rfl
  | advance k pos value pc => rfl
  | ready k pos pc filled =>
    change (s.buffer (C.slot pos)).seq = C.succ pos at filled
    simp [popResult, pc, filled] at returns
  | _ => simp [popResult, *] at returns

theorem consumer_runs [DecidableEq κ] {C : Counters κ B} {E : Element T} {s t : State κ T B P}
    {a : Action T P} (step : Step C E s a t) (runs : s.consumer ≠ .idle)
    (inside : a = .consumer → popResult C s = none) : t.consumer ≠ .idle := by
  intro idle
  cases step with
  | empty k pos pc other =>
    have other : (s.buffer (C.slot pos)).seq ≠ C.succ pos := other
    simpa [popResult, pc, other] using inside rfl
  | advance k pos value pc => simpa [popResult, pc] using inside rfl
  | pop k pc => exact absurd pc runs
  | ready | read | free | nobody | wake => simp at idle
  | _ => exact runs idle

theorem consumer_kept {C : Counters κ B} {E : Element T} {s t : State κ T B P} {a : Action T P}
    (step : Step C E s a t) (producers : (∃ i u, a = .push i u) ∨ (∃ i, a = .producer i) ∨
      ∃ i, a = .spurious i) : t.consumer = s.consumer := by
  cases step with
  | pop | empty | ready | read | free | nobody | wake | advance => simp at producers
  | _ => rfl

theorem producer_kept [DecidableEq κ] {C : Counters κ B} {E : Element T} {s t : State κ T B P}
    {a : Action T P} (step : Step C E s a t) {i : Fin P} (other : a ≠ .producer i)
    (outside : ∀ u, a ≠ .push i u)
    (unparked : ∀ u pos seqVal, s.producer i ≠ .parked u pos seqVal) :
    t.producer i = s.producer i := by
  cases step with
  | push j u pc =>
    have apart : i ≠ j := by
      rintro rfl
      exact outside u rfl
    simp [apart]
  | spurious j u pos seqVal pc | wake j k p value u pos seqVal c pc =>
    have apart : i ≠ j := by
      rintro rfl
      exact unparked u pos seqVal pc
    simp [apart]
  | refuse j | pass j | ticket j | turn j | busy j | park j | changed j | write j | publish j =>
    have apart : i ≠ j := by
      rintro rfl
      exact other rfl
    simp [apart]
  | _ => rfl

theorem popped_length {E : Element T} (fits : B.val + P ≤ 2 ^ 64)
    {h : List (State Nat T B P × Action T P)} {s : State Nat T B P}
    (run : (machine B.unbounded E P).Run h s) : (popped h).length = s.tail := by
  rw [popped_run (.inl fits) run, List.length_map, List.length_take]
  exact Nat.min_eq_left (linked_run (.inl fits) run).tail_le

section
variable {E : Element T} (fits : B.val + P ≤ 2 ^ 64) {h : List (State SizeT T B P × Action T P)}
  {s : State SizeT T B P} (run : (machine B.sizeT E P).Run h s)
include fits run

theorem counters_sizeT :
    s.head = BitVec.ofNat 64 (issued h).length ∧ s.tail = BitVec.ofNat 64 (popped h).length := by
  obtain ⟨k, t, below, rfl, rfl⟩ := sizeT_run (.inl fits) run
  rw [issued_image, popped_image, popped_length fits below, (linked_run (.inl fits) below).count]
  exact ⟨rfl, rfl⟩

/-- What has got tickets of a producer was accepted from it, but for the push that runs. -/
theorem issued_sizeT (i : Fin P) :
    byProducer i (issued h) = byProducer i (accepted h) ++ (s.producer i).pending := by
  obtain ⟨k, t, below, rfl, rfl⟩ := sizeT_run (.inl fits) run
  rw [issued_image, accepted_image, accepted_run below i, image_producer]
  cases t.producer i <;> rfl

theorem accepted_of_popped (all : popped h = (issued h).map Prod.snd) (i : Fin P) :
    byProducer i (accepted h) = byProducer i (issued h) := by
  have split := issued_sizeT fits run i
  obtain ⟨k, t, below, rfl, rfl⟩ := sizeT_run (.inl fits) run
  rw [issued_image, accepted_image] at *
  rw [popped_image] at all
  have before := popped_accepted (.inl fits) below i
  rw [← popped_length fits below, all, List.length_map, List.take_length] at before
  have within : byProducer i (accepted k) <+: byProducer i (issued k) := by
    rw [split]
    exact List.prefix_append _ _
  exact within.eq_of_length_le before.length_le

end

end Mpsc
