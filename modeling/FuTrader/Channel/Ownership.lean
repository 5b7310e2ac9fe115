import FuTrader.Channel.Wrap

/- One thread at a time on a slot: what the plain accesses to slot.data rest on. -/
namespace Mpsc
variable {T : Type} {B : BufSize} {P : Nat}

/-- The thread that takes a step: a producer, or the consumer (`none`). -/
def actor : Action T P → Option (Fin P)
  | .push i _ | .producer i | .spurious i => some i
  | .pop _ | .consumer | .wake _ => none

theorem owned_image (p : Producer Nat T) : p.image.owned = p.owned.map (BitVec.ofNat 64) := by
  cases p <;> rfl

theorem consumer_owned_image (c : Consumer Nat T) :
    c.image.owned = c.owned.map (BitVec.ofNat 64) := by
  cases c <;> rfl

structure Exclusive (s : State SizeT T B P) : Prop where
  producers : ∀ {i j p q}, (s.producer i).owned = some p → (s.producer j).owned = some q →
    B.sizeT.slot p = B.sizeT.slot q → i = j
  consumer : ∀ {i p pos}, (s.producer i).owned = some p → s.consumer.owned = some pos →
    B.sizeT.slot p ≠ B.sizeT.slot pos

theorem exclusive_image {log : List (Fin P × T)} {t : State Nat T B P} (linked : Linked log t) :
    Exclusive t.image where
  producers := by
    intro i j p q hi hj same
    rw [image_producer, owned_image] at hi hj
    obtain ⟨p, owns, rfl⟩ := Option.map_eq_some_iff.mp hi
    obtain ⟨q, other, rfl⟩ := Option.map_eq_some_iff.mp hj
    rw [sizeT_slot, sizeT_slot] at same
    exact linked.owners_apart owns other same
  consumer := by
    intro i p pos hi hc
    rw [image_producer, owned_image] at hi
    rw [image_consumer, consumer_owned_image] at hc
    obtain ⟨p, owns, rfl⟩ := Option.map_eq_some_iff.mp hi
    obtain ⟨pos, reads, rfl⟩ := Option.map_eq_some_iff.mp hc
    rw [sizeT_slot, sizeT_slot]
    exact linked.owner_not_read owns reads

theorem exclusive_reachable {E : Element T} (producers : P < 2 ^ 63) {s : State SizeT T B P}
    (reach : (machine B.sizeT E P).Reachable s) : Exclusive s := by
  have half := B.le_half
  obtain ⟨log, t, _, linked, rfl⟩ := sizeT_reachable (by omega) reach
  exact exclusive_image linked

theorem slot_changed {E : Element T} {s t : State SizeT T B P} {a : Action T P}
    (step : Step B.sizeT E s a t) (k : Fin B.val) :
    t.buffer k = s.buffer k ∨
      (∃ i p, actor a = some i ∧ (s.producer i).owned = some p ∧ B.sizeT.slot p = k) ∨
      ∃ pos, actor a = none ∧ s.consumer.owned = some pos ∧ B.sizeT.slot pos = k := by
  cases step with
  | write i u pos pc | publish i u pos pc =>
    by_cases here : k = B.sizeT.slot pos
    · exact Or.inr (Or.inl ⟨i, pos, rfl, by rw [pc]; rfl, here.symm⟩)
    · exact Or.inl (by simp [here])
  | read n pos pc | free n pos value pc =>
    by_cases here : k = B.sizeT.slot pos
    · exact Or.inr (Or.inr ⟨pos, rfl, by rw [pc]; rfl, here.symm⟩)
    · exact Or.inl (by simp [here])
  | _ => exact Or.inl rfl

theorem Exclusive.kept_from_others {E : Element T} {s t : State SizeT T B P} {a : Action T P}
    (exclusive : Exclusive s) (step : Step B.sizeT E s a t) {i : Fin P} {p : SizeT}
    (owns : (s.producer i).owned = some p) (other : actor a ≠ some i) :
    t.buffer (B.sizeT.slot p) = s.buffer (B.sizeT.slot p) := by
  rcases slot_changed step (B.sizeT.slot p) with
    same | ⟨j, q, mover, ownsj, slot⟩ | ⟨pos, _, reads, slot⟩
  · exact same
  · have eq := exclusive.producers ownsj owns slot
    subst eq
    exact absurd mover other
  · exact absurd slot.symm (exclusive.consumer owns reads)

theorem Exclusive.kept_from_producers {E : Element T} {s t : State SizeT T B P} {a : Action T P}
    (exclusive : Exclusive s) (step : Step B.sizeT E s a t) {pos : SizeT}
    (reads : s.consumer.owned = some pos) (other : actor a ≠ none) :
    t.buffer (B.sizeT.slot pos) = s.buffer (B.sizeT.slot pos) := by
  rcases slot_changed step (B.sizeT.slot pos) with same | ⟨j, q, _, owns, slot⟩ | ⟨_, mover, _, _⟩
  · exact same
  · exact absurd slot (exclusive.consumer owns reads)
  · exact absurd mover other

/-- In every reachable state a slot has at most one owner, a producer or the consumer,
    and while it has one no other thread changes its seq or its data. -/
theorem slot_ownership {E : Element T} (producers : P < 2 ^ 63) {s : State SizeT T B P}
    (reach : (machine B.sizeT E P).Reachable s) :
    (∀ i j p q, (s.producer i).owned = some p → (s.producer j).owned = some q →
      B.sizeT.slot p = B.sizeT.slot q → i = j) ∧
    (∀ i p pos, (s.producer i).owned = some p → s.consumer.owned = some pos →
      B.sizeT.slot p ≠ B.sizeT.slot pos) ∧
    (∀ i p a t, (s.producer i).owned = some p → step B.sizeT E s a = some t →
      actor a ≠ some i → t.buffer (B.sizeT.slot p) = s.buffer (B.sizeT.slot p)) ∧
    ∀ pos a t, s.consumer.owned = some pos → step B.sizeT E s a = some t →
      actor a ≠ none → t.buffer (B.sizeT.slot pos) = s.buffer (B.sizeT.slot pos) := by
  have exclusive := exclusive_reachable producers reach
  refine ⟨?_, ?_, ?_, ?_⟩
  · intro i j p q hi hj same
    exact exclusive.producers hi hj same
  · intro i p pos owns reads
    exact exclusive.consumer owns reads
  · intro i p a t owns next other
    exact exclusive.kept_from_others (step_cases next) owns other
  · intro pos a t reads next other
    exact exclusive.kept_from_producers (step_cases next) reads other

def twoOwners : List (Action Nat 2) :=
  [.push 0 5, .producer 0, .producer 0, .push 1 6, .producer 1, .producer 1,
    .producer 0, .producer 1]

theorem twoOwners_exclusive :
    let M := machine twoSlots.sizeT ⟨0, id⟩ 2
    ∃ s, M.exec M.init twoOwners = some s ∧ (s.producer 0).owned = some 0 ∧
      (s.producer 1).owned = some 1 ∧ ∀ i j p q, (s.producer i).owned = some p →
        (s.producer j).owned = some q → twoSlots.sizeT.slot p = twoSlots.sizeT.slot q → i = j :=
  ⟨_, (Option.some_get (by decide)).symm, by decide, by decide,
    (slot_ownership (by decide) (Machine.run_get (by decide)).reachable).1⟩

end Mpsc
