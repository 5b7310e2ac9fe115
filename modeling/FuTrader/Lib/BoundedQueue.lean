import FuTrader.Lib.SeqObject

/- The FIFO queue that holds at most `cap` values. -/
structure BoundedQueue (α : Type) (cap : Nat) where
  items : List α
  fits : items.length ≤ cap

namespace BoundedQueue
variable {α : Type} {cap : Nat}

inductive Call (α : Type) where
  | push (u : α)
  | pop
  deriving DecidableEq

def Call.isPush : Call α → Bool
  | .push _ => true
  | .pop => false

inductive Answer (α : Type) where
  | pushed (ok : Bool)
  | popped (value : Option α)
  deriving DecidableEq

def pushes (calls : List (Call α)) : List (Call α) := calls.filter Call.isPush
def pops (calls : List (Call α)) : List (Call α) := calls.filter fun c => !c.isPush

theorem pushes_append (calls more : List (Call α)) :
    pushes (calls ++ more) = pushes calls ++ pushes more := List.filter_append ..
theorem pops_append (calls more : List (Call α)) :
    pops (calls ++ more) = pops calls ++ pops more := List.filter_append ..

@[simp] theorem pushes_nil : pushes ([] : List (Call α)) = [] := rfl
@[simp] theorem pops_nil : pops ([] : List (Call α)) = [] := rfl
@[simp] theorem pushes_push (u : α) : pushes [Call.push u] = [.push u] := rfl
@[simp] theorem pops_push (u : α) : pops [Call.push u] = [] := rfl
@[simp] theorem pushes_pop : pushes [(Call.pop : Call α)] = [] := rfl
@[simp] theorem pops_pop : pops [(Call.pop : Call α)] = [.pop] := rfl

def empty : BoundedQueue α cap := ⟨[], Nat.zero_le cap⟩

def push (q : BoundedQueue α cap) (u : α) : Answer α × BoundedQueue α cap :=
  if room : q.items.length < cap then
    (.pushed true, ⟨q.items ++ [u], by simpa using Nat.succ_le_of_lt room⟩)
  else (.pushed false, q)

def pop : BoundedQueue α cap → Answer α × BoundedQueue α cap
  | ⟨[], fits⟩ => (.popped none, ⟨[], fits⟩)
  | ⟨u :: rest, fits⟩ => (.popped (some u), ⟨rest, Nat.le_of_succ_le fits⟩)

def call (q : BoundedQueue α cap) : Call α → Answer α × BoundedQueue α cap
  | .push u => q.push u
  | .pop => q.pop

def fifo (α : Type) (cap : Nat) : SeqObject (BoundedQueue α cap) (Call α) (Answer α) :=
  ⟨empty, call⟩

@[simp] theorem fifo_push (q : BoundedQueue α cap) (u : α) :
    (fifo α cap).call q (.push u) = q.push u := rfl
@[simp] theorem fifo_pop (q : BoundedQueue α cap) : (fifo α cap).call q .pop = q.pop := rfl

theorem push_fits {q : BoundedQueue α cap} (u : α) (room : q.items.length < cap) :
    (q.items ++ [u]).length ≤ cap := by simpa using Nat.succ_le_of_lt room

theorem push_room {q : BoundedQueue α cap} (u : α) (room : q.items.length < cap) :
    q.push u = (.pushed true, ⟨q.items ++ [u], push_fits u room⟩) := dif_pos room

theorem push_full {q : BoundedQueue α cap} (u : α) (full : cap ≤ q.items.length) :
    q.push u = (.pushed false, q) := dif_neg (Nat.not_lt.mpr full)

theorem pop_empty {q : BoundedQueue α cap} (nothing : q.items = []) :
    q.pop = (.popped none, q) := by
  obtain ⟨items, fits⟩ := q
  subst nothing
  rfl

theorem pop_oldest {q : BoundedQueue α cap} {u : α} {rest : List α} (oldest : q.items = u :: rest) :
    ∃ fits, q.pop = (.popped (some u), ⟨rest, fits⟩) := by
  obtain ⟨items, fits⟩ := q
  subst oldest
  exact ⟨_, rfl⟩

theorem push_items {q q' : BoundedQueue α cap} {u : α} {ok : Bool}
    (answered : q.push u = (.pushed ok, q')) :
    q'.items = if ok then q.items ++ [u] else q.items := by
  rcases Nat.lt_or_ge q.items.length cap with room | full
  · rw [push_room u room] at answered
    cases answered
    rfl
  · rw [push_full u full] at answered
    cases answered
    rfl

theorem pop_items {q q' : BoundedQueue α cap} {value : Option α}
    (answered : q.pop = (.popped value, q')) : q.items = value.toList ++ q'.items := by
  cases held : q.items with
  | nil =>
    rw [pop_empty held] at answered
    cases answered
    exact held.symm
  | cons u rest =>
    obtain ⟨fits, oldest⟩ := pop_oldest held
    rw [oldest] at answered
    cases answered
    rfl

/-! The values of calls that were answered. -/

def outcome : Call α × Answer α → Option (α × Bool)
  | (.push u, .pushed ok) => some (u, ok)
  | _ => none

def takenOut : Call α × Answer α → Option α
  | (_, .popped value) => value
  | _ => none

def admitted (outcomes : List (α × Bool)) : List α := (outcomes.filter Prod.snd).map Prod.fst

theorem admitted_append (outcomes more : List (α × Bool)) :
    admitted (outcomes ++ more) = admitted outcomes ++ admitted more := by
  simp [admitted]

theorem admitted_prefix {outcomes more : List (α × Bool)} (first : outcomes <+: more) :
    admitted outcomes <+: admitted more := (first.filter _).map _

theorem admitted_sublist (outcomes : List (α × Bool)) :
    (admitted outcomes).Sublist (outcomes.map Prod.fst) := List.filter_sublist.map _

theorem call_items {q r : BoundedQueue α cap} {c : Call α} {a : Answer α}
    (answered : (fifo α cap).call q c = (a, r)) :
    q.items ++ admitted (outcome (c, a)).toList = (takenOut (c, a)).toList ++ r.items ∧
      (outcome (c, a)).toList.map (fun x => Call.push x.1) = pushes [c] := by
  cases c with
  | push u =>
    cases a with
    | pushed ok =>
      rw [push_items answered]
      cases ok <;> simp [outcome, takenOut, admitted]
    | popped value =>
      simp only [fifo_push, push] at answered
      split at answered <;> cases answered
  | pop =>
    cases a with
    | pushed ok =>
      rw [fifo_pop] at answered
      obtain ⟨items, fits⟩ := q
      cases items <;> cases answered
    | popped value =>
      rw [pop_items answered]
      simp [outcome, takenOut, admitted]

theorem answers_items (xs : List (Call α × Answer α)) {q : BoundedQueue α cap}
    (answered : (fifo α cap).answers q (xs.map Prod.fst) = xs.map Prod.snd) :
    q.items ++ admitted (xs.filterMap outcome) =
        xs.filterMap takenOut ++ ((fifo α cap).after q (xs.map Prod.fst)).items ∧
      (xs.filterMap outcome).map (fun x => Call.push x.1) = pushes (xs.map Prod.fst) := by
  induction xs generalizing q with
  | nil => exact ⟨List.append_nil _, rfl⟩
  | cons x xs ih =>
    simp only [List.map_cons, SeqObject.answers, List.cons.injEq] at answered
    obtain ⟨items, calls⟩ := ih answered.2
    obtain ⟨first, call⟩ := call_items (q := q) (Prod.ext answered.1 rfl)
    have here {β : Type} (f : Call α × Answer α → Option β) :
        (x :: xs).filterMap f = (f x).toList ++ xs.filterMap f := by
      cases seen : f x <;> simp [seen]
    simp only [here, List.map_cons, SeqObject.after, admitted_append, List.map_append]
    constructor
    · rw [← List.append_assoc, first, List.append_assoc, items, List.append_assoc]
    · rw [call, calls, ← pushes_append, List.singleton_append]

theorem pop_nothing {q r : BoundedQueue α cap} (answered : q.pop = (.popped none, r)) :
    q.items = [] := by
  obtain ⟨items, fits⟩ := q
  cases items with
  | nil => rfl
  | cons u rest => cases answered

theorem push_refused {q r : BoundedQueue α cap} {u : α}
    (answered : q.push u = (.pushed false, r)) : q.items.length = cap := by
  by_contra fewer
  rw [push_room u (Nat.lt_of_le_of_ne q.fits fewer)] at answered
  cases answered

end BoundedQueue
