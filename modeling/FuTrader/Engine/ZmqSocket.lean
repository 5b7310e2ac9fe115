import FuTrader.Lib.Machine
import FuTrader.Lib.Ownership

/- ZmqSocket: objects that are made, moved, assigned and destroyed in any order, and the
   sockets of the library that they have opened. -/
namespace Zmq
open Ownership (Sole released)

/-- `_socket`, none for nullptr. -/
structure ZmqSocket (η : Type) where
  socket : Option η
  deriving DecidableEq

/-- The objects by their addresses, and the sockets that are open. -/
structure State (ι η : Type) where
  object : ι → Option (ZmqSocket η)
  sockets : Finset η

/- The functions of ZmqSocket at object `o`. zmq_socket gives `h` in `create`. -/
inductive Action (ι η : Type) where
  | default (o : ι)
  | create (o : ι) (h : η)
  | moveNew (o other : ι)
  | moveAssign (o other : ι)
  | destroy (o : ι)

variable {ι η : Type} [DecidableEq ι] [DecidableEq η]

def init : State ι η := ⟨fun _ => none, ∅⟩

def State.set (s : State ι η) (o : ι) (x : Option (ZmqSocket η)) : State ι η :=
  { s with object := Function.update s.object o x }

def State.close (s : State ι η) : Option η → State ι η
  | none => s
  | some h => { s with sockets := s.sockets.erase h }

def step (s : State ι η) : Action ι η → Option (State ι η)
  | .default o => match s.object o with
    | none => some (s.set o (some ⟨none⟩))
    | some _ => none
  | .create o h => match s.object o with
    | none =>
      if h ∈ s.sockets then none
      else some ({ s with sockets := insert h s.sockets }.set o (some ⟨some h⟩))
    | some _ => none
  | .moveNew o other => match s.object o, s.object other with
    | none, some x => some ((s.set o (some ⟨x.socket⟩)).set other (some ⟨none⟩))
    | _, _ => none
  | .moveAssign o other => match s.object o, s.object other with
    | some x, some y =>
      if o ≠ other then
        some (((s.close x.socket).set o (some ⟨y.socket⟩)).set other (some ⟨none⟩))
      else some s
    | _, _ => none
  | .destroy o => match s.object o with
    | some x => some ((s.close x.socket).set o none)
    | none => none

def machine (ι η : Type) [DecidableEq ι] [DecidableEq η] : Machine (State ι η) (Action ι η) where
  init := init
  step := step

def State.own (s : State ι η) (o : ι) : Option η := (s.object o).bind ZmqSocket.socket

def openOf (_ : State ι η) : Action ι η → Option η
  | .create _ h => some h
  | _ => none

def closeOf (s : State ι η) : Action ι η → Option η
  | .moveAssign o other => if o ≠ other then s.own o else none
  | .destroy o => s.own o
  | _ => none

def opened (h : List (State ι η × Action ι η)) : List η := Machine.log openOf h
def closed (h : List (State ι η × Action ι η)) : List η := Machine.log closeOf h

/-! What the objects hold after a step. -/

omit [DecidableEq η] in
theorem own_set (s : State ι η) (o : ι) (x : Option (ZmqSocket η)) :
    (s.set o x).own = Function.update s.own o (x.bind ZmqSocket.socket) := by
  funext p
  by_cases here : p = o <;> simp [State.own, State.set, here]

omit [DecidableEq η] in
@[simp] theorem set_sockets (s : State ι η) (o : ι) (x : Option (ZmqSocket η)) :
    (s.set o x).sockets = s.sockets := rfl

omit [DecidableEq ι] in
theorem own_close (s : State ι η) (x : Option η) : (s.close x).own = s.own := by
  cases x <;> rfl

omit [DecidableEq ι] in
theorem close_sockets (s : State ι η) {o : ι} {x : ZmqSocket η} (there : s.object o = some x) :
    (s.close x.socket).sockets = released s.own s.sockets o := by
  have same : s.own o = x.socket := by simp [State.own, there]
  cases held : x.socket <;> simp [State.close, released, same, held]

inductive Step (s : State ι η) : Action ι η → State ι η → Prop where
  | default (o : ι) (t : State ι η) (fresh : s.object o = none)
      (own : t.own = Function.update s.own o none) (live : t.sockets = s.sockets) :
      Step s (.default o) t
  | create (o : ι) (h : η) (t : State ι η) (fresh : s.object o = none) (new : h ∉ s.sockets)
      (own : t.own = Function.update s.own o (some h)) (live : t.sockets = insert h s.sockets) :
      Step s (.create o h) t
  | moveNew (o other : ι) (t : State ι η) (fresh : s.object o = none)
      (own : t.own = Function.update (Function.update s.own o (s.own other)) other none)
      (live : t.sockets = s.sockets) : Step s (.moveNew o other) t
  | moveAssign (o other : ι) (t : State ι η) (apart : o ≠ other)
      (own : t.own = Function.update (Function.update s.own o (s.own other)) other none)
      (live : t.sockets = released s.own s.sockets o) : Step s (.moveAssign o other) t
  | moveSelf (o : ι) : Step s (.moveAssign o o) s
  | destroy (o : ι) (t : State ι η) (own : t.own = Function.update s.own o none)
      (live : t.sockets = released s.own s.sockets o) : Step s (.destroy o) t

theorem step_cases {s t : State ι η} {a : Action ι η} (eq : step s a = some t) : Step s a t := by
  have owns : ∀ {o x}, s.object o = some x → s.own o = x.socket := by
    intro o x there
    simp [State.own, there]
  cases a with
  | default o =>
    simp only [step] at eq
    split at eq <;> cases eq
    rename_i fresh
    exact .default o _ fresh (own_set ..) rfl
  | create o h =>
    simp only [step] at eq
    split at eq
    · rename_i fresh
      split at eq <;> cases eq
      rename_i new
      exact .create o h _ fresh new (own_set ..) rfl
    · cases eq
  | moveNew o other =>
    simp only [step] at eq
    split at eq <;> cases eq
    rename_i x fresh there
    refine .moveNew o other _ fresh ?_ rfl
    rw [own_set, own_set, owns there]
    rfl
  | moveAssign o other =>
    simp only [step] at eq
    split at eq
    · rename_i x y here there
      split at eq <;> cases eq
      · rename_i apart
        refine .moveAssign o other _ apart ?_ ?_
        · rw [own_set, own_set, own_close, owns there]
          rfl
        · exact close_sockets s here
      · rename_i same
        obtain rfl := not_not.mp same
        exact .moveSelf o
    · cases eq
  | destroy o =>
    simp only [step] at eq
    split at eq <;> cases eq
    rename_i x here
    refine .destroy o _ ?_ (close_sockets s here)
    rw [own_set, own_close]
    rfl

/-! Every open socket has one owner. -/

theorem Step.sole {s t : State ι η} {a : Action ι η} (sole : Sole s.own s.sockets)
    (step : Step s a t) : Sole t.own t.sockets := by
  have nothing : ∀ {o}, s.object o = none → s.own o = none := by
    intro o fresh
    simp [State.own, fresh]
  cases step with
  | default o t fresh own live =>
    rw [own, live, ← nothing fresh, Function.update_eq_self]
    exact sole
  | create o h t fresh new own live =>
    rw [own, live]
    exact sole.gain (nothing fresh) new
  | moveNew o other t fresh own live =>
    rw [own, live]
    exact sole.transfer (nothing fresh)
  | moveAssign o other t apart own live =>
    have moved := (sole.release o).transfer (i := o) (j := other) (Function.update_self ..)
    rw [own, live]
    rwa [Function.update_of_ne apart.symm, Function.update_idem] at moved
  | moveSelf o => exact sole
  | destroy o t own live =>
    rw [own, live]
    exact sole.release o

theorem sole_reachable {s : State ι η} (reach : (machine ι η).Reachable s) :
    Sole s.own s.sockets := by
  apply Machine.Reachable.invariant (M := machine ι η) (fun s => Sole s.own s.sockets) ?_ ?_ reach
  · exact Ownership.sole_nothing
  · exact fun s a t _ sole step => (step_cases step).sole sole

theorem Step.counted {s t : State ι η} {a : Action ι η} (sole : Sole s.own s.sockets)
    (step : Step s a t) :
    s.sockets.val + ((openOf s a).toList : Multiset η) =
      ((closeOf s a).toList : Multiset η) + t.sockets.val := by
  cases step with
  | default o t fresh own live | moveNew o other t fresh own live =>
    simp [openOf, closeOf, live]
  | create o h t fresh new own live =>
    rw [live, Finset.insert_val_of_notMem new, ← Multiset.singleton_add, add_comm]
    simp [openOf, closeOf]
  | moveAssign o other t apart own live =>
    simp only [openOf, closeOf, if_pos apart, live]
    simpa using sole.released_count o
  | moveSelf o => simp [openOf, closeOf]
  | destroy o t own live =>
    simp only [openOf, closeOf, live]
    simpa using sole.released_count o

theorem counted_run {h : List (State ι η × Action ι η)} {s : State ι η}
    (run : (machine ι η).Run h s) :
    (opened h : Multiset η) = (closed h : Multiset η) + s.sockets.val := by
  apply Machine.Run.invariant (M := machine ι η)
    (fun h s => (opened h : Multiset η) = (closed h : Multiset η) + s.sockets.val) rfl ?_ run
  intro h s a t run known step
  have moved := (step_cases step).counted (sole_reachable run.reachable)
  simp only [opened, closed, Machine.log_snoc, ← Multiset.coe_add] at known ⊢
  rw [known, add_assoc, moved, add_assoc]

/-- Whatever is done with the objects, only open sockets are closed, every open one has just one
    owner, and when the objects are gone every socket has been closed as often as opened. -/
theorem closed_once {h : List (State ι η × Action ι η)} {s : State ι η}
    (run : (machine ι η).Run h s) :
    (∀ x ∈ h, ∀ socket, closeOf x.1 x.2 = some socket → socket ∈ x.1.sockets) ∧
      (∀ socket ∈ s.sockets, ∃! o, s.own o = some socket) ∧
      ((∀ o, s.object o = none) → (opened h).Perm (closed h)) := by
  have sole := sole_reachable run.reachable
  refine ⟨fun x member socket closes => ?_, fun socket member => ?_, fun gone => ?_⟩
  · have sole := sole_reachable (run.before member)
    cases act : x.2 with
    | moveAssign o other =>
      rw [act, closeOf] at closes
      split at closes
      · exact sole.held o socket closes
      · cases closes
    | destroy o =>
      rw [act] at closes
      exact sole.held o socket closes
    | _ => simp [act, closeOf] at closes
  · obtain ⟨o, holds⟩ := sole.kept socket member
    exact ⟨o, holds, fun other there => sole.one other o socket there holds⟩
  · have none : s.sockets = ∅ := by
      apply Finset.eq_empty_of_forall_notMem
      intro socket member
      obtain ⟨o, holds⟩ := sole.kept socket member
      simp [State.own, gone o] at holds
    have total := counted_run run
    rw [none, Finset.empty_val, add_zero] at total
    exact Multiset.coe_eq_coe.mp total

/-! Socket 7 is closed when 8 takes its place, and 8 is closed in the object it has been moved
    to. -/

def moves : List (Action Nat Nat) :=
  [.create 0 7, .create 1 8, .moveAssign 0 1, .moveAssign 0 0, .moveNew 2 0, .destroy 0,
    .destroy 1, .destroy 2]

theorem moves_closed :
    let h := (machine Nat Nat).steps (machine Nat Nat).init moves
    (∀ x ∈ h, ∀ socket, closeOf x.1 x.2 = some socket → socket ∈ x.1.sockets) ∧
      closed h = [7, 8] :=
  ⟨(closed_once (@Machine.run_get _ _ (machine Nat Nat) moves (by decide))).1, by decide⟩

end Zmq
