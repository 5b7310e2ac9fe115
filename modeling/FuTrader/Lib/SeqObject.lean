import FuTrader.Lib.Machine

/- Objects used by one call at a time: what a call answers and what it leaves behind.
   A machine whose calls overlap is linearizable to such an object when every call
   takes effect at one of its own steps. -/
structure SeqObject (Q C A : Type) where
  init : Q
  call : Q → C → A × Q

namespace SeqObject
variable {Q C A σ α ι : Type}

def answers (O : SeqObject Q C A) : Q → List C → List A
  | _, [] => []
  | q, c :: cs => (O.call q c).1 :: answers O (O.call q c).2 cs

def after (O : SeqObject Q C A) : Q → List C → Q
  | q, [] => q
  | q, c :: cs => after O (O.call q c).2 cs

theorem answers_snoc (O : SeqObject Q C A) (q : Q) (cs : List C) (c : C) :
    O.answers q (cs ++ [c]) = O.answers q cs ++ [(O.call (O.after q cs) c).1] := by
  induction cs generalizing q with
  | nil => rfl
  | cons d ds ih => simp [answers, after, ih]

theorem after_snoc (O : SeqObject Q C A) (q : Q) (cs : List C) (c : C) :
    O.after q (cs ++ [c]) = (O.call (O.after q cs) c).2 := by
  induction cs generalizing q with
  | nil => rfl
  | cons d ds ih => simp [after, ih]

/-- The object answers `x.2` to the call `x.1` and goes from `q` to `r`; without a call
    it stays. -/
def Takes (O : SeqObject Q C A) (q : Q) : Option (C × A) → Q → Prop
  | none, r => r = q
  | some x, r => O.call q x.1 = (x.2, r)

/-- If each step of a machine is matched by the call that takes effect at it, the
    answers along a run are those of the object. -/
theorem linearizes (O : SeqObject Q C A) {M : Machine σ α} (effect : σ → α → Option (C × A))
    (holds : σ → Q → Prop) (base : holds M.init O.init)
    (keep : ∀ s a t q, holds s q → M.step s a = some t →
      ∃ r, O.Takes q (effect s a) r ∧ holds t r)
    {h : List (σ × α)} {s : σ} (run : M.Run h s) :
    O.answers O.init ((Machine.log effect h).map Prod.fst) = (Machine.log effect h).map Prod.snd ∧
      holds s (O.after O.init ((Machine.log effect h).map Prod.fst)) := by
  apply Machine.Run.invariant (M := M) (fun h s =>
    O.answers O.init ((Machine.log effect h).map Prod.fst) = (Machine.log effect h).map Prod.snd ∧
      holds s (O.after O.init ((Machine.log effect h).map Prod.fst))) ⟨rfl, base⟩ ?_ run
  intro h s a t _ known step
  obtain ⟨r, takes, next⟩ := keep s a t _ known.2 step
  rw [Machine.log_snoc]
  cases seen : effect s a with
  | none =>
    rw [seen] at takes
    obtain rfl : r = _ := takes
    simpa using ⟨known.1, next⟩
  | some x =>
    rw [seen] at takes
    have call : O.call _ x.1 = (x.2, r) := takes
    simp only [Option.toList_some, List.map_append, List.map_cons, List.map_nil, answers_snoc,
      after_snoc, call, known.1]
    exact ⟨trivial, next⟩

/-! Whole calls, one after the other. -/

def performAll (perform : σ → ι → Option (A × σ)) : σ → List ι → Option (List A × σ)
  | s, [] => some ([], s)
  | s, c :: cs => (perform s c).bind fun x =>
    (performAll perform x.2 cs).map fun y => (x.1 :: y.1, y.2)

theorem performAll_answers (O : SeqObject Q C A) {perform : σ → ι → Option (A × σ)} (call : ι → C)
    (holds : σ → Q → Prop)
    (serve : ∀ s q c, holds s q →
      ∃ t, perform s c = some ((O.call q (call c)).1, t) ∧ holds t (O.call q (call c)).2)
    (cs : List ι) {s : σ} {q : Q} (now : holds s q) :
    ∃ t, performAll perform s cs = some (O.answers q (cs.map call), t) ∧
      holds t (O.after q (cs.map call)) := by
  induction cs generalizing s q with
  | nil => exact ⟨s, rfl, now⟩
  | cons c cs ih =>
    obtain ⟨u, first, between⟩ := serve s q c now
    obtain ⟨t, rest, last⟩ := ih between
    refine ⟨t, ?_, last⟩
    simp [performAll, first, rest, answers]

end SeqObject
