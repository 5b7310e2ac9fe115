import FuTrader.StraCta.Position
import Mathlib.Algebra.Order.Ring.Defs
import Mathlib.Tactic.Linarith

/- When DualThrust opens: the tick that gives the open price is compared with a threshold
   that is the open price itself. -/
namespace FuTrader

/-- What holds of the finite doubles, and of the numbers of exact arithmetic. -/
class FiniteLaws (F : Type) extends Double F where
  Finite : F → Prop
  sub_self : ∀ x, Finite x → x - x = zero
  half_zero : half * zero = zero
  add_zero_le : ∀ x, Finite x → x + zero ≤ x

abbrev exactLaws (K : Type) [Field K] [LinearOrder K] [IsStrictOrderedRing K] : FiniteLaws K where
  zero := 0
  half := ((2 : Nat) : K)⁻¹
  decLt := inferInstance
  decLe := inferInstance
  Finite _ := True
  sub_self x _ := sub_self x
  half_zero := mul_zero _
  add_zero_le x _ := (add_zero x).le

instance : FiniteLaws ℚ := exactLaws ℚ

namespace DualThrust
variable {F : Type} [FiniteLaws F] {s : DualThrust F} {tick : TickData F}
open FiniteLaws (Finite)

structure Session (s : DualThrust F) : Prop where
  k1 : s.k1 = Double.half
  place : s.position = 0 ∧ s.initialized = false ∨ s.position = 1 ∧ s.initialized = true

theorem session_fresh : Session (fresh : DualThrust F) := ⟨rfl, .inl ⟨rfl, rfl⟩⟩

theorem reaches (session : Session s) (first : s.initialized = false) (finite : Finite tick.last) :
    (s.observe tick.last).buyThreshold ≤ tick.last := by
  have observed : s.observe tick.last = { s with
      «open» := tick.last, max := tick.last, min := tick.last, initialized := true } := by
    simp [observe, first]
  rw [observed, buyThreshold, session.k1, FiniteLaws.sub_self _ finite, FiniteLaws.half_zero]
  exact FiniteLaws.add_zero_le _ finite

theorem onTick_flat (session : Session s) (flat : s.position = 0) (finite : Finite tick.last) :
    s.onTick tick =
      (s.observe tick.last).emit tick .BUY .OPEN 1 (s.observe tick.last).initialized := by
  have first : s.initialized = false := by
    rcases session.place with ⟨_, first⟩ | ⟨long, _⟩
    · exact first
    · omega
  unfold onTick
  dsimp only
  rw [if_pos (by rw [observe_position, flat]), if_pos (reaches session first finite)]

theorem onTick_long (long : s.position = 1) :
    s.onTick tick =
      if tick.last < (s.observe tick.last).open then
        (s.observe tick.last).emit tick .SELL .CLOSE 0 false
      else (s.observe tick.last, none) := by
  unfold onTick
  simp [long]

theorem observe_k1 (s : DualThrust F) (last : F) : (s.observe last).k1 = s.k1 := by
  unfold observe
  split <;> rfl

theorem observe_initialized (s : DualThrust F) (last : F) :
    (s.observe last).initialized = true := by
  unfold observe
  split
  · assumption
  · rfl

theorem Session.step (session : Session s) (finite : Finite tick.last) :
    Session (s.onTick tick).1 := by
  rcases session.place with ⟨flat, _⟩ | ⟨long, _⟩
  · rw [onTick_flat session flat finite]
    constructor
    · exact (observe_k1 s _).trans session.k1
    · exact .inr ⟨rfl, observe_initialized s _⟩
  · rw [onTick_long long]
    split
    · constructor
      · exact (observe_k1 s _).trans session.k1
      · exact .inl ⟨rfl, rfl⟩
    · constructor
      · exact (observe_k1 s _).trans session.k1
      · exact .inr ⟨(observe_position s _).trans long, observe_initialized s _⟩

theorem session_run {ticks : List (TickData F)} (finite : ∀ tick ∈ ticks, Finite tick.last) :
    Session (after onTick (fresh : DualThrust F) ticks) := by
  induction ticks using List.reverseRecOn with
  | nil => exact session_fresh
  | append_singleton ticks tick ih =>
    rw [after_snoc]
    have before := ih fun t member => finite t (by simp [member])
    exact before.step (finite tick (by simp))

/-- A position is opened at every first tick of a range and at no other, and it is long. -/
theorem opens_first (ticks : List (TickData F)) (finite : ∀ tick ∈ ticks, Finite tick.last)
    (last : Finite tick.last) :
    let s := after onTick (fresh : DualThrust F) ticks
    if s.initialized then ∀ order ∈ (s.onTick tick).2, order.offset = .CLOSE
    else ∃ order, (s.onTick tick).2 = some order ∧ order.direction = .BUY ∧ order.offset = .OPEN := by
  intro s
  have session : Session s := session_run finite
  rcases session.place with ⟨flat, first⟩ | ⟨long, later⟩
  · rw [if_neg (by simp [first]), onTick_flat session flat last]
    exact ⟨_, rfl, rfl, rfl⟩
  · rw [if_pos later, onTick_long long]
    intro order given
    split at given
    · cases given
      rfl
    · cases given

/-! Breakouts. -/

/-- A position is opened only on a tick that finds a range, above zero. -/
def BreakoutOnly (ticks : List (TickData F)) : Prop :=
  ∀ earlier tick later, ticks = earlier ++ tick :: later →
    let s := after onTick (fresh : DualThrust F) earlier
    ∀ order ∈ (s.onTick tick).2, order.offset = .OPEN →
      s.initialized = true ∧
        Double.zero < (s.observe tick.last).max - (s.observe tick.last).min

theorem first_buys (tick : TickData F) (last : Finite tick.last) :
    ∃ order, (onTick fresh tick).2 = some order ∧ order.direction = .BUY ∧
      order.offset = .OPEN := by
  have opens := opens_first [] (by simp) last
  rwa [if_neg (by simp [after, fresh])] at opens

/-- So the range is looked for in vain wherever there is a tick at all. -/
theorem breakoutOnly_iff {ticks : List (TickData F)}
    (finite : ∀ tick ∈ ticks, Finite tick.last) : BreakoutOnly ticks ↔ ticks = [] := by
  constructor
  · intro only
    cases ticks with
    | nil => rfl
    | cons tick later =>
      obtain ⟨order, given, _, opens⟩ := first_buys tick (finite tick (by simp))
      have ranged := only [] tick later rfl order given opens
      cases ranged.1
  · rintro rfl earlier tick later same
    simp at same

def quote (last : ℚ) : TickData ℚ := { TickData.zero 0 with last }

theorem breakoutOnly_two : ¬ BreakoutOnly [quote 10, quote 12] := by
  intro only
  have empty := (breakoutOnly_iff fun _ _ => trivial).mp only
  cases empty

theorem opened_without_range : ¬ BreakoutOnly [quote 10] := by
  intro only
  obtain ⟨order, given, _, opens⟩ := first_buys (quote 10) trivial
  have ranged := only [] (quote 10) [] rfl order given opens
  cases ranged.1

/-! Long and short. -/

def mirror (c : F) (tick : TickData F) : TickData F := { tick with last := c - tick.last }

def Mirrored (c : F) (ticks : List (TickData F)) : Prop :=
  returned onTick fresh (ticks.map (mirror c)) =
    (returned onTick (fresh : DualThrust F) ticks).map (Option.map fun order =>
      { order with direction := order.direction.opposite })

/-- The first tick of either sequence buys. -/
theorem mirrored_iff {c : F} {ticks : List (TickData F)}
    (finite : ∀ tick ∈ ticks, Finite tick.last ∧ Finite (c - tick.last)) :
    Mirrored c ticks ↔ ticks = [] := by
  constructor
  · intro same
    cases ticks with
    | nil => rfl
    | cons tick later =>
      obtain ⟨last, mirrored⟩ := finite tick (by simp)
      obtain ⟨order, given, buy, _⟩ := first_buys tick last
      obtain ⟨order', given', buy', _⟩ := first_buys (mirror c tick) mirrored
      have heads := congrArg List.head? same
      simp only [returned, List.map_cons, List.head?_cons, given, given', Option.map_some,
        Option.some.injEq] at heads
      rw [heads, buy] at buy'
      cases buy'
  · rintro rfl
    rfl

theorem mirrored_two : ¬ Mirrored 20 [quote 10, quote 12] := by
  intro same
  have empty := (mirrored_iff fun _ _ => ⟨trivial, trivial⟩).mp same
  cases empty

theorem both_buy : ¬ Mirrored 20 [quote 8] := by
  intro same
  have directions := congrArg (List.map (Option.map Order.direction)) same
  revert directions
  decide +kernel

end DualThrust
end FuTrader
