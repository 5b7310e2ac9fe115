import FuTrader.StraCta.Aberration
import FuTrader.StraCta.DualThrust
import Mathlib.Algebra.BigOperators.Group.List.Basic
import Mathlib.Algebra.Ring.Int.Defs
import Mathlib.Data.List.Forall2
import Mathlib.Data.List.ReduceOption

/- A strategy fed one tick after the other, its orders, and the position that they add up
   to. -/
namespace FuTrader
open DualThrust (Trade)

section
variable {F S : Type} (onTick : S → TickData F → S × Option Order)

def after (s : S) (ticks : List (TickData F)) : S :=
  ticks.foldl (fun s tick => (onTick s tick).1) s

def returned (s : S) : List (TickData F) → List (Option Order)
  | [] => []
  | tick :: ticks => (onTick s tick).2 :: returned (onTick s tick).1 ticks

def orders (s : S) (ticks : List (TickData F)) : List Order := (returned onTick s ticks).reduceOption

theorem after_cons (s : S) (tick : TickData F) (ticks : List (TickData F)) :
    after onTick s (tick :: ticks) = after onTick (onTick s tick).1 ticks := rfl

theorem after_snoc (s : S) (ticks : List (TickData F)) (tick : TickData F) :
    after onTick s (ticks ++ [tick]) = (onTick (after onTick s ticks) tick).1 := by
  simp [after]

theorem returned_snoc (s : S) (ticks : List (TickData F)) (tick : TickData F) :
    returned onTick s (ticks ++ [tick]) =
      returned onTick s ticks ++ [(onTick (after onTick s ticks) tick).2] := by
  induction ticks generalizing s with
  | nil => rfl
  | cons t ticks ih => simp only [List.cons_append, returned, ih, after_cons]

theorem orders_cons (s : S) (tick : TickData F) (ticks : List (TickData F)) :
    orders onTick s (tick :: ticks) =
      (onTick s tick).2.toList ++ orders onTick (onTick s tick).1 ticks := by
  cases given : (onTick s tick).2 with
  | none => simp [orders, returned, given]
  | some order => simp [orders, returned, given]

end

def DirectionType.opposite : DirectionType → DirectionType
  | .BUY => .SELL
  | .SELL => .BUY

/-- BUY counts up, SELL down. -/
def Order.signed (order : Order) : Int :=
  match order.direction with
  | .BUY => order.volume.toNat
  | .SELL => -order.volume.toNat

def net (orders : List Order) : Int := (orders.map Order.signed).sum

/-- OPEN and CLOSE in turn, a CLOSE against the direction of its OPEN. With `some`, a
    position of that direction is open. -/
def InTurn : Option DirectionType → List Order → Prop
  | _, [] => True
  | none, order :: rest => order.offset = .OPEN ∧ InTurn (some order.direction) rest
  | some direction, order :: rest =>
    order.offset = .CLOSE ∧ order.direction = direction.opposite ∧ InTurn none rest

def Carries {F : Type} (tick : TickData F) (order : Option Order) : Prop :=
  ∀ o ∈ order, o.symbol = tick.symbol ∧ o.timestamp = tick.stamp

/-! What the two strategies have in common. -/

/-- A tick is answered by no order, or by one that moves the position. -/
inductive Answer {F : Type} (lots : UInt32) (tick : TickData F) :
    Int → Option Order → Int → Prop where
  | silent (position : Int) : Answer lots tick position none position
  | order {p q : Int} (o : Order) (trade : Trade p o.direction o.offset q)
      (volume : o.volume = lots) (carries : Carries tick (some o)) : Answer lots tick p (some o) q

structure Trader (F S : Type) where
  onTick : S → TickData F → S × Option Order
  position : S → Int
  lots : S → UInt32
  kept : ∀ s tick, lots (onTick s tick).1 = lots s
  answers : ∀ s tick,
    Answer (lots s) tick (position s) (onTick s tick).2 (position (onTick s tick).1)

namespace Trader
variable {F S : Type} (T : Trader F S)

def holding (position : Int) : Option DirectionType :=
  if position = 0 then none else if 0 < position then some .BUY else some .SELL

def Small (position : Int) : Prop := position = -1 ∨ position = 0 ∨ position = 1

theorem after_lots (s : S) (ticks : List (TickData F)) :
    T.lots (after T.onTick s ticks) = T.lots s := by
  induction ticks generalizing s with
  | nil => rfl
  | cons tick ticks ih => rw [after_cons, ih, T.kept]

theorem small_trade {p q : Int} {direction : DirectionType} {offset : OffsetFlagType}
    (trade : Trade p direction offset q) : Small q := by
  cases trade <;> simp [Small]

theorem small_step {s : S} (small : Small (T.position s)) (tick : TickData F) :
    Small (T.position (T.onTick s tick).1) := by
  have answer := T.answers s tick
  generalize (T.onTick s tick).2 = given at answer
  generalize T.position (T.onTick s tick).1 = next at answer
  cases answer with
  | silent => exact small
  | order o trade => exact small_trade trade

theorem small_run {s : S} (small : Small (T.position s)) (ticks : List (TickData F)) :
    Small (T.position (after T.onTick s ticks)) := by
  induction ticks generalizing s with
  | nil => exact small
  | cons tick ticks ih =>
    rw [after_cons]
    exact ih (T.small_step small tick)

theorem net_trade {p q : Int} {o : Order} (small : Small p)
    (trade : Trade p o.direction o.offset q) :
    o.signed = (q - p) * o.volume.toNat := by
  unfold Order.signed
  generalize o.direction = direction at trade
  generalize o.offset = offset at trade
  cases trade with
  | long => simp
  | short => simp
  | sell held =>
    have one : p = 1 := by
      unfold Small at small
      omega
    simp [one]
  | cover held =>
    have one : p = -1 := by
      unfold Small at small
      omega
    simp [one]

theorem net_run {s : S} (small : Small (T.position s)) (ticks : List (TickData F)) :
    net (orders T.onTick s ticks) =
      (T.position (after T.onTick s ticks) - T.position s) * (T.lots s).toNat := by
  induction ticks generalizing s with
  | nil => simp [net, orders, returned, after]
  | cons tick ticks ih =>
    have rest := ih (T.small_step small tick)
    rw [T.kept] at rest
    rw [orders_cons, after_cons, net, List.map_append, List.sum_append, ← net, ← net, rest]
    have answer := T.answers s tick
    generalize (T.onTick s tick).2 = given at answer ⊢
    generalize T.position (T.onTick s tick).1 = next at answer ⊢
    cases answer with
    | silent => simp [net]
    | order o trade volume =>
      have moved := net_trade small trade
      rw [volume] at moved
      simp only [Option.toList_some, net, List.map_singleton, List.sum_singleton, moved]
      rw [← add_mul]
      congr 1
      omega

theorem inTurn_trade {p q : Int} {o : Order} {rest : List Order}
    (trade : Trade p o.direction o.offset q) (later : InTurn (holding q) rest) :
    InTurn (holding p) (o :: rest) := by
  generalize bought : o.direction = direction at trade
  generalize opened : o.offset = offset at trade
  cases trade with
  | long | short => exact ⟨opened, by rwa [bought]⟩
  | sell held =>
    have long : holding p = some .BUY := by simp [holding, held, held.ne']
    rw [long]
    exact ⟨opened, bought, later⟩
  | cover held =>
    have short : holding p = some .SELL := by simp [holding, held.ne, held.le]
    rw [short]
    exact ⟨opened, bought, later⟩

theorem inTurn_run (s : S) (ticks : List (TickData F)) :
    InTurn (holding (T.position s)) (orders T.onTick s ticks) := by
  induction ticks generalizing s with
  | nil => simp [orders, returned, InTurn]
  | cons tick ticks ih =>
    have rest := ih (T.onTick s tick).1
    rw [orders_cons]
    have answer := T.answers s tick
    generalize (T.onTick s tick).2 = given at answer ⊢
    generalize T.position (T.onTick s tick).1 = next at answer rest
    cases answer with
    | silent => exact rest
    | order o trade => exact inTurn_trade trade rest

theorem carries_run (s : S) (ticks : List (TickData F)) :
    List.Forall₂ Carries ticks (returned T.onTick s ticks) := by
  induction ticks generalizing s with
  | nil => exact .nil
  | cons tick ticks ih =>
    apply List.Forall₂.cons ?_ (ih _)
    have answer := T.answers s tick
    generalize (T.onTick s tick).2 = given at answer ⊢
    generalize T.position (T.onTick s tick).1 = next at answer
    cases answer with
    | silent => simp [Carries]
    | order o trade volume carries => exact carries

/-- What is seen of the strategy after a sequence of ticks: its orders come one at most for
    each tick and in turn, carry their ticks, and add up to its position in lots. -/
structure NetsOut (s : S) (ticks : List (TickData F)) : Prop where
  carried : List.Forall₂ Carries ticks (returned T.onTick s ticks)
  inTurn : InTurn none (orders T.onTick s ticks)
  net : net (orders T.onTick s ticks) =
    T.position (after T.onTick s ticks) * (T.lots (after T.onTick s ticks)).toNat
  small : Small (T.position (after T.onTick s ticks))

theorem netsOut {s : S} (flat : T.position s = 0) (ticks : List (TickData F)) :
    T.NetsOut s ticks := by
  have small : Small (T.position s) := .inr (.inl flat)
  constructor
  · exact T.carries_run s ticks
  · have inTurn := T.inTurn_run s ticks
    rwa [flat] at inTurn
  · rw [T.net_run small, flat, T.after_lots, sub_zero]
  · exact T.small_run small ticks

end Trader

/-! The two strategies. -/

section
variable {F : Type} [Double F]

theorem DualThrust.onTick_lots (s : DualThrust F) (tick : TickData F) :
    (s.onTick tick).1.lots = s.lots := by
  unfold onTick
  dsimp only
  split_ifs <;> simp [emit]

theorem DualThrust.onTick_answers (s : DualThrust F) (tick : TickData F) :
    Answer s.lots tick s.position (s.onTick tick).2 (s.onTick tick).1.position := by
  rcases s.onTick_trades tick with ⟨none, same⟩ | ⟨direction, offset, given, trade⟩
  · rw [none, same]
    exact .silent _
  · rw [given]
    apply Answer.order
    · exact trade
    · rfl
    · simp [Carries, fill]

def DualThrust.trader : Trader F (DualThrust F) where
  onTick := DualThrust.onTick
  position := DualThrust.position
  lots := DualThrust.lots
  kept := DualThrust.onTick_lots
  answers := DualThrust.onTick_answers

end

section
variable {F : Type} [CMath F]

theorem Aberration.trade_lots (s : Aberration F) (tick : TickData F) (mean deviation : F) :
    (s.trade tick mean deviation).1.lots = s.lots := by
  unfold trade
  split_ifs <;> rfl

omit [CMath F] in
theorem Aberration.emit_answers {s : Aberration F} {tick : TickData F}
    {direction : DirectionType} {offset : OffsetFlagType} {position : Int}
    (trade : Trade s.position direction offset position) :
    Answer s.lots tick s.position (s.emit tick direction offset position).2
      (s.emit tick direction offset position).1.position := by
  apply Answer.order
  · exact trade
  · rfl
  · simp [Carries, fill]

theorem Aberration.trade_answers (s : Aberration F) (tick : TickData F) (mean deviation : F) :
    Answer s.lots tick s.position (s.trade tick mean deviation).2
      (s.trade tick mean deviation).1.position := by
  unfold trade
  split_ifs with flat above below long covered held
  · exact emit_answers (flat ▸ .long)
  · exact emit_answers (flat ▸ .short)
  · exact .silent _
  · exact emit_answers (.sell long)
  · exact .silent _
  · exact emit_answers (.cover (by omega))
  · exact .silent _

def Aberration.trader : Trader F (Aberration F) where
  onTick := Aberration.onTick
  position := Aberration.position
  lots := Aberration.lots
  kept s tick := by
    rw [Aberration.onTick_rolled, Aberration.trade_lots]
    rfl
  answers s tick := by
    rw [Aberration.onTick_rolled]
    exact (s.rolled tick.last).trade_answers tick _ _

/-- From a fresh object on, either strategy trades in turn, and its position is the net of
    its orders, one lot at most. -/
theorem position_is_net (ticks : List (TickData F)) :
    Aberration.trader.NetsOut Aberration.fresh ticks ∧
      DualThrust.trader.NetsOut DualThrust.fresh ticks := by
  constructor
  · apply Trader.netsOut
    rfl
  · apply Trader.netsOut
    rfl

end
end FuTrader
