import FuTrader.StraCta.Breakout
import Mathlib.Algebra.Order.Group.Defs
import Mathlib.Algebra.Order.Group.Unbundled.Basic

/- What DualThrust comes to on finite prices: it buys at the first tick, sells at the first
   one below the price it has bought at, and buys again at the next. -/
namespace FuTrader

/-- Bought at a price, or flat. -/
abbrev Entry (F : Type) := Option F

namespace Entry
variable {F : Type} [Double F]

def direction : Entry F → DirectionType
  | none => .BUY
  | some _ => .SELL

def trade (e : Entry F) (tick : TickData F) (offset : OffsetFlagType) : Order where
  stgName := DualThrust.name
  symbol := tick.symbol
  timestamp := tick.stamp
  volume := 1
  direction := e.direction
  offset := offset

def onTick : Entry F → TickData F → Entry F × Option Order
  | none, tick => (some tick.last, some (trade none tick .OPEN))
  | some price, tick =>
    if tick.last < price then (none, some (trade (some price) tick .CLOSE)) else (some price, none)

theorem onTick_below {price : F} {tick : TickData F} (below : tick.last < price) :
    onTick (some price) tick = (none, some (trade (some price) tick .CLOSE)) := if_pos below

theorem onTick_kept {price : F} {tick : TickData F} (kept : ¬ tick.last < price) :
    onTick (some price) tick = (some price, none) := if_neg kept

end Entry

namespace DualThrust
variable {F : Type} [FiniteLaws F] {s : DualThrust F} {tick : TickData F}
open FiniteLaws (Finite)

/-- The strategy is flat, or long since its open price. -/
structure Stops (s : DualThrust F) (e : Entry F) : Prop where
  session : Session s
  lots : s.lots = 1
  name : s.order.stgName = name
  place : match e with
    | none => s.position = 0
    | some price => s.position = 1 ∧ s.open = price

theorem stops_fresh : Stops (fresh : DualThrust F) none := ⟨session_fresh, rfl, rfl, rfl⟩

theorem observe_open (s : DualThrust F) (last : F) :
    (s.observe last).open = if s.initialized then s.open else last := by
  unfold observe
  split <;> rfl

theorem Stops.fill {e : Entry F} (stops : Stops s e) (tick : TickData F) (offset : OffsetFlagType) :
    (s.observe tick.last).fill tick e.direction offset = e.trade tick offset := by
  simp [DualThrust.fill, Entry.trade, stops.lots, stops.name]

theorem Stops.step {e : Entry F} (stops : Stops s e) (finite : Finite tick.last) :
    (s.onTick tick).2 = (e.onTick tick).2 ∧ Stops (s.onTick tick).1 (e.onTick tick).1 := by
  have next := stops.session.step finite
  have fill := stops.fill tick
  have kept := observe_open s tick.last
  cases e with
  | none =>
    have flat : s.position = 0 := stops.place
    have first : s.initialized = false := by
      rcases stops.session.place with ⟨_, first⟩ | ⟨long, _⟩
      · exact first
      · omega
    rw [onTick_flat stops.session flat finite] at next ⊢
    rw [first, if_neg Bool.false_ne_true] at kept
    exact ⟨congrArg some (fill .OPEN), next, (observe_lots s _).trans stops.lots,
      congrArg Order.stgName (fill .OPEN), rfl, kept⟩
  | some price =>
    obtain ⟨long, bought⟩ := stops.place
    have later : s.initialized = true := by
      rcases stops.session.place with ⟨flat, _⟩ | ⟨_, later⟩
      · omega
      · exact later
    rw [later, if_pos rfl, bought] at kept
    rw [onTick_long long, kept] at next ⊢
    by_cases below : tick.last < price
    · rw [Entry.onTick_below below]
      simp only [below, if_true] at next ⊢
      exact ⟨congrArg some (fill .CLOSE), next, (observe_lots s _).trans stops.lots,
        congrArg Order.stgName (fill .CLOSE), rfl⟩
    · rw [Entry.onTick_kept below]
      simp only [below, if_false] at next ⊢
      exact ⟨trivial, next, (observe_lots s _).trans stops.lots,
        (congrArg Order.stgName (observe_order s _)).trans stops.name,
        (observe_position s _).trans long, kept⟩

theorem Stops.run {e : Entry F} (stops : Stops s e) {ticks : List (TickData F)}
    (finite : ∀ tick ∈ ticks, Finite tick.last) :
    returned onTick s ticks = returned Entry.onTick e ticks ∧
      Stops (after onTick s ticks) (after Entry.onTick e ticks) := by
  induction ticks generalizing s e with
  | nil => exact ⟨rfl, stops⟩
  | cons tick ticks ih =>
    obtain ⟨same, next⟩ := stops.step (finite tick (by simp))
    obtain ⟨later, last⟩ := ih next fun t member => finite t (by simp [member])
    exact ⟨by rw [returned, returned, same, later], last⟩

/-- On finite prices, order for order, DualThrust is the rule that buys when it is flat and
    sells at the first price below the one it has bought at. -/
theorem is_stop_loss (ticks : List (TickData F)) (finite : ∀ tick ∈ ticks, Finite tick.last) :
    returned onTick (fresh : DualThrust F) ticks = returned Entry.onTick none ticks :=
  (stops_fresh.run finite).1

theorem is_stop_loss_three :
    (∀ tick ∈ [quote 10, quote 12, quote 9], Finite tick.last) ∧
      returned onTick (@fresh ℚ FiniteLaws.toDouble) [quote 10, quote 12, quote 9] =
        returned Entry.onTick none [quote 10, quote 12, quote 9] :=
  ⟨fun _ _ => trivial, is_stop_loss _ fun _ _ => trivial⟩

end DualThrust

/-! What the trades of the rule come to. -/

section
variable {F K : Type} [AddCommGroup K]

def paid (value : F → K) (tick : TickData F) (given : Option Order) : K :=
  -((given.map Order.signed).getD 0 • value tick.last)

/-- The cash after the orders, each filled at the price of its own tick. -/
def cash (value : F → K) (ticks : List (TickData F)) (orders : List (Option Order)) : K :=
  (List.zipWith (paid value) ticks orders).sum

@[simp] theorem cash_nil (value : F → K) (orders : List (Option Order)) :
    cash value [] orders = 0 := rfl

@[simp] theorem cash_cons (value : F → K) (tick : TickData F) (ticks : List (TickData F))
    (given : Option Order) (orders : List (Option Order)) :
    cash value (tick :: ticks) (given :: orders) =
      paid value tick given + cash value ticks orders := by
  simp [cash]

namespace Entry
variable {value : F → K}

def cost (value : F → K) : Entry F → K
  | none => 0
  | some price => value price

theorem paid_bought (tick : TickData F) (offset : OffsetFlagType) :
    paid value tick (some (trade none tick offset)) = -value tick.last := by
  simp [paid, trade, direction, Order.signed]

theorem paid_sold (price : F) (tick : TickData F) (offset : OffsetFlagType) :
    paid value tick (some (trade (some price) tick offset)) = value tick.last := by
  simp [paid, trade, direction, Order.signed]

@[simp] theorem paid_kept (tick : TickData F) : paid value tick none = 0 := by simp [paid]

variable [Double F] [LinearOrder K] [IsOrderedAddMonoid K] {Finite : F → Prop}

theorem loses (monotone : ∀ x y, Finite x → Finite y → x < y → value x < value y)
    (e : Entry F) (held : ∀ price ∈ e, Finite price) {ticks : List (TickData F)}
    (finite : ∀ tick ∈ ticks, Finite tick.last) :
    cash value ticks (returned onTick e ticks) + cost value (after onTick e ticks) ≤
        cost value e ∧
      (e.isSome → after onTick e ticks = none →
        cash value ticks (returned onTick e ticks) < cost value e) := by
  induction ticks generalizing e with
  | nil =>
    refine ⟨?_, fun long flat => ?_⟩
    · simp [after, returned]
    · rw [show e = none from flat] at long
      cases long
  | cons tick ticks ih =>
    have last := finite tick (by simp)
    have rest := fun t member => finite t (List.mem_cons_of_mem tick member)
    rw [returned, cash_cons, after_cons, add_assoc]
    cases e with
    | none =>
      obtain ⟨most, _⟩ := ih (some tick.last) (by simpa using last) rest
      refine ⟨?_, fun long => by cases long⟩
      rw [onTick, paid_bought]
      exact neg_add_nonpos_iff.mpr most
    | some price =>
      by_cases below : tick.last < price
      · obtain ⟨most, _⟩ := ih none (by simp) rest
        have less := monotone _ _ last (held price rfl) below
        have loss := add_lt_of_lt_of_nonpos less most
        rw [onTick_below below, paid_sold]
        refine ⟨loss.le, fun _ flat => ?_⟩
        rw [flat] at loss
        simpa [cost] using loss
      · rw [onTick_kept below, paid_kept, zero_add, zero_add]
        exact ih (some price) held rest

end Entry

namespace DualThrust
variable [FiniteLaws F] [LinearOrder K] [IsOrderedAddMonoid K]
open FiniteLaws (Finite)

/-- Whatever the prices were, once DualThrust is flat again it has lost money. -/
theorem flat_has_lost (value : F → K)
    (monotone : ∀ x y : F, Finite x → Finite y → x < y → value x < value y)
    {ticks : List (TickData F)} (finite : ∀ tick ∈ ticks, Finite tick.last)
    (traded : ticks ≠ []) (flat : (after onTick (fresh : DualThrust F) ticks).position = 0) :
    cash value ticks (returned onTick (fresh : DualThrust F) ticks) < 0 := by
  obtain ⟨same, last⟩ := stops_fresh.run finite
  rw [same]
  cases ticks with
  | nil => exact absurd rfl traded
  | cons tick ticks =>
    have sold : after Entry.onTick none (tick :: ticks) = none := by
      have place := last.place
      cases ended : after Entry.onTick none (tick :: ticks) with
      | none => rfl
      | some price =>
        rw [ended] at place
        exact absurd (place.1.symm.trans flat) one_ne_zero
    have first := finite tick (by simp)
    have lost := (Entry.loses monotone (some tick.last) (by simpa using first)
      fun t member => finite t (List.mem_cons_of_mem tick member)).2 rfl sold
    rw [returned, cash_cons, Entry.onTick, Entry.paid_bought]
    exact neg_add_neg_iff.mpr lost

theorem flat_has_lost_three :
    cash id [quote 10, quote 12, quote 9]
      (returned onTick (@fresh ℚ FiniteLaws.toDouble) [quote 10, quote 12, quote 9]) < 0 :=
  flat_has_lost id (fun _ _ _ _ less => less) (fun _ _ => trivial) (List.cons_ne_nil _ _) (by
    rw [after]
    decide +kernel)

end DualThrust
end

/-! Two sequences of prices whose prices compare alike. -/

namespace Entry
variable {F G : Type} [Double F] [Double G]

structure Alike (pairs : List (TickData F × TickData G)) : Prop where
  symbol : ∀ p ∈ pairs, p.1.symbol = p.2.symbol
  stamp : ∀ p ∈ pairs, p.1.stamp = p.2.stamp
  ranks : ∀ p ∈ pairs, ∀ q ∈ pairs, p.1.last < q.1.last ↔ p.2.last < q.2.last

inductive Paired (pairs : List (TickData F × TickData G)) : Entry F → Entry G → Prop
  | flat : Paired pairs none none
  | long (q) (bought : q ∈ pairs) : Paired pairs (some q.1.last) (some q.2.last)

theorem Paired.step {pairs : List (TickData F × TickData G)} (alike : Alike pairs) {e : Entry F}
    {e' : Entry G} (paired : Paired pairs e e') {p : TickData F × TickData G} (here : p ∈ pairs) :
    (e.onTick p.1).2 = (e'.onTick p.2).2 ∧ Paired pairs (e.onTick p.1).1 (e'.onTick p.2).1 := by
  have symbol := alike.symbol p here
  have stamp := alike.stamp p here
  cases paired with
  | flat => exact ⟨by simp [onTick, trade, direction, symbol, stamp], .long p here⟩
  | long q bought =>
    have rank := alike.ranks _ here _ bought
    by_cases below : p.1.last < q.1.last
    · rw [onTick_below below, onTick_below (rank.mp below)]
      exact ⟨by simp [trade, direction, symbol, stamp], .flat⟩
    · rw [onTick_kept below, onTick_kept fun less => below (rank.mpr less)]
      exact ⟨rfl, .long q bought⟩

theorem Paired.run {pairs : List (TickData F × TickData G)} (alike : Alike pairs) {e : Entry F}
    {e' : Entry G} (paired : Paired pairs e e') {later : List (TickData F × TickData G)}
    (inside : ∀ p ∈ later, p ∈ pairs) :
    returned onTick e (later.map Prod.fst) = returned onTick e' (later.map Prod.snd) := by
  induction later generalizing e e' with
  | nil => rfl
  | cons p later ih =>
    obtain ⟨same, next⟩ := paired.step alike (inside p (by simp))
    have rest := ih next fun q member => inside q (by simp [member])
    rw [List.map_cons, List.map_cons, returned, returned, same, rest]

end Entry

namespace DualThrust
variable {F G : Type} [FiniteLaws F] [FiniteLaws G]
open FiniteLaws (Finite)

/-- The orders depend on how the prices compare with one another, and on nothing else of
    them. -/
theorem only_ranks {pairs : List (TickData F × TickData G)} (alike : Entry.Alike pairs)
    (left : ∀ p ∈ pairs, Finite p.1.last) (right : ∀ p ∈ pairs, Finite p.2.last) :
    returned onTick (fresh : DualThrust F) (pairs.map Prod.fst) =
      returned onTick (fresh : DualThrust G) (pairs.map Prod.snd) := by
  have first := (stops_fresh (F := F)).run (List.forall_mem_map.mpr left)
  have second := (stops_fresh (F := G)).run (List.forall_mem_map.mpr right)
  rw [first.1, second.1]
  exact Entry.Paired.flat.run alike fun _ member => member

theorem only_ranks_three :
    returned onTick (@fresh ℚ FiniteLaws.toDouble) [quote 10, quote 12, quote 9] =
      returned onTick (@fresh ℚ FiniteLaws.toDouble) [quote 1, quote 100, quote (-5)] := by
  have alike := @Entry.Alike.mk ℚ ℚ FiniteLaws.toDouble FiniteLaws.toDouble
    [(quote 10, quote 1), (quote 12, quote 100), (quote 9, quote (-5))]
    (by decide +kernel) (by decide +kernel) (by decide +kernel)
  exact only_ranks alike (fun _ _ => trivial) fun _ _ => trivial

end DualThrust
end FuTrader
