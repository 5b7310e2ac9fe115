import FuTrader.Lib.OneEntryCache
import FuTrader.Parser.TimeStamp

/- TimeStampCalculator keeps the days of one date, under the number that sv2int makes of it.
   Dates that are not eight digits may share a number. -/
namespace TickParser
open FuTrader (charArray cString)
open StringParser (sv2int)
open OneEntryCache (Cache Agree)

section
variable (days : Int → UInt32 → UInt32 → Int)

def TimeStampCalculator.cache (s : TimeStampCalculator) : Cache Int Int :=
  ⟨s.cachedDay, s.cachedDayEpoch⟩

variable {F : Type}

def DepthMarketData.stampAlone (t : DepthMarketData F) : Int :=
  (TimeStampCalculator.new.compute days t.actionDay t.updateTime t.updateMillisec).1

def Independent (ticks : List (DepthMarketData F)) : Prop :=
  TimeStampCalculator.new.stamps days ticks = ticks.map (DepthMarketData.stampAlone days)

/-- Two ticks one after the other: with one number, not zero, their dates spell the same
    days; and zero after another number spells 1970-01-01. -/
structure SameDays (a b : DepthMarketData F) : Prop where
  same : dayKey b.actionDay = dayKey a.actionDay → dayKey b.actionDay ≠ 0 →
    spelledDays days b.actionDay = spelledDays days a.actionDay
  zero : dayKey b.actionDay = 0 → dayKey a.actionDay ≠ 0 → spelledDays days b.actionDay = 0

end

section
variable {days : Int → UInt32 → UInt32 → Int} {F : Type}

theorem compute_cache (s : TimeStampCalculator) (t : DepthMarketData F) :
    (s.compute days t.actionDay t.updateTime t.updateMillisec).2.cache =
      s.cache.lookup dayKey (spelledDays days) t.actionDay := by
  unfold TimeStampCalculator.compute
  dsimp only
  change (if dayKey t.actionDay ≠ s.cachedDay then _ else s : TimeStampCalculator).cache = _
  by_cases miss : dayKey t.actionDay ≠ s.cachedDay
  · rw [if_pos miss]
    exact (OneEntryCache.lookup_miss (f := spelledDays days) (c := s.cache) miss).symm
  · rw [if_neg miss]
    exact (OneEntryCache.lookup_hit (c := s.cache) (not_not.mp miss)).symm

theorem compute_stamp (s : TimeStampCalculator) (t : DepthMarketData F) :
    (s.compute days t.actionDay t.updateTime t.updateMillisec).1 =
      86400000 * (s.cache.lookup dayKey (spelledDays days) t.actionDay).value + t.inDay := by
  rw [← compute_cache]
  unfold TimeStampCalculator.compute DepthMarketData.inDay TimeStampCalculator.cache
  dsimp only
  omega

theorem stamps_alone (s : TimeStampCalculator) (ticks : List (DepthMarketData F)) :
    s.stamps days ticks = ticks.map (DepthMarketData.stampAlone days) ↔
      s.cache.values dayKey (spelledDays days) (ticks.map DepthMarketData.actionDay) =
        (ticks.map DepthMarketData.actionDay).map fun a =>
          (TimeStampCalculator.new.cache.lookup dayKey (spelledDays days) a).value := by
  induction ticks generalizing s with
  | nil => simp [TimeStampCalculator.stamps, Cache.values]
  | cons t ticks ih =>
    simp only [TimeStampCalculator.stamps, Cache.values, List.map_cons, List.cons.injEq, ih,
      DepthMarketData.stampAlone, compute_stamp, compute_cache]
    apply and_congr_left
    intro _
    omega

/-- Each stamp is that of a new calculator exactly if this is so for any two ticks one after
    the other. -/
theorem independent_iff (days : Int → UInt32 → UInt32 → Int) (ticks : List (DepthMarketData F)) :
    Independent days ticks ↔ ticks.IsChain (SameDays days) := by
  have agree : ∀ a b : DepthMarketData F,
      Agree dayKey (spelledDays days) TimeStampCalculator.new.cache a.actionDay b.actionDay ↔
        SameDays days a b := by
    intro a b
    exact ⟨fun h => ⟨h.hit, h.back⟩, fun h => ⟨h.same, h.zero⟩⟩
  rw [Independent, stamps_alone, OneEntryCache.values_iff, List.isChain_map]
  simp only [agree]

end

def dayTick (text : List UInt8) : DepthMarketData Int :=
  { tickAt ⟨2025, 5, 18, 9, 0, 0⟩ 0 with actionDay := charArray 9 text }

/-- "202:0518" and "202;0518" spell 2030-05-18 and 2031-05-18, and sv2int reads 202 from both. -/
theorem shared_number :
    ¬ Independent sysDaysOf [dayTick [50, 48, 50, 58, 48, 53, 49, 56],
      dayTick [50, 48, 50, 59, 48, 53, 49, 56]] := by
  unfold Independent
  decide +kernel

/-! Eight digits. -/

structure EightDigits (actionDay : Vector UInt8 9) (n : Nat) : Prop where
  text : ∃ text : List UInt8, text.length = 8 ∧ number text = some n ∧ actionDay = charArray 9 text
  nonzero : n ≠ 0

theorem number_lt {ds : List UInt8} {n : Nat} (value : number ds = some n) :
    n < 10 ^ ds.length := by
  induction ds using List.reverseRecOn generalizing n with
  | nil =>
    obtain rfl : 0 = n := Option.some.inj value
    decide
  | append_singleton ds b ih =>
    obtain ⟨m, d, before, known, rfl⟩ := StringParser.number_snoc_eq_some value
    obtain ⟨_, small⟩ := StringParser.digit_eq_some.mp known
    have earlier := ih before
    rw [List.length_append, List.length_singleton, Nat.pow_succ]
    omega

theorem takeWhile_eq_replicate {α : Type} [DecidableEq α] (x : α) (l : List α) :
    l.takeWhile (· = x) = List.replicate (l.length - (l.dropWhile (· = x)).length) x := by
  apply List.eq_replicate_iff.mpr
  constructor
  · have lengths := congrArg List.length (l.takeWhile_append_dropWhile (p := (· = x)))
    rw [List.length_append] at lengths
    omega
  · intro b member
    have taken := List.mem_takeWhile_imp member
    exact of_decide_eq_true taken

theorem number_eq {ds es : List UInt8} {n : Nat} (left : number ds = some n)
    (right : number es = some n) (length : ds.length = es.length) : ds = es := by
  have stripped := StringParser.number_inj left right
  calc ds = ds.takeWhile (· = 48) ++ ds.dropWhile (· = 48) := List.takeWhile_append_dropWhile.symm
    _ = es.takeWhile (· = 48) ++ es.dropWhile (· = 48) := by
      rw [takeWhile_eq_replicate, takeWhile_eq_replicate, stripped, length]
    _ = es := List.takeWhile_append_dropWhile

theorem EightDigits.dayKey {actionDay : Vector UInt8 9} {n : Nat}
    (digits : EightDigits actionDay n) : dayKey actionDay = n := by
  obtain ⟨text, length, value, rfl⟩ := digits.text
  have nonzero : ∀ b ∈ text, b ≠ 0 := by
    rintro b member rfl
    have digit := StringParser.number_digits value 0 member
    revert digit
    decide
  have nonempty : text ≠ [] := by
    rintro rfl
    cases length
  have small := number_lt value
  rw [length] at small
  have read := StringParser.sv2int_digits nonempty value (by omega)
  rw [TickParser.dayKey, FuTrader.cString_charArray (by omega) nonzero, read]

theorem EightDigits.same {a b : Vector UInt8 9} {n : Nat} (left : EightDigits a n)
    (right : EightDigits b n) : b = a := by
  obtain ⟨text, length, value, rfl⟩ := left.text
  obtain ⟨text', length', value', rfl⟩ := right.text
  rw [number_eq value value' (length.trans length'.symm)]

theorem independent_of_digits {F : Type} (days : Int → UInt32 → UInt32 → Int)
    {ticks : List (DepthMarketData F)} (digits : ∀ t ∈ ticks, ∃ n, EightDigits t.actionDay n) :
    Independent days ticks := by
  apply (independent_iff days ticks).mpr
  apply List.Pairwise.isChain
  apply List.pairwise_of_forall_mem_list
  intro a left b right
  obtain ⟨n, first⟩ := digits a left
  obtain ⟨m, second⟩ := digits b right
  constructor
  · intro same _
    rw [first.dayKey, second.dayKey] at same
    obtain rfl := Int.ofNat.inj same
    rw [first.same second]
  · intro zero
    rw [second.dayKey] at zero
    exact absurd (Int.ofNat.inj zero) second.nonzero

end TickParser
