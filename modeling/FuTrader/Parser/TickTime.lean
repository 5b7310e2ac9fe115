import Mathlib.Algebra.Order.Ring.Int
import Mathlib.Order.Bounds.Basic
import Mathlib.Tactic.Common
import Mathlib.Tactic.IntervalCases

/- str2tp and floor_to_interval: the time of a tick in whole seconds since 1970, and
   the interval it falls into. -/
namespace TickParser

/-! Text to numbers. -/

def digit (b : UInt8) : Option Nat := if 48 ≤ b ∧ b ≤ 57 then some (b.toNat - 48) else none

def number (bytes : List UInt8) : Option Nat :=
  bytes.foldlM (fun n b => (digit b).map fun d => 10 * n + d) 0

structure DateTime where
  year : Nat
  month : Nat
  day : Nat
  hour : Nat
  minute : Nat
  second : Nat
  deriving DecidableEq

def daysInMonth (year month : Nat) : Nat :=
  if month = 2 then
    if year % 4 = 0 ∧ (year % 100 ≠ 0 ∨ year % 400 = 0) then 29 else 28
  else if month = 4 ∨ month = 6 ∨ month = 9 ∨ month = 11 then 30 else 31

abbrev DateTime.Ok (t : DateTime) : Prop :=
  1 ≤ t.month ∧ t.month ≤ 12 ∧ 1 ≤ t.day ∧ t.day ≤ daysInMonth t.year t.month ∧
    t.hour < 24 ∧ t.minute < 60 ∧ t.second < 60

/-- Text in the form `%Y%m%d %H:%M:%S` with every field at its full width, as the callers of
    str2tp write it. from_stream also takes shorter fields. -/
def parseDateTime : List UInt8 → Option DateTime
  | [y1, y2, y3, y4, m1, m2, d1, d2, blank, h1, h2, colon, n1, n2, colon', s1, s2] => do
    let t : DateTime := ⟨← number [y1, y2, y3, y4], ← number [m1, m2], ← number [d1, d2],
      ← number [h1, h2], ← number [n1, n2], ← number [s1, s2]⟩
    if t.Ok ∧ blank = 32 ∧ colon = 58 ∧ colon' = 58 then some t else none
  | _ => none

/-! Days since 1970-01-01, as std::chrono counts them: years begin in March, and 400 of
    them have 146097 days. -/

def sysDays (year month day : Nat) : Int :=
  let y : Int := if month ≤ 2 then year - 1 else year
  let era := y / 400
  let yearOfEra := y - era * 400
  let dayOfYear : Int := (153 * (if month ≤ 2 then month + 9 else month - 3) + 2) / 5 + day - 1
  let dayOfEra := yearOfEra * 365 + yearOfEra / 4 - yearOfEra / 100 + dayOfYear
  era * 146097 + dayOfEra - 719468

def DateTime.seconds (t : DateTime) : Int :=
  86400 * sysDays t.year t.month t.day + 3600 * t.hour + 60 * t.minute + t.second

/-- Text that is no date leaves the time_point at its initial value. -/
def str2tp (text : List UInt8) : Int :=
  match parseDateTime text with
  | some t => t.seconds
  | none => 0

theorem sysDays_nonneg {year month day : Nat} (from1970 : 1970 ≤ year) (low : 1 ≤ month)
    (high : month ≤ 12) (first : 1 ≤ day) : 0 ≤ sysDays year month day := by
  simp only [sysDays]
  split <;> omega

/-! The count starts in 1970 and goes up by one from each day to the next. -/

theorem sysDays_epoch : sysDays 1970 1 1 = 0 := by decide

theorem sysDays_next_day (year month day : Nat) :
    sysDays year month (day + 1) = sysDays year month day + 1 := by
  simp only [sysDays]
  omega

theorem sysDays_next_month {year month : Nat} (low : 1 ≤ month) (high : month < 12) :
    sysDays year (month + 1) 1 = sysDays year month (daysInMonth year month) + 1 := by
  by_cases february : month = 2
  · subst february
    simp only [sysDays, daysInMonth]
    norm_num
    split_ifs <;> omega
  · simp only [sysDays, daysInMonth, february]
    interval_cases month <;> norm_num <;> omega

theorem sysDays_next_year (year : Nat) :
    sysDays (year + 1) 1 1 = sysDays year 12 31 + 1 := by
  simp only [sysDays]
  norm_num
  omega

theorem parseDateTime_ok {text : List UInt8} {t : DateTime} (parsed : parseDateTime text = some t) :
    t.Ok := by
  unfold parseDateTime at parsed
  split at parsed
  · simp only [Option.bind_eq_bind, Option.bind_eq_some_iff] at parsed
    obtain ⟨_, _, _, _, _, _, _, _, _, _, _, _, guarded⟩ := parsed
    split at guarded <;> cases guarded
    rename_i holds
    exact holds.1
  · cases parsed

theorem str2tp_nonneg {text : List UInt8} {t : DateTime} (parsed : parseDateTime text = some t)
    (from1970 : 1970 ≤ t.year) : 0 ≤ str2tp text := by
  obtain ⟨low, high, first, _⟩ := parseDateTime_ok parsed
  have days := sysDays_nonneg from1970 low high first
  simp only [str2tp, parsed, DateTime.seconds]
  omega

/-! Intervals. -/

/-- `tp - tp % interval`, with the remainder of C++. -/
def floorToInterval (tp interval : Int) : Int := tp - tp.tmod interval

theorem floorToInterval_isGreatest {tp interval : Int} (positive : 0 < interval)
    (nonneg : 0 ≤ tp) : IsGreatest {m | interval ∣ m ∧ m ≤ tp} (floorToInterval tp interval) := by
  have rest : tp.tmod interval = tp % interval := Int.tmod_eq_emod_of_nonneg nonneg
  have low := Int.emod_nonneg tp positive.ne'
  have split := Int.mul_ediv_add_emod tp interval
  constructor
  · refine ⟨⟨tp / interval, ?_⟩, ?_⟩
    · rw [floorToInterval, rest]
      omega
    · rw [floorToInterval, rest]
      omega
  · rintro _ ⟨⟨k, rfl⟩, le⟩
    have quotient : k ≤ tp / interval := Int.le_ediv_of_mul_le positive (by rwa [mul_comm])
    have product := Int.mul_le_mul_of_nonneg_left quotient positive.le
    rw [floorToInterval, rest]
    omega

theorem lt_floorToInterval_add {tp interval : Int} (positive : 0 < interval) (nonneg : 0 ≤ tp) :
    tp < floorToInterval tp interval + interval := by
  have rest : tp.tmod interval = tp % interval := Int.tmod_eq_emod_of_nonneg nonneg
  have small := Int.emod_lt_of_pos tp positive
  rw [floorToInterval, rest]
  omega

end TickParser
