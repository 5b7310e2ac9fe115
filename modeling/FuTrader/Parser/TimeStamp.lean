import FuTrader.Parser.BarGenerator
import FuTrader.Parser.StringParser

/- TimeStampCalculator: the time of a tick by the digits of its fields, with the days of
   the latest date kept. -/
namespace TickParser
open FuTrader (charArray cString)
open StringParser (sv2int)

def charDigit (c : UInt8) : Int := c.toInt8.toInt - 48

def charDigits (c d : UInt8) : Int := charDigit c * 10 + charDigit d

structure TimeStampCalculator where
  cachedDayEpoch : Int
  cachedDay : Int

/-- `sys_days{}` is 1970-01-01. -/
def TimeStampCalculator.new : TimeStampCalculator := ⟨0, 0⟩

section
/-! `days` stands for `sys_days{year_month_day{year{y}, month{m}, day{d}}}`. -/
variable (days : Int → UInt32 → UInt32 → Int)

def TimeStampCalculator.compute (s : TimeStampCalculator) (actionDay updateTime : Vector UInt8 9)
    (millisec : Int) : Int × TimeStampCalculator :=
  let day := match sv2int (cString actionDay.toList) with
    | .ok value => value
    | .error _ => 0
  let s :=
    if day ≠ s.cachedDay then
      let y := (1000 : Int) * charDigit actionDay[0] + (100 : Int) * charDigit actionDay[1] +
        charDigits actionDay[2] actionDay[3]
      let m := UInt32.ofInt (charDigits actionDay[4] actionDay[5])
      let d := UInt32.ofInt (charDigits actionDay[6] actionDay[7])
      { cachedDay := day, cachedDayEpoch := days y m d }
    else s
  let h := charDigits updateTime[0] updateTime[1]
  let mi := charDigits updateTime[3] updateTime[4]
  let sec := charDigits updateTime[6] updateTime[7]
  (86400000 * s.cachedDayEpoch + 3600000 * h + 60000 * mi + 1000 * sec + millisec, s)

/-- The days of the date that the characters spell, digits or not. -/
def spelledDays (actionDay : Vector UInt8 9) : Int :=
  days ((1000 : Int) * charDigit actionDay[0] + (100 : Int) * charDigit actionDay[1] +
      charDigits actionDay[2] actionDay[3])
    (UInt32.ofInt (charDigits actionDay[4] actionDay[5]))
    (UInt32.ofInt (charDigits actionDay[6] actionDay[7]))

def TimeStampCalculator.stamps {F : Type} (s : TimeStampCalculator) :
    List (DepthMarketData F) → List Int
  | [] => []
  | t :: ts =>
    (s.compute days t.actionDay t.updateTime t.updateMillisec).1 ::
      stamps (s.compute days t.actionDay t.updateTime t.updateMillisec).2 ts

end

def dayKey (actionDay : Vector UInt8 9) : Int :=
  match sv2int (cString actionDay.toList) with
  | .ok value => value
  | .error _ => 0

def DepthMarketData.inDay {F : Type} (t : DepthMarketData F) : Int :=
  3600000 * charDigits t.updateTime[0] t.updateTime[1] +
    60000 * charDigits t.updateTime[3] t.updateTime[4] +
    1000 * charDigits t.updateTime[6] t.updateTime[7] + t.updateMillisec

/-! Dates and times as they are written. -/

def ascii (d : Nat) : UInt8 := UInt8.ofNat (48 + d % 10)

def twoDigits (n : Nat) : List UInt8 := [ascii (n / 10), ascii n]

def fourDigits (n : Nat) : List UInt8 := [ascii (n / 1000), ascii (n / 100), ascii (n / 10), ascii n]

def DateTime.actionDay (t : DateTime) : Vector UInt8 9 :=
  charArray 9 (fourDigits t.year ++ twoDigits t.month ++ twoDigits t.day)

def DateTime.updateTime (t : DateTime) : Vector UInt8 9 :=
  charArray 9 (twoDigits t.hour ++ [58] ++ twoDigits t.minute ++ [58] ++ twoDigits t.second)

theorem digit_ascii (d : Nat) : digit (ascii d) = some (d % 10) := by
  have low := Nat.mod_lt d (by omega : 0 < 10)
  unfold ascii
  generalize d % 10 = r at low
  decide +revert

theorem charDigit_ascii (d : Nat) : charDigit (ascii d) = (d % 10 : Nat) := by
  have low := Nat.mod_lt d (by omega : 0 < 10)
  unfold ascii
  generalize d % 10 = r at low
  decide +revert

theorem ascii_ne_zero (d : Nat) : ascii d ≠ 0 := by
  have low := Nat.mod_lt d (by omega : 0 < 10)
  unfold ascii
  generalize d % 10 = r at low
  decide +revert

theorem number_ascii (ds : List Nat) :
    number (ds.map ascii) = some (ds.foldl (fun n d => 10 * n + d % 10) 0) := by
  unfold number
  generalize 0 = start
  induction ds generalizing start with
  | nil => rfl
  | cons d ds ih =>
    rw [List.map_cons, List.foldlM_cons, digit_ascii]
    exact ih _

theorem number_two {n : Nat} (small : n < 100) : number (twoDigits n) = some n := by
  have value := number_ascii [n / 10, n]
  simp only [List.foldl] at value
  refine value.trans (congrArg some ?_)
  omega

theorem number_four {n : Nat} (small : n < 10000) : number (fourDigits n) = some n := by
  have value := number_ascii [n / 1000, n / 100, n / 10, n]
  simp only [List.foldl] at value
  refine value.trans (congrArg some ?_)
  omega

/-! A valid date and time with a year of four digits. -/

structure DateTime.Valid (t : DateTime) : Prop where
  ok : t.Ok
  year : t.year < 10000

theorem DateTime.Valid.small {t : DateTime} (valid : t.Valid) :
    t.month < 100 ∧ t.day < 100 ∧ t.hour < 100 ∧ t.minute < 100 ∧ t.second < 100 := by
  obtain ⟨_, month, _, day, hour, minute, second⟩ := valid.ok
  have longest : daysInMonth t.year t.month ≤ 31 := by
    unfold daysInMonth
    split_ifs <;> omega
  omega

def DateTime.dayNumber (t : DateTime) : Nat := t.year * 10000 + t.month * 100 + t.day

theorem cString_actionDay (t : DateTime) : cString t.actionDay.toList =
    fourDigits t.year ++ twoDigits t.month ++ twoDigits t.day := by
  apply FuTrader.cString_charArray
  · exact Nat.le_refl 8 |>.trans (by omega)
  · simp [fourDigits, twoDigits, ascii_ne_zero]

theorem cString_updateTime (t : DateTime) : cString t.updateTime.toList =
    twoDigits t.hour ++ [58] ++ twoDigits t.minute ++ [58] ++ twoDigits t.second := by
  apply FuTrader.cString_charArray
  · exact Nat.le_refl 8 |>.trans (by omega)
  · simp [twoDigits, ascii_ne_zero]

theorem sv2int_actionDay {t : DateTime} (valid : t.Valid) :
    sv2int (cString t.actionDay.toList) = .ok t.dayNumber := by
  obtain ⟨month, day, _⟩ := valid.small
  have year := valid.year
  rw [cString_actionDay]
  apply StringParser.sv2int_digits
  · simp [fourDigits]
  · have value := number_ascii [t.year / 1000, t.year / 100, t.year / 10, t.year, t.month / 10,
      t.month, t.day / 10, t.day]
    simp only [List.foldl] at value
    refine value.trans (congrArg some ?_)
    rw [DateTime.dayNumber]
    omega
  · rw [DateTime.dayNumber]
    omega

theorem parseDateTime_written {t : DateTime} (valid : t.Valid) :
    parseDateTime (cString t.actionDay.toList ++ 32 :: cString t.updateTime.toList) = some t := by
  obtain ⟨month, day, hour, minute, second⟩ := valid.small
  have ok := valid.ok
  have year := number_four valid.year
  have two := number_two month
  have three := number_two day
  have four := number_two hour
  have five := number_two minute
  have six := number_two second
  rw [cString_actionDay, cString_updateTime]
  simp only [fourDigits, twoDigits] at year two three four five six
  simp [parseDateTime, fourDigits, twoDigits, year, two, three, four, five, six, ok]

def TimeStampCalculator.Cached (s : TimeStampCalculator) : Prop :=
  s.cachedDay = 0 ∨ ∃ t : DateTime, t.Valid ∧ s.cachedDay = t.dayNumber ∧
    s.cachedDayEpoch = sysDays t.year t.month t.day

theorem sysDays_dayNumber {t u : DateTime} (valid : t.Valid) (valid' : u.Valid)
    (same : t.dayNumber = u.dayNumber) :
    sysDays t.year t.month t.day = sysDays u.year u.month u.day := by
  obtain ⟨month, day, _⟩ := valid.small
  obtain ⟨month', day', _⟩ := valid'.small
  unfold DateTime.dayNumber at same
  have years : t.year = u.year := by omega
  have months : t.month = u.month := by omega
  have daysOf : t.day = u.day := by omega
  rw [years, months, daysOf]

section
variable {days : Int → UInt32 → UInt32 → Int}

theorem dateDigits (t : DateTime) :
    t.actionDay[0] = ascii (t.year / 1000) ∧ t.actionDay[1] = ascii (t.year / 100) ∧
      t.actionDay[2] = ascii (t.year / 10) ∧ t.actionDay[3] = ascii t.year ∧
      t.actionDay[4] = ascii (t.month / 10) ∧ t.actionDay[5] = ascii t.month ∧
      t.actionDay[6] = ascii (t.day / 10) ∧ t.actionDay[7] = ascii t.day := by
  simp [DateTime.actionDay, charArray, fourDigits, twoDigits]

theorem timeDigits (t : DateTime) :
    t.updateTime[0] = ascii (t.hour / 10) ∧ t.updateTime[1] = ascii t.hour ∧
      t.updateTime[3] = ascii (t.minute / 10) ∧ t.updateTime[4] = ascii t.minute ∧
      t.updateTime[6] = ascii (t.second / 10) ∧ t.updateTime[7] = ascii t.second := by
  simp [DateTime.updateTime, charArray, twoDigits]

theorem charDigits_two {n : Nat} (small : n < 100) :
    charDigits (ascii (n / 10)) (ascii n) = n := by
  rw [charDigits, charDigit_ascii, charDigit_ascii]
  omega

theorem charDigits_four {n : Nat} (small : n < 10000) :
    1000 * charDigit (ascii (n / 1000)) + 100 * charDigit (ascii (n / 100)) +
      charDigits (ascii (n / 10)) (ascii n) = n := by
  simp only [charDigits, charDigit_ascii]
  omega

theorem compute_written (s : TimeStampCalculator) {t : DateTime} (valid : t.Valid)
    (millisec : Int) :
    s.compute days t.actionDay t.updateTime millisec =
      let next : TimeStampCalculator :=
        if (t.dayNumber : Int) ≠ s.cachedDay then
          ⟨days t.year (.ofInt t.month) (.ofInt t.day), t.dayNumber⟩
        else s
      (86400000 * next.cachedDayEpoch + 3600000 * t.hour + 60000 * t.minute + 1000 * t.second +
        millisec, next) := by
  obtain ⟨month, day, hour, minute, second⟩ := valid.small
  obtain ⟨y1, y2, y3, y4, m1, m2, d1, d2⟩ := dateDigits t
  obtain ⟨h1, h2, n1, n2, s1, s2⟩ := timeDigits t
  simp only [TimeStampCalculator.compute, sv2int_actionDay valid, y1, y2, y3, y4, m1, m2, d1, d2,
    h1, h2, n1, n2, s1, s2, charDigits_four valid.year, charDigits_two month, charDigits_two day,
    charDigits_two hour, charDigits_two minute, charDigits_two second]

/-- The conversion of valid dates to days since 1970-01-01. -/
def Calendar (days : Int → UInt32 → UInt32 → Int) : Prop :=
  ∀ t : DateTime, t.Valid → days t.year (.ofInt t.month) (.ofInt t.day) = sysDays t.year t.month t.day

theorem TimeStampCalculator.Cached.compute {s : TimeStampCalculator} (cached : s.Cached)
    (calendar : Calendar days) {t : DateTime} (valid : t.Valid) (millisec : Int) :
    (s.compute days t.actionDay t.updateTime millisec).1 = 1000 * t.seconds + millisec ∧
      (s.compute days t.actionDay t.updateTime millisec).2.Cached := by
  have total : ∀ epoch, epoch = sysDays t.year t.month t.day →
      86400000 * epoch + 3600000 * t.hour + 60000 * t.minute + 1000 * t.second + millisec =
        1000 * t.seconds + millisec := by
    rintro epoch rfl
    rw [DateTime.seconds]
    omega
  rw [compute_written s valid]
  by_cases same : (t.dayNumber : Int) = s.cachedDay
  · have kept : s.cachedDayEpoch = sysDays t.year t.month t.day := by
      rcases cached with never | ⟨u, valid', number, epoch⟩
      · obtain ⟨low, _⟩ := valid.ok
        rw [never, DateTime.dayNumber] at same
        omega
      · rw [epoch]
        exact sysDays_dayNumber valid' valid (by omega)
    simp only [ne_eq, same, not_true_eq_false, if_false]
    exact ⟨total _ kept, cached⟩
  · simp only [ne_eq, same, not_false_eq_true, if_true]
    exact ⟨total _ (calendar t valid), .inr ⟨t, valid, rfl, calendar t valid⟩⟩

variable {F : Type}

/-- The fields of the tick are a valid date and time. -/
structure Written (tick : DepthMarketData F) (t : DateTime) : Prop where
  valid : t.Valid
  actionDay : tick.actionDay = t.actionDay
  updateTime : tick.updateTime = t.updateTime

theorem Written.stampLast {tick : DepthMarketData F} {t : DateTime} (written : Written tick t) :
    tick.stampLast = 1000 * t.seconds + tick.updateMillisec := by
  rw [DepthMarketData.stampLast, DepthMarketData.tpLast, DepthMarketData.dtStr, written.actionDay,
    written.updateTime, str2tp, parseDateTime_written written.valid]

theorem stamps_of_cached (calendar : Calendar days) {s : TimeStampCalculator} (cached : s.Cached)
    {ticks : List (DepthMarketData F)} (written : ∀ tick ∈ ticks, ∃ t, Written tick t) :
    s.stamps days ticks = ticks.map DepthMarketData.stampLast := by
  induction ticks generalizing s with
  | nil => rfl
  | cons tick ticks ih =>
    obtain ⟨t, here⟩ := written tick (by simp)
    obtain ⟨stamp, next⟩ := cached.compute calendar here.valid tick.updateMillisec
    rw [TimeStampCalculator.stamps, here.actionDay, here.updateTime, stamp,
      ih next fun u member => written u (by simp [member]), List.map_cons, here.stampLast]

/-- Whatever days come one after the other, the digits give the time that str2tp gives. -/
theorem fast_path_agrees (calendar : Calendar days) {ticks : List (DepthMarketData F)}
    (written : ∀ tick ∈ ticks, ∃ t, Written tick t) :
    TimeStampCalculator.new.stamps days ticks = ticks.map DepthMarketData.stampLast ∧
      ∀ tick ∈ ticks, ∀ t, Written tick t →
        tick.stampLast = 1000 * t.seconds + tick.updateMillisec :=
  ⟨stamps_of_cached calendar (.inl rfl) written, fun _ _ _ here => here.stampLast⟩

end

theorem toNat_ofInt {n : Nat} (small : n < 100) : (UInt32.ofInt n).toNat = n := by
  have same : ((n : Int) % 2 ^ 32).toNat = n := by omega
  rw [UInt32.ofInt, same, UInt32.toNat_ofNat_of_lt']
  exact Nat.lt_trans small (by decide)

def sysDaysOf (y : Int) (m d : UInt32) : Int := sysDays y.toNat m.toNat d.toNat

theorem calendar_sysDays : Calendar sysDaysOf := by
  intro t valid
  obtain ⟨month, day, _⟩ := valid.small
  rw [sysDaysOf, toNat_ofInt month, toNat_ofInt day, Int.toNat_natCast]

def tickAt (t : DateTime) (millisec : Int) : DepthMarketData Int where
  instrumentID := charArray 81 [114, 98, 50, 53, 49, 48]
  actionDay := t.actionDay
  updateTime := t.updateTime
  updateMillisec := millisec
  lastPrice := 0
  volume := 0
  turnover := 0
  openInterest := 0

def thereAndBack : List (DepthMarketData Int) := [
  tickAt ⟨2025, 5, 18, 23, 59, 59⟩ 500, tickAt ⟨2025, 5, 19, 0, 0, 0⟩ 0,
  tickAt ⟨2025, 5, 18, 21, 0, 1⟩ 250]

theorem tickAt_written {t : DateTime} (valid : t.Valid) (millisec : Int) :
    ∃ u, Written (tickAt t millisec) u := ⟨t, valid, rfl, rfl⟩

theorem thereAndBack_stamps : TimeStampCalculator.new.stamps sysDaysOf thereAndBack =
    [1747612799500, 1747612800000, 1747602001250] := by
  have written : ∀ tick ∈ thereAndBack, ∃ t, Written tick t := by
    simp only [thereAndBack, List.forall_mem_cons]
    constructor
    · exact tickAt_written ⟨by decide, by decide⟩ 500
    · constructor
      · exact tickAt_written ⟨by decide, by decide⟩ 0
      · constructor
        · exact tickAt_written ⟨by decide, by decide⟩ 250
        · simp
  rw [(fast_path_agrees calendar_sysDays written).1]
  decide +kernel

end TickParser
