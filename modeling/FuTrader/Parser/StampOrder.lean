import FuTrader.Parser.TimeStamp

/- The stamps of TimeStampCalculator come in the order of the dates and times that are written
   in the ticks: by the date, then by the time of day, then by the milliseconds. -/
namespace TickParser
variable {F : Type}

/-! The days of a year follow one another, and so do the years. -/

theorem sysDays_first (year month day : Nat) :
    sysDays year month day = sysDays year month 1 + day - 1 := by
  simp only [sysDays]
  omega

theorem sysDays_month (year : Nat) {month : Nat} (low : 1 ≤ month) (high : month < 12) :
    sysDays year (month + 1) 1 = sysDays year month 1 + daysInMonth year month := by
  rw [sysDays_next_month low high, sysDays_first year month (daysInMonth year month)]
  omega

theorem sysDays_year (year : Nat) : sysDays (year + 1) 1 1 = sysDays year 12 1 + 31 := by
  rw [sysDays_next_year, sysDays_first year 12 31]
  omega

theorem month_over (year : Nat) {month : Nat} (low : 1 ≤ month) (n : Nat) (high : month + n < 12) :
    sysDays year month 1 + daysInMonth year month ≤ sysDays year (month + n + 1) 1 := by
  induction n with
  | zero => exact (sysDays_month year low high).ge
  | succ n ih =>
    have later : 1 ≤ month + n + 1 := by omega
    have next := sysDays_month year later high
    have before := ih (by omega)
    rw [show month + (n + 1) + 1 = month + n + 1 + 1 from rfl, next]
    omega

theorem year_over (year n : Nat) : sysDays year 12 1 + 31 ≤ sysDays (year + n + 1) 1 1 := by
  induction n with
  | zero => exact (sysDays_year year).ge
  | succ n ih =>
    have next := sysDays_year (year + n + 1)
    have within : sysDays (year + n + 1) 1 1 + daysInMonth (year + n + 1) 1 ≤
        sysDays (year + n + 1) 12 1 := month_over _ (Nat.le_refl 1) 10 (by decide)
    rw [show year + (n + 1) + 1 = year + n + 1 + 1 from rfl, next]
    omega

theorem month_within (year : Nat) {month : Nat} (low : 1 ≤ month) (high : month ≤ 12) :
    sysDays year 1 1 ≤ sysDays year month 1 ∧
      sysDays year month 1 + daysInMonth year month ≤ sysDays year 12 1 + 31 := by
  constructor
  · rcases Nat.eq_or_lt_of_le low with january | later
    · rw [← january]
    · obtain ⟨n, rfl⟩ := Nat.exists_eq_add_of_lt later
      have begun := month_over year (Nat.le_refl 1) n (by omega)
      omega
  · rcases Nat.eq_or_lt_of_le high with december | earlier
    · subst december
      simp [daysInMonth]
    · obtain ⟨n, december⟩ := Nat.exists_eq_add_of_lt earlier
      have passed := month_over year low n (by omega)
      rw [← december] at passed
      omega

theorem sysDays_lt {t u : DateTime} (valid : t.Ok) (valid' : u.Ok)
    (later : [t.year, t.month, t.day] < [u.year, u.month, u.day]) :
    sysDays t.year t.month t.day < sysDays u.year u.month u.day := by
  obtain ⟨low, high, first, last, _⟩ := valid
  obtain ⟨low', high', first', last', _⟩ := valid'
  simp only [List.cons_lt_cons_iff, List.not_lt_nil, and_false, or_false] at later
  rw [sysDays_first t.year, sysDays_first u.year]
  rcases later with years | ⟨same, months | ⟨same', days⟩⟩
  · obtain ⟨n, next⟩ := Nat.exists_eq_add_of_lt years
    have passed := year_over t.year n
    have within := (month_within t.year low high).2
    have within' := (month_within u.year low' high').1
    rw [← next] at passed
    omega
  · obtain ⟨n, next⟩ := Nat.exists_eq_add_of_lt months
    have passed := month_over t.year low n (by omega)
    rw [← next] at passed
    rw [← same]
    omega
  · rw [← same, ← same']
    omega

/-- What a date, a time and the milliseconds say, from the largest unit to the smallest. -/
def DateTime.reading (t : DateTime) (millisec : Int) : List Int :=
  [t.year, t.month, t.day, t.hour, t.minute, t.second, millisec]

abbrev PartOfSecond (millisec : Int) : Prop := 0 ≤ millisec ∧ millisec < 1000

theorem seconds_lt {t u : DateTime} (valid : t.Ok) (valid' : u.Ok) {m m' : Int}
    (part : PartOfSecond m) (part' : PartOfSecond m') (later : t.reading m < u.reading m') :
    1000 * t.seconds + m < 1000 * u.seconds + m' := by
  have days := sysDays_lt valid valid'
  obtain ⟨_, _, _, _, hour, minute, second⟩ := valid
  obtain ⟨_, _, _, _, hour', minute', second'⟩ := valid'
  obtain ⟨part, part_lt⟩ := part
  obtain ⟨part', part_lt'⟩ := part'
  by_cases earlier : [t.year, t.month, t.day] < [u.year, u.month, u.day]
  · have less := days earlier
    simp only [DateTime.seconds]
    omega
  · -- the dates are the same, and the time decides
    simp only [DateTime.reading, List.cons_lt_cons_iff, List.not_lt_nil, and_false, or_false,
      Int.ofNat_lt, Int.ofNat_inj] at later earlier
    have years : t.year = u.year := by omega
    have months : t.month = u.month := by omega
    have daysOf : t.day = u.day := by omega
    simp only [DateTime.seconds, years, months, daysOf]
    omega

theorem seconds_lt_iff {t u : DateTime} (valid : t.Ok) (valid' : u.Ok) {m m' : Int}
    (part : PartOfSecond m) (part' : PartOfSecond m') :
    1000 * t.seconds + m < 1000 * u.seconds + m' ↔ t.reading m < u.reading m' := by
  constructor
  · intro less
    by_contra notEarlier
    rcases List.le_iff_lt_or_eq.mp (List.not_lt.mp notEarlier) with later | same
    · have greater := seconds_lt valid' valid part' part later
      omega
    · simp only [DateTime.reading, List.cons.injEq, Int.ofNat_inj, and_true] at same
      obtain ⟨years, months, days, hours, minutes, seconds, rfl⟩ := same
      simp only [DateTime.seconds, years, months, days, hours, minutes, seconds] at less
      omega
  · exact seconds_lt valid valid' part part'

section
variable {days : Int → UInt32 → UInt32 → Int}

/-- Whatever dates come one after the other, the stamps of any two ticks compare as what is
    written in them. -/
theorem stamps_read_in_order (calendar : Calendar days) {ticks : List (DepthMarketData F)}
    (written : ∀ tick ∈ ticks, (∃ t, Written tick t) ∧ PartOfSecond tick.updateMillisec)
    {i j : Nat} {a b : DepthMarketData F} {t u : DateTime} (one : ticks[i]? = some a)
    (other : ticks[j]? = some b) (first : Written a t) (second : Written b u) :
    ∃ x y, (TimeStampCalculator.new.stamps days ticks)[i]? = some x ∧
      (TimeStampCalculator.new.stamps days ticks)[j]? = some y ∧
        (x < y ↔ t.reading a.updateMillisec < u.reading b.updateMillisec) := by
  have stamps := stamps_of_cached calendar (s := .new) (.inl rfl) fun tick member =>
    (written tick member).1
  have part := (written a (List.mem_of_getElem? one)).2
  have part' := (written b (List.mem_of_getElem? other)).2
  refine ⟨a.stampLast, b.stampLast, ?_, ?_, ?_⟩
  · rw [stamps, List.getElem?_map, one, Option.map_some]
  · rw [stamps, List.getElem?_map, other, Option.map_some]
  · rw [first.stampLast, second.stampLast]
    exact seconds_lt_iff first.valid.ok second.valid.ok part part'

end

theorem thereAndBack_in_order : ∃ x y,
    (TimeStampCalculator.new.stamps sysDaysOf thereAndBack)[1]? = some x ∧
      (TimeStampCalculator.new.stamps sysDaysOf thereAndBack)[2]? = some y ∧
        (x < y ↔ DateTime.reading ⟨2025, 5, 19, 0, 0, 0⟩ 0 <
          DateTime.reading ⟨2025, 5, 18, 21, 0, 1⟩ 250) := by
  have written : ∀ tick ∈ thereAndBack,
      (∃ t, Written tick t) ∧ PartOfSecond tick.updateMillisec := by
    simp only [thereAndBack, List.forall_mem_cons]
    refine ⟨⟨tickAt_written ⟨by decide, by decide⟩ 500, by decide⟩,
      ⟨tickAt_written ⟨by decide, by decide⟩ 0, by decide⟩,
      ⟨tickAt_written ⟨by decide, by decide⟩ 250, by decide⟩, by simp⟩
  have first : Written (tickAt ⟨2025, 5, 19, 0, 0, 0⟩ 0) ⟨2025, 5, 19, 0, 0, 0⟩ :=
    ⟨⟨by decide, by decide⟩, rfl, rfl⟩
  have second : Written (tickAt ⟨2025, 5, 18, 21, 0, 1⟩ 250) ⟨2025, 5, 18, 21, 0, 1⟩ :=
    ⟨⟨by decide, by decide⟩, rfl, rfl⟩
  exact stamps_read_in_order calendar_sysDays written rfl rfl first second

end TickParser
