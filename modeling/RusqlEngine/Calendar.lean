import RusqlEngine.DecimalSum
import RusqlEngine.Library.Gregorian

/-!
# Dates and days

A date is turned into a day number and back by counting eras of four hundred years that start in
March. The arithmetic is that of 64-bit integers, where a step that overflows has no result; behind
the era the numbers are below 146097, and their steps are not checked here.
-/

namespace RusqlEngine.SqlVal

open Gregorian NumericText

def isLeap (y : ℤ) : Bool :=
  (y.tmod 4 = 0 ∧ y.tmod 100 ≠ 0) ∨ y.tmod 400 = 0

/-- `days_in_month`, for a month from 1 to 12. -/
def daysInMonth (y m : ℤ) : ℤ :=
  if m = 2 ∧ isLeap y then 29
  else [31, 28, 31, 30, 31, 30, 31, 31, 30, 31, 30, 31].getD (m - 1).toNat 0

/-- The era of a year or a day, `(n >= 0 ? n : n - (width - 1)) / width`. -/
def eraOf (n width : ℤ) : Option ℤ :=
  (if 0 ≤ n then some n else int64Of (n - (width - 1))).map fun first => first.tdiv width

/-- `days_from_civil`, for a day of a month. -/
def daysFromCivil (y m d : ℤ) : Option ℤ := do
  let y ← int64Of (y - if m ≤ 2 then 1 else 0)
  let era ← eraOf y 400
  let yoe := y - era * 400
  let doy := (153 * (m + if 2 < m then -3 else 9) + 2).tdiv 5 + d - 1
  let doe := yoe * 365 + yoe.tdiv 4 - yoe.tdiv 100 + doy
  let eras ← int64Of (era * 146097)
  let days ← int64Of (eras + doe)
  int64Of (days - 719468)

/-- What `civil_from_days` gives. -/
structure CivilDate where
  year : ℤ
  month : ℤ
  day : ℤ
deriving DecidableEq

def civilFromDays (z : ℤ) : Option CivilDate := do
  let z ← int64Of (z + 719468)
  let era ← eraOf z 146097
  let eras ← int64Of (era * 146097)
  let doe := z - eras
  let yoe := (doe - doe.tdiv 1460 + doe.tdiv 36524 - doe.tdiv 146096).tdiv 365
  let y := yoe + era * 400
  let doy := doe - (365 * yoe + yoe.tdiv 4 - yoe.tdiv 100)
  let mp := (5 * doy + 2).tdiv 153
  let d := doy - (153 * mp + 2).tdiv 5 + 1
  let m := if mp < 10 then mp + 3 else mp - 9
  some ⟨y + if m ≤ 2 then 1 else 0, m, d⟩

structure DateTime where
  year : ℤ
  month : ℤ
  day : ℤ
  hour : ℤ
  minute : ℤ
  second : ℤ
  micro : ℤ
  hasDate : Bool
  hasTime : Bool
deriving DecidableEq

namespace DateTime

def epochDays (t : DateTime) : Option ℤ :=
  daysFromCivil t.year t.month t.day

/-- `epoch_seconds`; the hours, minutes and seconds are ints. -/
def epochSeconds (t : DateTime) : Option ℤ := do
  let days ← t.epochDays
  let seconds ← int64Of (days * 86400)
  let seconds ← int64Of (seconds + t.hour * 3600)
  let seconds ← int64Of (seconds + t.minute * 60)
  int64Of (seconds + t.second)

/-- The day of a second. -/
def daysOfSeconds (s : ℤ) : Option ℤ :=
  if 0 ≤ s then some (s.tdiv 86400)
  else (int64Of (-s)).bind fun s => (int64Of (s + 86399)).map fun s => -s.tdiv 86400

def fromEpochSeconds (s micro : ℤ) : Option DateTime := do
  let days ← daysOfSeconds s
  let rest := s - days * 86400
  let date ← civilFromDays days
  some
    { year := date.year
      month := date.month
      day := date.day
      hour := rest.tdiv 3600
      minute := (rest.tmod 3600).tdiv 60
      second := rest.tmod 60
      micro := micro
      hasDate := true
      hasTime := true }

def validDate (t : DateTime) : Bool :=
  0 ≤ t.year ∧ t.year ≤ 9999 ∧ 1 ≤ t.month ∧ t.month ≤ 12 ∧ 1 ≤ t.day ∧
    t.day ≤ daysInMonth t.year t.month

/-- A time of the day. -/
structure ValidTime (t : DateTime) : Prop where
  hour : 0 ≤ t.hour ∧ t.hour ≤ 23
  minute : 0 ≤ t.minute ∧ t.minute ≤ 59
  second : 0 ≤ t.second ∧ t.second ≤ 59

end DateTime

/-! ### Leap years and months -/

theorem isLeap_iff (y : ℤ) : isLeap y ↔ Leap y := by
  have hmod (n : ℤ) : y.tmod n = 0 ↔ y % n = 0 := by
    rw [← Int.dvd_iff_tmod_eq_zero, Int.dvd_iff_emod_eq_zero]
  rw [isLeap, decide_eq_true_iff, Leap, hmod, hmod, ne_eq, ne_eq, hmod]

theorem daysInMonth_eq (y : ℤ) {m : ℤ} (h : 1 ≤ m ∧ m ≤ 12) :
    daysInMonth y m = monthLength y m := by
  obtain ⟨h, h'⟩ := h
  rw [daysInMonth, monthLength]
  simp only [isLeap_iff]
  interval_cases m <;> first | rfl | (split_ifs <;> simp_all)

/-! ### Dates and day numbers -/

section

variable {β : Type*}

/-- The date as `civil_from_days` gives it. -/
def civil (t : Date) : CivilDate :=
  ⟨t.year, t.month, t.day⟩

/-- The date of a day of a year that starts in March. -/
def civilOfMarch (y day : ℤ) : CivilDate where
  year := if monthOf day < 10 then y else y + 1
  month := if monthOf day < 10 then monthOf day + 3
    else monthOf day - 9
  day := day - monthStart (monthOf day) + 1

/-- The day numbers that `civil_from_days` takes. -/
def Admitted (z : ℤ) : Prop :=
  int64Min ≤ z ∧ z ≤ int64Max - 719468

theorem ediv_neg_add {n w : ℤ} (hw : 0 < w) : (-n + (w - 1)) / w = -(n / w) := by
  have hsplit := Int.mul_ediv_add_emod n w
  have hlo := Int.emod_nonneg n hw.ne'
  have hhi := Int.emod_lt_of_pos n hw
  have hparts : -n + (w - 1) = w - 1 - n % w + w * -(n / w) := by
    rw [mul_neg]
    omega
  rw [hparts, Int.add_mul_ediv_left _ _ hw.ne', Int.ediv_eq_zero_of_lt (by omega) (by omega),
    zero_add]

theorem tdiv_era {n w : ℤ} (hn : n < 0) (hw : 0 < w) : (n - (w - 1)).tdiv w = n / w := by
  have hneg : n - (w - 1) = -(-n + (w - 1)) := by ring
  rw [hneg, Int.neg_tdiv, Int.tdiv_eq_ediv_of_nonneg (by omega), ediv_neg_add hw, neg_neg]

theorem yearStart_of_era {y : ℤ} (h : 0 ≤ y) (h' : y < 400) :
    365 * y + y.tdiv 4 - y.tdiv 100 = yearStart y := by
  rw [Int.tdiv_eq_ediv_of_nonneg h, Int.tdiv_eq_ediv_of_nonneg h, yearStart]
  omega

theorem dayOfYear_eq (t : Date) :
    (153 * (t.month + if 2 < t.month then -3 else 9) + 2).tdiv 5 + t.day - 1 = t.dayOfYear := by
  have hmonth := t.month_mem
  rw [Date.dayOfYear, marchMonth, monthStart]
  split_ifs with h h'
  · omega
  · rw [Int.tdiv_eq_ediv_of_nonneg (by omega)]
    omega
  · rw [Int.tdiv_eq_ediv_of_nonneg (by omega)]
    omega
  · omega

theorem bind_int64Of {n : ℤ} {f : ℤ → Option β} {r : β} :
    (int64Of n).bind f = some r ↔ inInt64 n ∧ f n = some r := by
  rw [Option.bind_eq_some_iff]
  constructor
  · rintro ⟨m, hm, hf⟩
    obtain ⟨hn, rfl⟩ := int64Of_eq_some.mp hm
    exact ⟨hn, hf⟩
  · rintro ⟨hn, hf⟩
    exact ⟨n, int64Of_of_in hn, hf⟩

theorem bind_eraOf {n w : ℤ} (hw : 0 < w) {f : ℤ → Option β} {r : β} :
    (eraOf n w).bind f = some r ↔ (0 ≤ n ∨ inInt64 (n - (w - 1))) ∧ f (n / w) = some r := by
  rw [eraOf]
  by_cases hn : 0 ≤ n
  · rw [if_pos hn, Option.map_some, Option.bind_some, Int.tdiv_eq_ediv_of_nonneg hn]
    simp only [hn, true_or, true_and]
  · rw [if_neg hn, Option.bind_map, bind_int64Of, Function.comp_apply, tdiv_era (not_le.mp hn) hw]
    simp only [hn, false_or]

theorem daysFromCivil_eq_some_iff (t : Date) {z : ℤ} :
    daysFromCivil t.year t.month t.day = some z ↔ t.dayNumber = z + 719468 ∧ Admitted z := by
  have hyear : t.year - (if t.month ≤ 2 then 1 else 0) = t.marchYear := by
    rw [Date.marchYear]
    split_ifs
    · rfl
    · exact sub_zero _
  have hlength := t.dayOfYear_lt
  have hnonneg := t.dayOfYear_nonneg
  have hnumber : t.dayNumber = yearStart t.marchYear + t.dayOfYear := rfl
  rw [daysFromCivil, hyear, dayOfYear_eq]
  generalize t.marchYear = y at hlength hnumber
  -- the year of the era, and the day of the era
  have hyoe : 0 ≤ y - y / 400 * 400 ∧ y - y / 400 * 400 < 400 := by omega
  have hera (k : ℤ) : yearStart (y + k) =
      y / 400 * 146097 + yearStart (y - y / 400 * 400 + k) := by
    rw [← yearStart_add_eras]
    congr 1
    omega
  have hthis := hera 0
  have hnext := hera 1
  have hfirst := yearStart_mono hyoe.1
  have hlast := yearStart_mono (by omega : y - y / 400 * 400 + 1 ≤ 400)
  have hzero : yearStart 0 = 0 := rfl
  have hcycle : yearStart 400 = 146097 := rfl
  have hdoe : (y - y / 400 * 400) * 365 + (y - y / 400 * 400).tdiv 4 -
      (y - y / 400 * 400).tdiv 100 = yearStart (y - y / 400 * 400) := by
    rw [← yearStart_of_era hyoe.1 hyoe.2]
    ring
  rw [add_zero, add_zero] at hthis
  simp only [Option.bind_eq_bind, bind_int64Of, bind_eraOf (by decide : (0 : ℤ) < 400), hdoe,
    int64Of_eq_some, Admitted, inInt64, int64Min, int64Max]
  generalize yearStart (y - y / 400 * 400) = start at *
  generalize yearStart (y - y / 400 * 400 + 1) = stop at *
  constructor
  · rintro ⟨-, -, -, hdays, hrange, rfl⟩
    omega
  · rintro ⟨hz, hlo, hhi⟩
    refine ⟨?_, ?_, ?_, ?_, ?_, ?_⟩ <;> omega

theorem civilFromDays_eq {z : ℤ} (h : Admitted z) :
    ∃ t : Date, civilFromDays z = some (civil t) ∧ t.dayNumber = z + 719468 := by
  obtain ⟨hlo, hhi⟩ := h
  have hdoe : 0 ≤ z + 719468 - (z + 719468) / 146097 * 146097 ∧
      z + 719468 - (z + 719468) / 146097 * 146097 < 146097 := by omega
  obtain ⟨⟨hyear, hyear'⟩, hfirst, hlast⟩ := yearOfEra_spec hdoe.1 hdoe.2
  set era := (z + 719468) / 146097 with hera
  set doe := z + 719468 - era * 146097 with hdoe'
  set yoe := yearOfEra doe with hyoe
  have heras (k : ℤ) := yearStart_add_eras era (yoe + k)
  have hday : 0 ≤ doe - yearStart yoe := by omega
  have hday' : doe - yearStart yoe <
      yearStart (era * 400 + yoe + 1) - yearStart (era * 400 + yoe) := by
    have hthis := heras 0
    have hnext := heras 1
    rw [add_zero] at hthis
    rw [← add_assoc] at hnext
    omega
  have hformula : (doe - doe.tdiv 1460 + doe.tdiv 36524 - doe.tdiv 146096).tdiv 365 = yoe := by
    rw [Int.tdiv_eq_ediv_of_nonneg hdoe.1, Int.tdiv_eq_ediv_of_nonneg hdoe.1,
      Int.tdiv_eq_ediv_of_nonneg hdoe.1, Int.tdiv_eq_ediv_of_nonneg (by omega), hyoe,
      yearOfEra]
  have hmonth : (5 * (doe - yearStart yoe) + 2).tdiv 153 =
      monthOf (doe - yearStart yoe) := by
    rw [Int.tdiv_eq_ediv_of_nonneg (by omega), monthOf]
  have hmonths := Date.monthOf_mem hday hday'
  refine ⟨Date.ofMarch (era * 400 + yoe) (doe - yearStart yoe) hday hday', ?_, ?_⟩
  · simp only [civilFromDays, Option.bind_eq_bind, bind_int64Of,
      bind_eraOf (by decide : (0 : ℤ) < 146097), ← hera, ← hdoe', hformula,
      yearStart_of_era hyear hyear', hmonth]
    rw [int64Min] at hlo
    rw [int64Max] at hhi
    refine ⟨⟨by omega, by omega⟩, ?_, ⟨by omega, by omega⟩, ?_⟩
    · rw [inInt64]
      omega
    · have hcivil : civil (Date.ofMarch (era * 400 + yoe) (doe - yearStart yoe) hday
          hday') = civilOfMarch (era * 400 + yoe) (doe - yearStart yoe) := rfl
      rw [hcivil, civilOfMarch, monthStart]
      generalize monthOf (doe - yearStart yoe) = mp at hmonths
      rw [Int.tdiv_eq_ediv_of_nonneg (by omega : 0 ≤ 153 * mp + 2), Option.some.injEq,
        CivilDate.mk.injEq]
      split_ifs <;> omega
  · have hthis := heras 0
    rw [add_zero] at hthis
    rw [Date.dayNumber_ofMarch, hthis]
    omega

theorem civilFromDays_dayNumber {t : Date} {z : ℤ} (h : t.dayNumber = z + 719468)
    (hz : Admitted z) : civilFromDays z = some (civil t) := by
  obtain ⟨u, hu, hnumber⟩ := civilFromDays_eq hz
  rw [hu, Date.dayNumber_injective (hnumber.trans h.symm)]

end

/-! ### Seconds -/

theorem daysOfSeconds_eq {s : ℤ} (h : int64Min + 86400 ≤ s) (h' : s ≤ int64Max) :
    DateTime.daysOfSeconds s = some (s / 86400) := by
  rw [int64Min] at h
  rw [int64Max] at h'
  rw [DateTime.daysOfSeconds]
  by_cases hs : 0 ≤ s
  · rw [if_pos hs, Int.tdiv_eq_ediv_of_nonneg hs]
  · have hneg : inInt64 (-s) := ⟨by omega, by omega⟩
    have hup : inInt64 (-s + 86399) := ⟨by omega, by omega⟩
    have hceil := ediv_neg_add (n := s) (by decide : (0 : ℤ) < 86400)
    rw [if_neg hs, int64Of_of_in hneg, Option.bind_some, int64Of_of_in hup, Option.map_some,
      Int.tdiv_eq_ediv_of_nonneg (by omega)]
    exact congrArg some (neg_eq_iff_eq_neg.mpr hceil)

theorem fromEpochSeconds_eq {s micro : ℤ} {t : Date} (h : int64Min + 86400 ≤ s)
    (h' : s ≤ int64Max) (ht : t.dayNumber = s / 86400 + 719468) :
    DateTime.fromEpochSeconds s micro = some
      { year := t.year
        month := t.month
        day := t.day
        hour := s % 86400 / 3600
        minute := s % 86400 % 3600 / 60
        second := s % 86400 % 60
        micro := micro
        hasDate := true
        hasTime := true } := by
  have hz : Admitted (s / 86400) := by
    rw [Admitted]
    rw [int64Min] at h ⊢
    rw [int64Max] at h' ⊢
    omega
  have hrest : s - s / 86400 * 86400 = s % 86400 := by omega
  have hnonneg : 0 ≤ s % 86400 := Int.emod_nonneg s (by decide)
  rw [DateTime.fromEpochSeconds, daysOfSeconds_eq h h']
  simp only [Option.bind_eq_bind, Option.bind_some, civilFromDays_dayNumber ht hz, civil, hrest,
    Int.tdiv_eq_ediv_of_nonneg hnonneg, Int.tmod_eq_emod_of_nonneg hnonneg,
    Int.tdiv_eq_ediv_of_nonneg (Int.emod_nonneg (s % 86400) (by decide : (3600 : ℤ) ≠ 0))]

namespace DateTime

variable {t : DateTime}

/-- The calendar date of a valid date. -/
def date (h : t.validDate) : Date where
  year := t.year
  month := t.month
  day := t.day
  month_mem := by
    have h := of_decide_eq_true h
    exact ⟨h.2.2.1, h.2.2.2.1⟩
  day_mem := by
    have h := of_decide_eq_true h
    rw [← daysInMonth_eq _ ⟨h.2.2.1, h.2.2.2.1⟩]
    exact ⟨h.2.2.2.2.1, h.2.2.2.2.2⟩

theorem dayNumber_date (h : t.validDate) :
    -366 ≤ (date h).dayNumber ∧ (date h).dayNumber < 3652425 := by
  obtain ⟨hlo, hhi⟩ := (date h).yearStart_le_dayNumber
  have hyear := of_decide_eq_true h
  have hmarch : -1 ≤ (date h).marchYear ∧ (date h).marchYear ≤ 9999 := by
    rw [Date.marchYear]
    dsimp only [date]
    split_ifs <;> omega
  have hfirst := yearStart_mono hmarch.1
  have hlast := yearStart_mono (by omega : (date h).marchYear + 1 ≤ 10000)
  have hminus : yearStart (-1) = -366 := rfl
  have hend : yearStart 10000 = 3652425 := rfl
  omega

def timeOfDay (t : DateTime) : ℤ :=
  t.hour * 3600 + t.minute * 60 + t.second

theorem ValidTime.timeOfDay_lt (h : t.ValidTime) : 0 ≤ t.timeOfDay ∧ t.timeOfDay < 86400 := by
  obtain ⟨hhour, hminute, hsecond⟩ := h
  rw [timeOfDay]
  omega

theorem epochSeconds_eq (h : t.validDate) (htime : t.ValidTime) :
    t.epochSeconds = some (((date h).dayNumber - 719468) * 86400 + t.timeOfDay) := by
  obtain ⟨hlo, hhi⟩ := dayNumber_date h
  obtain ⟨hhour, hminute, hsecond⟩ := htime
  have hz : Admitted ((date h).dayNumber - 719468) := by
    rw [Admitted, int64Min, int64Max]
    omega
  have hdays : t.epochDays = some ((date h).dayNumber - 719468) :=
    (daysFromCivil_eq_some_iff (date h)).mpr ⟨(sub_add_cancel _ _).symm, hz⟩
  rw [epochSeconds, hdays, timeOfDay]
  simp only [Option.bind_eq_bind, Option.bind_some, bind_int64Of, int64Of_eq_some, inInt64]
  refine ⟨?_, ?_, ?_, ?_, ?_⟩ <;> omega

theorem fromEpochSeconds_epochSeconds (h : t.validDate) (htime : t.ValidTime)
    (hdate : t.hasDate) (hhas : t.hasTime) :
    ∃ s, t.epochSeconds = some s ∧ fromEpochSeconds s t.micro = some t := by
  refine ⟨_, epochSeconds_eq h htime, ?_⟩
  obtain ⟨hlo, hhi⟩ := dayNumber_date h
  obtain ⟨hnonneg, hlt⟩ := htime.timeOfDay_lt
  obtain ⟨hhour, hminute, hsecond⟩ := htime
  have hday : (((date h).dayNumber - 719468) * 86400 + t.timeOfDay) / 86400 =
      (date h).dayNumber - 719468 := by omega
  have hrest : (((date h).dayNumber - 719468) * 86400 + t.timeOfDay) % 86400 = t.timeOfDay := by
    omega
  rw [fromEpochSeconds_eq (t := date h) (by rw [int64Min]; omega) (by rw [int64Max]; omega)
    (by rw [hday, sub_add_cancel]), hrest, timeOfDay]
  obtain ⟨year, month, day, hour, minute, second, micro, hasDate, hasTime⟩ := t
  simp only [date, Option.some.injEq, DateTime.mk.injEq] at *
  refine ⟨trivial, trivial, trivial, ?_, ?_, ?_, trivial, hdate.symm, hhas.symm⟩ <;> omega

end DateTime

theorem exists_daysFromCivil (t : Date) (h : -25000000000000000 ≤ t.year)
    (h' : t.year ≤ 25000000000000000) : ∃ z, daysFromCivil t.year t.month t.day = some z := by
  refine ⟨t.dayNumber - 719468, (daysFromCivil_eq_some_iff t).mpr ⟨(sub_add_cancel _ _).symm, ?_⟩⟩
  obtain ⟨hlo, hhi⟩ := t.yearStart_le_dayNumber
  have hyear : t.year - 1 ≤ t.marchYear ∧ t.marchYear ≤ t.year := by
    rw [Date.marchYear]
    split_ifs <;> omega
  rw [yearStart] at hlo hhi
  rw [Admitted, int64Min, int64Max]
  omega

/-- Every admitted day number is that of exactly one date of the calendar, which `civil_from_days`
gives and `days_from_civil` takes back; successive numbers are successive dates; day 0 is the first
of January 1970; and a valid date and time is that of its seconds. -/
theorem calendar_bijective :
    (∀ z, Admitted z → ∃ t : Date, civilFromDays z = some (civil t) ∧
      daysFromCivil t.year t.month t.day = some z) ∧
    (∀ (t : Date) (z : ℤ), daysFromCivil t.year t.month t.day = some z →
      Admitted z ∧ civilFromDays z = some (civil t)) ∧
    (∀ t : Date, -25000000000000000 ≤ t.year → t.year ≤ 25000000000000000 →
      ∃ z, daysFromCivil t.year t.month t.day = some z) ∧
    (∀ z, Admitted z → Admitted (z + 1) → ∃ t : Date, civilFromDays z = some (civil t) ∧
      civilFromDays (z + 1) = some (civil t.next)) ∧
    civilFromDays 0 = some ⟨1970, 1, 1⟩ ∧
    ∀ t : DateTime, t.validDate → t.ValidTime → t.hasDate → t.hasTime →
      ∃ s, t.epochSeconds = some s ∧ DateTime.fromEpochSeconds s t.micro = some t := by
  refine ⟨fun z hz => ?_, fun t z h => ?_, exists_daysFromCivil, fun z hz hz' => ?_, by decide,
    fun t => DateTime.fromEpochSeconds_epochSeconds⟩
  · obtain ⟨t, ht, hnumber⟩ := civilFromDays_eq hz
    exact ⟨t, ht, (daysFromCivil_eq_some_iff t).mpr ⟨hnumber, hz⟩⟩
  · obtain ⟨hnumber, hz⟩ := (daysFromCivil_eq_some_iff t).mp h
    exact ⟨hz, civilFromDays_dayNumber hnumber hz⟩
  · obtain ⟨t, ht, hnumber⟩ := civilFromDays_eq hz
    refine ⟨t, ht, civilFromDays_dayNumber ?_ hz'⟩
    rw [t.dayNumber_next, hnumber]
    omega

/-- The last day of 1969 and the first of 1970, and the last second of a leap day before. -/
theorem calendar_bijective_leapDay :
    (∃ t : Date, civilFromDays (-1) = some (civil t) ∧
      daysFromCivil t.year t.month t.day = some (-1)) ∧
    civilFromDays (-3653) = some ⟨1960, 1, 1⟩ ∧
    (∃ t : Date, civilFromDays (-1) = some (civil t) ∧
      civilFromDays (-1 + 1) = some (civil t.next)) ∧
    ∃ s, DateTime.epochSeconds ⟨1968, 2, 29, 23, 59, 59, 7, true, true⟩ = some s ∧
      DateTime.fromEpochSeconds s 7 = some ⟨1968, 2, 29, 23, 59, 59, 7, true, true⟩ := by
  have hlast : Admitted (-1) := ⟨by decide, by decide⟩
  obtain ⟨hbijective, hback, -, hnext, -, htime⟩ := calendar_bijective
  let newYear : Date := ⟨1960, 1, 1, by decide, by decide⟩
  exact ⟨hbijective (-1) hlast, (hback newYear (-3653) (by decide)).2,
    hnext (-1) hlast ⟨by decide, by decide⟩,
      htime ⟨1968, 2, 29, 23, 59, 59, 7, true, true⟩ (by decide)
      ⟨by decide, by decide, by decide⟩ rfl rfl⟩

end RusqlEngine.SqlVal
