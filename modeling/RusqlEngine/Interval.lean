import RusqlEngine.Calendar

/-!
# Adding an interval to a date

Months, quarters and years move the month and keep the day where the month has it; the other units
move the time line. A result outside of the years 0 to 9999 is declined. The amount is multiplied
and added in 64 bits, where a step that overflows has no result; exactly the amounts for which no
step does are added right.
-/

namespace RusqlEngine.SqlVal

open NumericText
open Gregorian (Date)

/-- The names of units that are compared with; `other` is any other name. -/
inductive IntervalUnit where
  | month
  | quarter
  | year
  | day
  | week
  | hour
  | minute
  | second
  | microsecond
  | other
deriving DecidableEq

namespace IntervalUnit

/-- The seconds and microseconds of an amount, where the unit is one of the time line. -/
def parts (unit : IntervalUnit) (amount : ℤ) : Option (Option (ℤ × ℤ)) :=
  match unit with
  | .day => (int64Of (amount * 86400)).map fun seconds => some (seconds, 0)
  | .week => (int64Of (amount * 7)).bind fun days =>
    (int64Of (days * 86400)).map fun seconds => some (seconds, 0)
  | .hour => (int64Of (amount * 3600)).map fun seconds => some (seconds, 0)
  | .minute => (int64Of (amount * 60)).map fun seconds => some (seconds, 0)
  | .second => some (some (amount, 0))
  | .microsecond => some (some (amount.tdiv 1000000, amount.tmod 1000000))
  | _ => some none

def ofTime (unit : IntervalUnit) : Bool :=
  unit = .hour ∨ unit = .minute ∨ unit = .second ∨ unit = .microsecond

end IntervalUnit

namespace DateTime

/-- The branch of months; none inside where the result is declined. -/
def addMonths (t : DateTime) (months : ℤ) : Option (Option DateTime) :=
  (int64Of (t.year * 12 + (t.month - 1) + months)).map fun total =>
    if total < 0 then none
    else
      let year := total.tdiv 12
      let month := total.tmod 12 + 1
      if 9999 < year then none
      else some { t with year := year, month := month, day := min t.day (daysInMonth year month) }

def carry (totalMicro : ℤ) : ℤ :=
  if 1000000 ≤ totalMicro then 1 else if totalMicro < 0 then -1 else 0

/-- The branch of the time line. -/
def addSeconds (t : DateTime) (seconds micro : ℤ) (hasTime : Bool) : Option (Option DateTime) := do
  let totalMicro := t.micro + micro
  let seconds ← int64Of (seconds + carry totalMicro)
  let start ← t.epochSeconds
  let stop ← int64Of (start + seconds)
  let out ← fromEpochSeconds stop ((totalMicro.tmod 1000000 + 1000000).tmod 1000000)
  if out.year < 0 ∨ 9999 < out.year then some none
  else some (some { out with hasDate := true, hasTime := hasTime })

def addInterval (t : DateTime) (unit : IntervalUnit) (amount : ℤ) : Option (Option DateTime) :=
  match unit with
  | .month => t.addMonths amount
  | .quarter => (int64Of (amount * 3)).bind t.addMonths
  | .year => (int64Of (amount * 12)).bind t.addMonths
  | _ => (unit.parts amount).bind fun parts =>
    match parts with
    | none => some none
    | some (seconds, micro) => t.addSeconds seconds micro (t.hasTime || unit.ofTime)

/-! ### What the sum is -/

/-- A date and time of the years 0 to 9999. -/
structure Proper (t : DateTime) : Prop where
  date : t.validDate = true
  time : t.ValidTime
  micro : 0 ≤ t.micro ∧ t.micro < 1000000

def instant (t : DateTime) (h : t.Proper) : ℤ :=
  ((date h.date).dayNumber - 719468) * 86400 + t.timeOfDay

def monthNumber (t : DateTime) : ℤ :=
  t.year * 12 + (t.month - 1)

/-- The date so many months later, with a day that the month has. -/
def IsMoved (t : DateTime) (months : ℤ) (r : DateTime) : Prop :=
  0 ≤ r.year ∧ r.year ≤ 9999 ∧ r.monthNumber = t.monthNumber + months ∧
    1 ≤ r.month ∧ r.month ≤ 12 ∧ r = { t with
      year := r.year
      month := r.month
      day := min t.day (Gregorian.monthLength r.year r.month) }

/-- The date and time so many microseconds later. -/
def IsShifted (t : DateTime) (h : t.Proper) (micros : ℤ) (hasTime : Bool) (r : DateTime) : Prop :=
  ∃ hr : r.Proper,
    r.instant hr * 1000000 + r.micro = t.instant h * 1000000 + t.micro + micros ∧
      r.hasDate ∧ r.hasTime = hasTime

end DateTime

/-- What a unit stands for. -/
inductive Span where
  | months (n : ℤ)
  | seconds (n : ℤ)
  | microsecond

def IntervalUnit.span : IntervalUnit → Option Span
  | .month => some (.months 1)
  | .quarter => some (.months 3)
  | .year => some (.months 12)
  | .day => some (.seconds 86400)
  | .week => some (.seconds (7 * 86400))
  | .hour => some (.seconds 3600)
  | .minute => some (.seconds 60)
  | .second => some (.seconds 1)
  | .microsecond => some .microsecond
  | .other => none

namespace DateTime

/-- The sum of a date and an interval. -/
def IsSum (t : DateTime) (h : t.Proper) (unit : IntervalUnit) (amount : ℤ) (r : DateTime) : Prop :=
  match unit.span with
  | some (.months n) => t.IsMoved (amount * n) r
  | some (.seconds n) => t.IsShifted h (amount * n * 1000000) (t.hasTime || unit.ofTime) r
  | some .microsecond => t.IsShifted h amount (t.hasTime || unit.ofTime) r
  | none => False

/-- Nothing overflows, and the sum is given where there is one in the years 0 to 9999. -/
def AddsRight (t : DateTime) (h : t.Proper) (unit : IntervalUnit) (amount : ℤ) : Prop :=
  ∃ result, t.addInterval unit amount = some result ∧
    ∀ r, result = some r ↔ t.IsSum h unit amount r

/-- The amount in months or seconds is one of 64 bits, and so is its sum with the date's; before
1970 a day is left below it. -/
def Fits (t : DateTime) (h : t.Proper) (unit : IntervalUnit) (amount : ℤ) : Prop :=
  match unit.span with
  | some (.months n) => inInt64 (amount * n) ∧ t.monthNumber + amount * n ≤ int64Max
  | some (.seconds n) => inInt64 (amount * n) ∧ int64Min + 86400 ≤ t.instant h + amount * n ∧
      t.instant h + amount * n ≤ int64Max
  | _ => True

/-! ### Months -/

section

variable {t : DateTime} {months : ℤ}

theorem monthNumber_mem (h : t.Proper) : 0 ≤ t.monthNumber ∧ t.monthNumber < 120000 := by
  have hdate := of_decide_eq_true h.date
  rw [monthNumber]
  omega

theorem addMonths_eq_some {result : Option DateTime} (h : t.addMonths months = some result) :
    inInt64 (t.monthNumber + months) := by
  obtain ⟨total, htotal, -⟩ := Option.map_eq_some_iff.mp h
  obtain ⟨hrange, -⟩ := int64Of_eq_some.mp htotal
  exact hrange

theorem addMonths_right (hrange : inInt64 (t.monthNumber + months)) :
    ∃ result, t.addMonths months = some result ∧ ∀ r, result = some r ↔ t.IsMoved months r := by
  rw [addMonths, ← monthNumber, int64Of_of_in hrange, Option.map_some]
  refine ⟨_, rfl, fun r => ?_⟩
  generalize htotal : t.monthNumber + months = total
  by_cases hneg : total < 0
  · rw [if_pos hneg]
    refine iff_of_false nofun ?_
    rintro ⟨hyear, -, hmonths, hmonth, -, -⟩
    rw [htotal, monthNumber] at hmonths
    omega
  · have hmonth : 1 ≤ total % 12 + 1 ∧ total % 12 + 1 ≤ 12 := by omega
    rw [if_neg hneg, Int.tdiv_eq_ediv_of_nonneg (not_lt.mp hneg),
      Int.tmod_eq_emod_of_nonneg (not_lt.mp hneg)]
    dsimp only
    rw [daysInMonth_eq _ hmonth]
    -- the sum determines the year and the month
    have hunique (hmonths : r.monthNumber = total) (hlo : 1 ≤ r.month) (hhi : r.month ≤ 12) :
        r.year = total / 12 ∧ r.month = total % 12 + 1 := by
      rw [monthNumber] at hmonths
      omega
    by_cases hlate : 9999 < total / 12
    · rw [if_pos hlate]
      refine iff_of_false nofun ?_
      rintro ⟨-, hyear, hmonths, hlo, hhi, -⟩
      have := (hunique (hmonths.trans htotal) hlo hhi).1
      omega
    · rw [if_neg hlate, Option.some.injEq]
      constructor
      · rintro rfl
        refine ⟨?_, ?_, ?_, hmonth.1, hmonth.2, rfl⟩
        · change 0 ≤ total / 12
          omega
        · change total / 12 ≤ 9999
          omega
        · rw [htotal]
          change total / 12 * 12 + (total % 12 + 1 - 1) = total
          omega
      · rintro ⟨-, -, hmonths, hlo, hhi, hr⟩
        obtain ⟨hyear, hmonth⟩ := hunique (hmonths.trans htotal) hlo hhi
        rw [hr, hyear, hmonth]

end

/-! ### The time line -/

section

variable {t : DateTime} {seconds micro : ℤ} {hasTime : Bool}

theorem carry_eq {m : ℤ} (h : -1000000 < m) (h' : m < 2000000) :
    carry m = m / 1000000 ∧ (m.tmod 1000000 + 1000000).tmod 1000000 = m % 1000000 := by
  have hmod : m.tmod 1000000 = m % 1000000 ∨ m.tmod 1000000 = m % 1000000 - 1000000 := by
    rw [Int.tmod_eq_emod]
    split_ifs
    · exact .inl (sub_zero _)
    · exact .inr rfl
  have hlo : -1000000 < m.tmod 1000000 := by
    have := Int.tmod_lt_of_pos (-m) (by decide : (0 : ℤ) < 1000000)
    rw [Int.neg_tmod] at this
    omega
  rw [carry, Int.tmod_eq_emod_of_nonneg (by omega)]
  refine ⟨?_, by omega⟩
  split_ifs <;> omega

theorem epochSeconds_instant (h : t.Proper) : t.epochSeconds = some (t.instant h) :=
  epochSeconds_eq h.date h.time

theorem le_of_daysOfSeconds {s days : ℤ} (h : daysOfSeconds s = some days) :
    int64Min + 86400 ≤ s := by
  rw [int64Min]
  rw [daysOfSeconds] at h
  split at h
  next hs => omega
  next hs =>
    obtain ⟨-, h⟩ := bind_int64Of.mp h
    obtain ⟨up, hup, -⟩ := Option.map_eq_some_iff.mp h
    obtain ⟨⟨-, hrange⟩, -⟩ := int64Of_eq_some.mp hup
    omega

theorem addSeconds_eq_some (h : t.Proper) {result : Option DateTime}
    (hresult : t.addSeconds seconds micro hasTime = some result) :
    int64Min + 86400 ≤ t.instant h + (seconds + carry (t.micro + micro)) ∧
      t.instant h + (seconds + carry (t.micro + micro)) ≤ int64Max := by
  rw [addSeconds, epochSeconds_instant h] at hresult
  obtain ⟨-, hresult⟩ := bind_int64Of.mp hresult
  obtain ⟨hstop, hresult⟩ := bind_int64Of.mp hresult
  obtain ⟨out, hout, -⟩ := Option.bind_eq_some_iff.mp hresult
  obtain ⟨days, hdays, -⟩ := Option.bind_eq_some_iff.mp hout
  rw [int64Max]
  exact ⟨le_of_daysOfSeconds hdays, Int.le_sub_one_of_lt hstop.2⟩

theorem eq_of_instant {r : DateTime} (hr : r.Proper) {u : Date} {s : ℤ}
    (hu : u.dayNumber = s / 86400 + 719468) (h : r.instant hr = s) :
    r.year = u.year ∧ r.month = u.month ∧ r.day = u.day ∧ r.hour = s % 86400 / 3600 ∧
      r.minute = s % 86400 % 3600 / 60 ∧ r.second = s % 86400 % 60 := by
  obtain ⟨hhour, hminute, hsecond⟩ := hr.time
  obtain ⟨hlo, hhi⟩ := hr.time.timeOfDay_lt
  rw [instant] at h
  have hdate : date hr.date = u := Date.dayNumber_injective (by omega)
  have htime : r.timeOfDay = s % 86400 := by omega
  rw [timeOfDay] at htime
  refine ⟨congrArg Date.year hdate, congrArg Date.month hdate, congrArg Date.day hdate, ?_, ?_, ?_⟩
  all_goals omega

/-- An instant in the years 0 to 9999 has a date and time. -/
theorem proper_of_instant {r : DateTime} {u : Date} {s : ℤ} (hu : u.dayNumber = s / 86400 + 719468)
    (hyear : r.year = u.year) (hmonth : r.month = u.month) (hday : r.day = u.day)
    (hhour : r.hour = s % 86400 / 3600) (hminute : r.minute = s % 86400 % 3600 / 60)
    (hsecond : r.second = s % 86400 % 60) (hmicro : 0 ≤ r.micro ∧ r.micro < 1000000)
    (hrange : 0 ≤ u.year ∧ u.year ≤ 9999) : ∃ hr : r.Proper, r.instant hr = s := by
  have hdate : r.validDate := by
    rw [validDate, decide_eq_true_iff, hyear, hmonth, hday, daysInMonth_eq _ u.month_mem]
    exact ⟨hrange.1, hrange.2, u.month_mem.1, u.month_mem.2, u.day_mem.1, u.day_mem.2⟩
  have htime : r.ValidTime := by
    constructor <;> omega
  refine ⟨⟨hdate, htime, hmicro⟩, ?_⟩
  have hsame : date hdate = u := Date.ext hyear hmonth hday
  rw [instant, hsame, hu, timeOfDay, hhour, hminute, hsecond]
  omega

/-- The instant of the sum, where it is in the years 0 to 9999. -/
theorem addSeconds_right (h : t.Proper) (seconds micro : ℤ) (hasTime : Bool)
    (hmicro : -1000000 < micro) (hmicro' : micro < 1000000)
    (hseconds : inInt64 (seconds + carry (t.micro + micro)))
    (hlo : int64Min + 86400 ≤ t.instant h + (seconds + carry (t.micro + micro)))
    (hhi : t.instant h + (seconds + carry (t.micro + micro)) ≤ int64Max) :
    ∃ result, t.addSeconds seconds micro hasTime = some result ∧
      ∀ r, result = some r ↔ t.IsShifted h (seconds * 1000000 + micro) hasTime r := by
  obtain ⟨hnonneg, hlt⟩ := h.micro
  obtain ⟨hcarry, hrest⟩ := carry_eq (by omega : -1000000 < t.micro + micro) (by omega)
  have hstop : inInt64 (t.instant h + (seconds + carry (t.micro + micro))) := by
    rw [inInt64_iff]
    rw [int64Min] at hlo ⊢
    omega
  generalize hs : t.instant h + (seconds + carry (t.micro + micro)) = s at hlo hhi hstop
  have hz : Admitted (s / 86400) := by
    rw [Admitted]
    rw [int64Min] at hlo ⊢
    rw [int64Max] at hhi ⊢
    omega
  obtain ⟨u, -, hu⟩ := civilFromDays_eq hz
  rw [addSeconds, epochSeconds_instant h]
  simp only [Option.bind_eq_bind, int64Of_of_in hseconds, Option.bind_some, hs, int64Of_of_in hstop,
    hrest, fromEpochSeconds_eq hlo hhi hu]
  have hsum : s * 1000000 + (t.micro + micro) % 1000000 =
      t.instant h * 1000000 + t.micro + (seconds * 1000000 + micro) := by
    rw [← hs, hcarry]
    omega
  -- a date and time is the sum exactly when it is the one that the seconds give
  let out : DateTime :=
    { year := u.year
      month := u.month
      day := u.day
      hour := s % 86400 / 3600
      minute := s % 86400 % 3600 / 60
      second := s % 86400 % 60
      micro := (t.micro + micro) % 1000000
      hasDate := true
      hasTime := hasTime }
  have hshifted (r : DateTime) : t.IsShifted h (seconds * 1000000 + micro) hasTime r ↔
      (0 ≤ u.year ∧ u.year ≤ 9999) ∧ r = out := by
    constructor
    · rintro ⟨hr, hinstant, hdate, hhas⟩
      obtain ⟨hrnonneg, hrlt⟩ := hr.micro
      have hrs : r.instant hr = s := by omega
      have hrmicro : r.micro = (t.micro + micro) % 1000000 := by omega
      obtain ⟨hyear, hmonth, hday, hhour, hminute, hsecond⟩ := eq_of_instant hr hu hrs
      have hrange := of_decide_eq_true hr.date
      refine ⟨hyear ▸ ⟨hrange.1, hrange.2.1⟩, ?_⟩
      obtain ⟨year, month, day, hour, minute, second, rmicro, hasDate, rhasTime⟩ := r
      simp only [out, DateTime.mk.injEq]
      exact ⟨hyear, hmonth, hday, hhour, hminute, hsecond, hrmicro, hdate, hhas⟩
    · rintro ⟨hrange, rfl⟩
      have hmicros : 0 ≤ out.micro ∧ out.micro < 1000000 :=
        ⟨Int.emod_nonneg _ (by decide), Int.emod_lt_of_pos _ (by decide)⟩
      obtain ⟨hr, hinstant⟩ : ∃ hr : out.Proper, out.instant hr = s :=
        proper_of_instant hu rfl rfl rfl rfl rfl rfl hmicros hrange
      exact ⟨hr, by rw [hinstant]; exact hsum, rfl, rfl⟩
  by_cases hrange : 0 ≤ u.year ∧ u.year ≤ 9999
  · rw [if_neg (by omega)]
    refine ⟨_, rfl, fun r => ?_⟩
    rw [hshifted, Option.some.injEq, and_iff_right hrange, eq_comm]
  · rw [if_pos (by omega)]
    refine ⟨_, rfl, fun r => ?_⟩
    rw [hshifted]
    exact iff_of_false (by simp) fun h => hrange h.1

end

/-! ### Units -/

section

variable {t : DateTime} {amount : ℤ}

theorem addMonths_iff (h : t.Proper) {unit : IntervalUnit} {n : ℤ}
    (hspan : unit.span = some (.months n))
    (hadd : t.addInterval unit amount = (int64Of (amount * n)).bind t.addMonths) :
    t.AddsRight h unit amount ↔ t.Fits h unit amount := by
  have hmonths := monthNumber_mem h
  rw [AddsRight, Fits, hspan, hadd]
  constructor
  · rintro ⟨result, hresult, -⟩
    obtain ⟨hamount, hresult⟩ := bind_int64Of.mp hresult
    have hrange := inInt64_iff.mp (addMonths_eq_some hresult)
    exact ⟨hamount, hrange.2⟩
  · rintro ⟨hamount, htotal⟩
    have hrange : inInt64 (t.monthNumber + amount * n) := by
      rw [inInt64_iff] at hamount ⊢
      omega
    obtain ⟨result, hresult, hright⟩ := addMonths_right hrange
    refine ⟨result, bind_int64Of.mpr ⟨hamount, hresult⟩, fun r => ?_⟩
    rw [hright, IsSum, hspan]

theorem addSeconds_iff (h : t.Proper) {unit : IntervalUnit} {n : ℤ}
    (hspan : unit.span = some (.seconds n))
    (hadd : t.addInterval unit amount = (int64Of (amount * n)).bind fun seconds =>
      t.addSeconds seconds 0 (t.hasTime || unit.ofTime)) :
    t.AddsRight h unit amount ↔ t.Fits h unit amount := by
  obtain ⟨hnonneg, hlt⟩ := h.micro
  have hcarry : carry (t.micro + 0) = 0 := by
    rw [carry, if_neg (by omega), if_neg (by omega)]
  rw [AddsRight, Fits, hspan, hadd]
  constructor
  · rintro ⟨result, hresult, -⟩
    obtain ⟨hamount, hresult⟩ := bind_int64Of.mp hresult
    have hrange := addSeconds_eq_some h hresult
    rw [hcarry, add_zero] at hrange
    exact ⟨hamount, hrange⟩
  · rintro ⟨hamount, hlo, hhi⟩
    obtain ⟨result, hresult, hright⟩ := addSeconds_right h (amount * n) 0
      (t.hasTime || unit.ofTime) (by decide) (by decide)
      (by rwa [hcarry, add_zero]) (by rwa [hcarry, add_zero]) (by rwa [hcarry, add_zero])
    refine ⟨result, bind_int64Of.mpr ⟨hamount, hresult⟩, fun r => ?_⟩
    rw [hright, IsSum, hspan, add_zero]

theorem addMicros_right (h : t.Proper) (hamount : inInt64 amount) :
    t.AddsRight h .microsecond amount := by
  obtain ⟨hnonneg, hlt⟩ := h.micro
  obtain ⟨hdate, hdate'⟩ := dayNumber_date h.date
  obtain ⟨htime, htime'⟩ := h.time.timeOfDay_lt
  have hsplit : amount.tdiv 1000000 * 1000000 + amount.tmod 1000000 = amount :=
    Int.tdiv_mul_add_tmod amount 1000000
  have hlo := Int.lt_tmod_of_pos amount (by decide : (0 : ℤ) < 1000000)
  have hhi := Int.tmod_lt_of_pos amount (by decide : (0 : ℤ) < 1000000)
  obtain ⟨hcarry, -⟩ := carry_eq (by omega : -1000000 < t.micro + amount.tmod 1000000) (by omega)
  have hinstant : -70000000000 < t.instant h ∧ t.instant h < 260000000000 := by
    rw [instant]
    omega
  rw [inInt64] at hamount
  obtain ⟨result, hresult, hright⟩ := addSeconds_right h (amount.tdiv 1000000)
    (amount.tmod 1000000) (t.hasTime || IntervalUnit.ofTime .microsecond) hlo hhi
    (by rw [inInt64, hcarry]; omega) (by rw [int64Min, hcarry]; omega)
    (by rw [int64Max, hcarry]; omega)
  refine ⟨result, hresult, fun r => ?_⟩
  rw [hright, hsplit]
  rfl

theorem bind_days (f : ℤ → Option (Option DateTime)) :
    ((int64Of (amount * 7)).bind fun days => (int64Of (days * 86400)).bind f) =
      (int64Of (amount * (7 * 86400))).bind f := by
  by_cases hdays : inInt64 (amount * 7)
  · rw [int64Of_of_in hdays, Option.bind_some, mul_assoc]
  · have hseconds : ¬ inInt64 (amount * (7 * 86400)) := by
      rw [inInt64] at hdays ⊢
      omega
    rw [int64Of_of_not hdays, int64Of_of_not hseconds]
    rfl

/-- A sum is exact, or declined, exactly when the amount fits. -/
theorem addsRight_iff (h : t.Proper) {unit : IntervalUnit} (hunit : unit ≠ .other)
    (hamount : inInt64 amount) : t.AddsRight h unit amount ↔ t.Fits h unit amount := by
  have hone : inInt64 (amount * 1) := by rwa [mul_one]
  have hparts (n : ℤ) (hasTime : Bool) :
      ((int64Of n).map fun seconds => some (seconds, (0 : ℤ))).bind (fun parts =>
        match parts with
        | none => some none
        | some (seconds, micro) => t.addSeconds seconds micro hasTime) =
      (int64Of n).bind fun seconds => t.addSeconds seconds 0 hasTime := by
    cases int64Of n <;> rfl
  cases unit with
  | month =>
    refine addMonths_iff h rfl ?_
    rw [int64Of_of_in hone, mul_one]
    rfl
  | quarter | year => exact addMonths_iff h rfl rfl
  | day | hour | minute => exact addSeconds_iff h rfl (hparts _ _)
  | week =>
    refine addSeconds_iff h rfl ?_
    rw [← bind_days]
    change (IntervalUnit.parts .week amount).bind _ = _
    simp only [IntervalUnit.parts, Option.bind_assoc, hparts]
  | second =>
    refine addSeconds_iff h rfl ?_
    rw [int64Of_of_in hone, mul_one]
    rfl
  | microsecond => exact iff_of_true (addMicros_right h hamount) trivial
  | other => exact absurd rfl hunit

/-- A month after the last of January. -/
theorem addsRight_endOfMonth : ∃ h : Proper ⟨2024, 1, 31, 0, 0, 0, 0, true, false⟩,
    AddsRight _ h .month 1 ∧
      addInterval ⟨2024, 1, 31, 0, 0, 0, 0, true, false⟩ .month 1 =
        some (some ⟨2024, 2, 29, 0, 0, 0, 0, true, false⟩) :=
  have h : Proper ⟨2024, 1, 31, 0, 0, 0, 0, true, false⟩ :=
    ⟨by decide, ⟨by decide, by decide, by decide⟩, by decide⟩
  ⟨h, (addsRight_iff h (by decide) (by decide)).mpr ⟨by decide, by decide⟩, by decide⟩

/-- The seconds of so many days are `675 * 2 ^ 64`. -/
theorem not_addsRight_days : ∃ h : Proper ⟨2000, 1, 1, 0, 0, 0, 0, true, false⟩,
    inInt64 (2 ^ 57) ∧ ¬ AddsRight _ h .day (2 ^ 57) := by
  refine ⟨⟨by decide, ⟨by decide, by decide, by decide⟩, by decide⟩, by decide, ?_⟩
  rintro ⟨result, hresult, -⟩
  have hnone : addInterval ⟨2000, 1, 1, 0, 0, 0, 0, true, false⟩ .day (2 ^ 57) = none := by decide
  exact nomatch hnone.symm.trans hresult

end

end DateTime

end RusqlEngine.SqlVal
