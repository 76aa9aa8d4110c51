import Mathlib.Data.Fintype.Fin
import Mathlib.Tactic.IntervalCases

/-!
# The Gregorian calendar

The dates of the proleptic Gregorian calendar and their day numbers. Years are counted from the
first of March here, so that the day that some years have more is their last one; a date is then a
year and a day of that year, and the day numbers of successive dates are successive.
-/

namespace Gregorian

def Leap (y : ℤ) : Prop :=
  (y % 4 = 0 ∧ y % 100 ≠ 0) ∨ y % 400 = 0

instance : DecidablePred Leap := fun y =>
  inferInstanceAs (Decidable ((y % 4 = 0 ∧ y % 100 ≠ 0) ∨ y % 400 = 0))

def monthLength (y m : ℤ) : ℤ :=
  if m = 2 then (if Leap y then 29 else 28)
  else if m = 4 ∨ m = 6 ∨ m = 9 ∨ m = 11 then 30 else 31

/-- A date of the calendar. -/
@[ext]
structure Date where
  year : ℤ
  month : ℤ
  day : ℤ
  month_mem : 1 ≤ month ∧ month ≤ 12
  day_mem : 1 ≤ day ∧ day ≤ monthLength year month

theorem one_le_monthLength (y m : ℤ) : 1 ≤ monthLength y m := by
  rw [monthLength]
  split_ifs <;> decide

/-- The next date: the next day, or the first of the next month, or of the next year. -/
def Date.next (t : Date) : Date :=
  if hday : t.day < monthLength t.year t.month then
    { t with day := t.day + 1, day_mem := ⟨by have := t.day_mem; omega, by omega⟩ }
  else if hmonth : t.month < 12 then
    { year := t.year
      month := t.month + 1
      day := 1
      month_mem := ⟨by have := t.month_mem; omega, by omega⟩
      day_mem := ⟨le_rfl, one_le_monthLength _ _⟩ }
  else
    { year := t.year + 1
      month := 1
      day := 1
      month_mem := by decide
      day_mem := ⟨le_rfl, one_le_monthLength _ _⟩ }

/-! ### Years from March on -/

def yearStart (y : ℤ) : ℤ :=
  365 * y + y / 4 - y / 100 + y / 400

def monthStart (m : ℤ) : ℤ :=
  (153 * m + 2) / 5

def monthOf (day : ℤ) : ℤ :=
  (5 * day + 2) / 153

def marchMonth (m : ℤ) : ℤ :=
  if m ≤ 2 then m + 9 else m - 3

namespace Date

variable (t : Date)

def marchYear : ℤ :=
  if t.month ≤ 2 then t.year - 1 else t.year

def dayOfYear : ℤ :=
  monthStart (marchMonth t.month) + (t.day - 1)

def dayNumber : ℤ :=
  yearStart t.marchYear + t.dayOfYear

end Date

theorem yearStart_succ (y : ℤ) :
    yearStart (y + 1) = yearStart y + if Leap (y + 1) then 366 else 365 := by
  rw [yearStart, yearStart]
  by_cases h : Leap (y + 1)
  · rw [if_pos h]
    rw [Leap] at h
    omega
  · rw [if_neg h]
    rw [Leap] at h
    omega

theorem yearStart_lt_succ (y : ℤ) : yearStart y < yearStart (y + 1) := by
  rw [yearStart_succ]
  split_ifs <;> omega

theorem yearStart_mono {y y' : ℤ} (h : y ≤ y') : yearStart y ≤ yearStart y' := by
  induction y', h using Int.leInduction with
  | base => exact le_rfl
  | succ y' _ ih => exact ih.trans (yearStart_lt_succ y').le

theorem year_unique {y y' n : ℤ} (h : yearStart y ≤ n) (h' : n < yearStart (y + 1))
    (hy : yearStart y' ≤ n) (hy' : n < yearStart (y' + 1)) : y = y' := by
  rcases lt_trichotomy y y' with hlt | rfl | hlt
  · exact absurd (h'.trans_le (yearStart_mono hlt)) (not_lt.mpr hy)
  · rfl
  · exact absurd (hy'.trans_le (yearStart_mono hlt)) (not_lt.mpr h)

theorem yearStart_add_eras (era y : ℤ) : yearStart (era * 400 + y) =
    era * 146097 + yearStart y := by
  rw [yearStart, yearStart]
  omega

theorem monthOf_eq {m day : ℤ} (h : monthStart m ≤ day) (h' : day < monthStart (m + 1)) :
    monthOf day = m := by
  rw [monthStart] at h h'
  rw [monthOf]
  omega

theorem monthStart_le (day : ℤ) :
    monthStart (monthOf day) ≤ day ∧ day < monthStart (monthOf day + 1) := by
  rw [monthStart, monthStart, monthOf]
  omega

theorem monthStart_add_monthLength (y : ℤ) {m : ℤ} (h : 1 ≤ m ∧ m ≤ 12) :
    monthStart (marchMonth m) + monthLength y m =
      if m = 2 then (if Leap y then 366 else 365) else monthStart (marchMonth m + 1) := by
  obtain ⟨h, h'⟩ := h
  by_cases hm : m = 2
  · subst hm
    rw [if_pos rfl, monthLength, if_pos rfl]
    split_ifs <;> rfl
  · rw [if_neg hm, monthLength, if_neg hm]
    interval_cases m <;> first | rfl | exact absurd rfl hm

/-! ### Dates and days of the year -/

namespace Date

variable (t : Date)

theorem dayOfYear_nonneg : 0 ≤ t.dayOfYear := by
  have hday := t.day_mem.1
  have hmonth := t.month_mem
  rw [dayOfYear, marchMonth, monthStart]
  split_ifs <;> omega

theorem monthOf_dayOfYear : monthOf t.dayOfYear = marchMonth t.month := by
  obtain ⟨hlo, hhi⟩ := t.day_mem
  have hend := monthStart_add_monthLength t.year t.month_mem
  refine monthOf_eq (by rw [dayOfYear]; omega) ?_
  rw [dayOfYear]
  by_cases hmonth : t.month = 2
  · have hnext : monthStart (marchMonth 2 + 1) = 367 := rfl
    rw [if_pos hmonth, hmonth] at hend
    rw [hmonth] at hhi ⊢
    split_ifs at hend <;> omega
  · rw [if_neg hmonth] at hend
    omega

theorem dayOfYear_lt : t.dayOfYear < yearStart (t.marchYear + 1) - yearStart t.marchYear := by
  obtain ⟨hlo, hhi⟩ := t.day_mem
  obtain ⟨hmonth, hmonth'⟩ := t.month_mem
  have hend := monthStart_add_monthLength t.year t.month_mem
  have hyear := yearStart_succ t.marchYear
  rw [dayOfYear]
  by_cases hfebruary : t.month = 2
  · have hsame : t.marchYear + 1 = t.year := by
      rw [marchYear, if_pos (by omega), sub_add_cancel]
    rw [if_pos hfebruary] at hend
    rw [hsame] at hyear ⊢
    omega
  · have hlast : monthStart (marchMonth t.month + 1) ≤ 365 := by
      rw [marchMonth, monthStart]
      split_ifs <;> omega
    rw [if_neg hfebruary] at hend
    split_ifs at hyear <;> omega

theorem monthOf_mem {y day : ℤ} (h : 0 ≤ day) (h' : day < yearStart (y + 1) - yearStart y) :
    0 ≤ monthOf day ∧ monthOf day ≤ 11 := by
  rw [yearStart_succ] at h'
  rw [monthOf]
  split_ifs at h' <;> omega

/-- The date of a day of a year. -/
def ofMarch (y day : ℤ) (h : 0 ≤ day) (h' : day < yearStart (y + 1) - yearStart y) : Date where
  year := if monthOf day < 10 then y else y + 1
  month := if monthOf day < 10 then monthOf day + 3 else monthOf day - 9
  day := day - monthStart (monthOf day) + 1
  month_mem := by
    have hmonth := monthOf_mem h h'
    split_ifs <;> omega
  day_mem := by
    have hlast : day < 366 ∧ (¬ Leap (y + 1) → day < 365) := by
      rw [yearStart_succ] at h'
      split_ifs at h' with hleap
      · exact ⟨by omega, fun hnot => absurd hleap hnot⟩
      · exact ⟨by omega, fun _ => by omega⟩
    obtain ⟨hlo, hhi⟩ := monthStart_le day
    have hmonth := monthOf_mem h h'
    refine ⟨by omega, ?_⟩
    by_cases hfebruary : monthOf day = 11
    · have hend := monthStart_add_monthLength (y + 1) (by decide : (1 : ℤ) ≤ 2 ∧ (2 : ℤ) ≤ 12)
      have hmarch : marchMonth 2 = 11 := rfl
      rw [if_pos rfl, hmarch] at hend
      simp only [hfebruary, if_neg (by decide : ¬ (11 : ℤ) < 10)]
      change _ ≤ monthLength (y + 1) 2
      by_cases hleap : Leap (y + 1)
      · rw [if_pos hleap] at hend
        omega
      · rw [if_neg hleap] at hend
        have := hlast.2 hleap
        omega
    · have hend := monthStart_add_monthLength (if monthOf day < 10 then y else y + 1)
        (m := if monthOf day < 10 then monthOf day + 3 else monthOf day - 9)
        (by split_ifs <;> omega)
      have hmarch : marchMonth (if monthOf day < 10 then monthOf day + 3 else monthOf day - 9) =
          monthOf day := by
        rw [marchMonth]
        split_ifs <;> omega
      have hother : (if monthOf day < 10 then monthOf day + 3 else monthOf day - 9) ≠ 2 := by
        split_ifs <;> omega
      rw [hmarch, if_neg hother] at hend
      omega

theorem marchYear_ofMarch {y day : ℤ} (h : 0 ≤ day) (h' : day < yearStart (y + 1) - yearStart y) :
    (ofMarch y day h h').marchYear = y := by
  have hmonth := monthOf_mem h h'
  rw [marchYear, ofMarch]
  dsimp only
  split_ifs <;> omega

theorem dayOfYear_ofMarch {y day : ℤ} (h : 0 ≤ day) (h' : day < yearStart (y + 1) - yearStart y) :
    (ofMarch y day h h').dayOfYear = day := by
  have hmonth := monthOf_mem h h'
  have hmarch : marchMonth (ofMarch y day h h').month = monthOf day := by
    rw [marchMonth, ofMarch]
    dsimp only
    split_ifs <;> omega
  rw [dayOfYear, hmarch, ofMarch]
  dsimp only
  omega

theorem ofMarch_dayOfYear :
    ofMarch t.marchYear t.dayOfYear t.dayOfYear_nonneg t.dayOfYear_lt = t := by
  obtain ⟨hmonth, hmonth'⟩ := t.month_mem
  have hmarch := t.monthOf_dayOfYear
  ext
  · change (if monthOf t.dayOfYear < 10 then t.marchYear else t.marchYear + 1) = _
    rw [hmarch, marchYear, marchMonth]
    split_ifs <;> omega
  · change (if monthOf t.dayOfYear < 10 then monthOf t.dayOfYear + 3
      else monthOf t.dayOfYear - 9) = _
    rw [hmarch, marchMonth]
    split_ifs <;> omega
  · change t.dayOfYear - monthStart (monthOf t.dayOfYear) + 1 = _
    rw [hmarch, dayOfYear]
    omega

/-! ### Day numbers -/

theorem yearStart_le_dayNumber :
    yearStart t.marchYear ≤ t.dayNumber ∧ t.dayNumber < yearStart (t.marchYear + 1) := by
  have hnonneg := t.dayOfYear_nonneg
  have hlt := t.dayOfYear_lt
  rw [dayNumber]
  omega

theorem dayNumber_ofMarch {y day : ℤ} (h : 0 ≤ day) (h' : day < yearStart (y + 1) - yearStart y) :
    (ofMarch y day h h').dayNumber = yearStart y + day := by
  rw [dayNumber, marchYear_ofMarch, dayOfYear_ofMarch]

theorem dayNumber_injective : Function.Injective dayNumber := by
  intro t u h
  have ht := t.yearStart_le_dayNumber
  have hu := u.yearStart_le_dayNumber
  rw [← h] at hu
  have hyear : t.marchYear = u.marchYear := year_unique ht.1 ht.2 hu.1 hu.2
  have hday : t.dayOfYear = u.dayOfYear := by
    rw [dayNumber, dayNumber, hyear] at h
    omega
  rw [← t.ofMarch_dayOfYear, ← u.ofMarch_dayOfYear]
  simp only [hyear, hday]

theorem dayNumber_next : t.next.dayNumber = t.dayNumber + 1 := by
  obtain ⟨hmonth, hmonth'⟩ := t.month_mem
  have hend := monthStart_add_monthLength t.year t.month_mem
  obtain ⟨hlo, hhi⟩ := t.day_mem
  rw [next]
  split_ifs with hday hlast
  · simp only [dayNumber, dayOfYear, marchYear]
    omega
  · -- the first of the next month, which in March is that of the next year
    have hfull : t.day = monthLength t.year t.month := by omega
    by_cases hfebruary : t.month = 2
    · have hyear := yearStart_succ (t.year - 1)
      rw [sub_add_cancel] at hyear
      rw [if_pos hfebruary] at hend
      simp only [dayNumber, dayOfYear, marchYear, hfebruary] at hend ⊢
      rw [if_neg (by decide), if_pos (by decide)]
      rw [hfebruary] at hfull
      have hmarch : monthStart (marchMonth (2 + 1)) = 0 := rfl
      omega
    · rw [if_neg hfebruary] at hend
      simp only [dayNumber, dayOfYear, marchYear]
      have hnext : marchMonth (t.month + 1) = marchMonth t.month + 1 := by
        rw [marchMonth, marchMonth]
        split_ifs <;> omega
      have hsame : (if t.month + 1 ≤ 2 then t.year - 1 else t.year) =
          if t.month ≤ 2 then t.year - 1 else t.year := by
        split_ifs <;> omega
      rw [hnext, hsame]
      omega
  · have hdecember : t.month = 12 := by omega
    have hfull : t.day = monthLength t.year t.month := by omega
    rw [hdecember] at hend hfull
    simp only [dayNumber, dayOfYear, marchYear, hdecember]
    rw [if_pos (by decide), if_neg (by decide)]
    have hjanuary : monthStart (marchMonth 1) = 306 := rfl
    have hthis : monthStart (marchMonth 12) = 275 := rfl
    have hlength : monthLength t.year 12 = 31 := rfl
    rw [hjanuary, hthis, hfull, hlength, add_sub_cancel_right]
    omega

end Date

/-! ### The year of a day -/

def yearOfEra (day : ℤ) : ℤ :=
  (day - day / 1460 + day / 36524 - day / 146096) / 365

theorem yearOfEra_le_succ (a : ℤ) : yearOfEra a ≤ yearOfEra (a + 1) := by
  have hstep : a - a / 1460 + a / 36524 - a / 146096 ≤
      a + 1 - (a + 1) / 1460 + (a + 1) / 36524 - (a + 1) / 146096 := by
    -- every fourth century ends where a century does
    have hcentury : a / 36524 / 4 = a / 146096 := Int.ediv_ediv_of_nonneg (by decide)
    have hcentury' : (a + 1) / 36524 / 4 = (a + 1) / 146096 := Int.ediv_ediv_of_nonneg (by decide)
    omega
  exact Int.ediv_le_ediv (by decide) hstep

theorem yearOfEra_mono {a b : ℤ} (hle : a ≤ b) : yearOfEra a ≤ yearOfEra b := by
  induction b, hle using Int.leInduction with
  | base => exact le_rfl
  | succ b hab ih => exact ih.trans (yearOfEra_le_succ b)

theorem yearOfEra_ends : ∀ k : Fin 400, yearOfEra (yearStart (k.val : ℤ)) = (k.val : ℤ) ∧
    yearOfEra (yearStart ((k.val : ℤ) + 1) - 1) = (k.val : ℤ) := by
  decide +kernel

theorem exists_year (n : ℕ) : ∃ k : ℕ, yearStart k ≤ n ∧ (n : ℤ) < yearStart (k + 1) := by
  induction n with
  | zero => exact ⟨0, by decide⟩
  | succ n ih =>
    obtain ⟨k, hk, hk'⟩ := ih
    have hnext := yearStart_lt_succ (k + 1)
    by_cases h : ((n + 1 : ℕ) : ℤ) < yearStart (k + 1)
    · exact ⟨k, by omega, h⟩
    · refine ⟨k + 1, ?_, ?_⟩
      · push_cast at h ⊢
        omega
      · push_cast at h ⊢
        omega

theorem yearOfEra_spec {day : ℤ} (h : 0 ≤ day) (h' : day < 146097) :
    (0 ≤ yearOfEra day ∧ yearOfEra day < 400) ∧ yearStart (yearOfEra day) ≤ day ∧
      day < yearStart (yearOfEra day + 1) := by
  lift day to ℕ using h
  obtain ⟨k, hk, hk'⟩ := exists_year day
  have hlt : k < 400 := by
    by_contra hle
    have hera : yearStart 400 = 146097 := rfl
    have hmono := yearStart_mono (by omega : (400 : ℤ) ≤ k)
    omega
  obtain ⟨hfirst, hlast⟩ := yearOfEra_ends ⟨k, hlt⟩
  have hlow := yearOfEra_mono hk
  have hhigh := yearOfEra_mono (by omega : (day : ℤ) ≤ yearStart (k + 1) - 1)
  have hyear : yearOfEra day = k := le_antisymm (hlast ▸ hhigh) (hfirst ▸ hlow)
  rw [hyear]
  exact ⟨⟨Int.natCast_nonneg k, by omega⟩, hk, hk'⟩

end Gregorian
