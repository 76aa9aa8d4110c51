import Mathlib.Data.Nat.Log
import Mathlib.Tactic.Ring

/-!
# Rounding to binary64

The magnitude of a finite binary64 number is a whole number of units of `2 ^ -1074`: at most 53
binary digits and then zeros. A ratio of two natural numbers is rounded to the nearest of them, a
tie to the even one; a whole number that 53 digits can hold is itself, and a larger one stays a
whole number.
-/

namespace Binary64

def places : ℕ := 1074

def digits : ℕ := 1024

/-- The units in `1`. -/
def one : ℕ := 2 ^ places

/-- The units in `2 ^ 1024`, the first magnitude out of range. -/
def limit : ℕ := 2 ^ digits * one

/-- `a / b` to the nearest whole number, a tie to the even one. -/
def halfEven (a b : ℕ) : ℕ :=
  if 2 * (a % b) < b ∨ (2 * (a % b) = b ∧ a / b % 2 = 0) then a / b else a / b + 1

/-- The binary digits of `n / d`, in units, that are behind the 53 leading ones. -/
def dropped (n d : ℕ) : ℕ :=
  (n * one / d).log2 - 52

/-- `n / d` in units, to the nearest number of 53 leading digits. -/
def nearest (n d : ℕ) : ℕ :=
  halfEven (n * one) (d * 2 ^ dropped n d) * 2 ^ dropped n d

/-- The number nearest to `n / d`, in units; none beyond the largest, and none where one that is not
zero would become zero. -/
def ofRatio (n d : ℕ) : Option ℕ :=
  if n = 0 then some 0
  else if nearest n d = 0 ∨ limit ≤ nearest n d then none
  else some (nearest n d)

def nextMagnitude (u : ℕ) : ℕ :=
  u + 2 ^ (u.log2 - 52)

def previousMagnitude (u : ℕ) : ℕ :=
  u - 2 ^ ((u - 1).log2 - 52)

theorem lt_nextMagnitude (u : ℕ) : u < nextMagnitude u :=
  Nat.lt_add_of_pos_right (Nat.two_pow_pos _)

theorem previousMagnitude_lt {u : ℕ} (h : 0 < u) : previousMagnitude u < u :=
  Nat.sub_lt h (Nat.two_pow_pos _)

theorem one_pos : 0 < one :=
  Nat.two_pow_pos places

theorem halfEven_of_dvd {a b : ℕ} (hb : 0 < b) (h : b ∣ a) : halfEven a b = a / b := by
  rw [halfEven, Nat.mod_eq_zero_of_dvd h, if_pos (.inl hb)]

theorem le_halfEven (a b : ℕ) : a / b ≤ halfEven a b := by
  rw [halfEven]
  split
  next => exact Nat.le_refl _
  next => exact Nat.le_succ _

theorem halfEven_le (a b : ℕ) : halfEven a b ≤ a / b + 1 := by
  rw [halfEven]
  split
  next => exact Nat.le_succ _
  next => exact Nat.le_refl _

theorem halfEven_mono {a a' b : ℕ} (h : a ≤ a') : halfEven a b ≤ halfEven a' b := by
  rcases (Nat.div_le_div_right (c := b) h).lt_or_eq with hlt | heq
  · calc
      halfEven a b ≤ a / b + 1 := halfEven_le a b
      _ ≤ a' / b := hlt
      _ ≤ halfEven a' b := le_halfEven a' b
  · have hmod : a % b ≤ a' % b := by
      have ha := Nat.div_add_mod a b
      have ha' := Nat.div_add_mod a' b
      rw [heq] at ha
      omega
    rw [halfEven, halfEven, heq]
    split
    next => split <;> omega
    next hup =>
      rw [if_neg]
      omega

section

variable {n : ℕ}

theorem nearest_whole : nearest n 1 = halfEven (n * one) (2 ^ dropped n 1) * 2 ^ dropped n 1 := by
  rw [nearest, Nat.one_mul]

theorem pow_dropped_le (h : 0 < n) : 2 ^ dropped n 1 ≤ n * one := by
  have hpos : n * one ≠ 0 := (Nat.mul_pos h one_pos).ne'
  calc
    2 ^ dropped n 1 ≤ 2 ^ (n * one).log2 := by
      rw [dropped, Nat.div_one]
      exact Nat.pow_le_pow_right Nat.two_pos (Nat.sub_le _ _)
    _ ≤ n * one := Nat.log2_self_le hpos

theorem nearest_eq_of_dropped_le (h : dropped n 1 ≤ places) : nearest n 1 = n * one := by
  have hdvd : 2 ^ dropped n 1 ∣ n * one := Dvd.dvd.mul_left (Nat.pow_dvd_pow 2 h) n
  rw [nearest_whole, halfEven_of_dvd (Nat.two_pow_pos _) hdvd, Nat.div_mul_cancel hdvd]

theorem log2_mul_one (h : 0 < n) : (n * one).log2 = n.log2 + places := by
  have hpos : n * one ≠ 0 := (Nat.mul_pos h one_pos).ne'
  refine (Nat.log2_eq_iff hpos).mpr ⟨?_, ?_⟩
  · rw [Nat.pow_add]
    exact Nat.mul_le_mul_right _ (Nat.log2_self_le h.ne')
  · rw [Nat.add_right_comm, Nat.pow_add]
    exact Nat.mul_lt_mul_of_pos_right Nat.lt_log2_self one_pos

theorem nearest_eq_of_lt (h : n < 2 ^ 53) : nearest n 1 = n * one := by
  rcases Nat.eq_zero_or_pos n with rfl | hpos
  · refine nearest_eq_of_dropped_le ?_
    rw [dropped, Nat.zero_mul, Nat.zero_div, Nat.log2_zero]
    exact Nat.zero_le _
  · refine nearest_eq_of_dropped_le ?_
    have hlog : n.log2 < 53 := (Nat.log2_lt hpos.ne').mpr h
    rw [dropped, Nat.div_one, log2_mul_one hpos, places]
    omega

theorem one_dvd_nearest : one ∣ nearest n 1 := by
  rcases Nat.le_total (dropped n 1) places with h | h
  · rw [nearest_eq_of_dropped_le h]
    exact Nat.dvd_mul_left _ _
  · rw [nearest_whole]
    exact Dvd.dvd.mul_left (Nat.pow_dvd_pow 2 h) _

theorem nearest_pos (h : 0 < n) : 0 < nearest n 1 := by
  rw [nearest_whole]
  have hle : 0 < n * one / 2 ^ dropped n 1 := Nat.div_pos (pow_dropped_le h) (Nat.two_pow_pos _)
  exact Nat.mul_pos (hle.trans_le (le_halfEven _ _)) (Nat.two_pow_pos _)

theorem nearest_le (h : 0 < n) : nearest n 1 ≤ 2 * (n * one) := by
  rw [nearest_whole]
  calc
    halfEven (n * one) (2 ^ dropped n 1) * 2 ^ dropped n 1
      ≤ (n * one / 2 ^ dropped n 1 + 1) * 2 ^ dropped n 1 :=
        Nat.mul_le_mul_right _ (halfEven_le _ _)
    _ = n * one / 2 ^ dropped n 1 * 2 ^ dropped n 1 + 2 ^ dropped n 1 := by ring
    _ ≤ n * one + n * one := Nat.add_le_add (Nat.div_mul_le_self _ _) (pow_dropped_le h)
    _ = 2 * (n * one) := (Nat.two_mul _).symm

theorem nearest_lt_limit (h : 0 < n) (hn : n < 2 ^ 64) : nearest n 1 < limit := by
  have hn : 2 * n < 2 ^ digits := by
    calc
      2 * n < 2 * 2 ^ 64 := Nat.mul_lt_mul_of_pos_left hn Nat.two_pos
      _ = 2 ^ 65 := rfl
      _ ≤ 2 ^ digits := Nat.pow_le_pow_right Nat.two_pos (by decide)
  calc
    nearest n 1 ≤ 2 * (n * one) := nearest_le h
    _ = 2 * n * one := (Nat.mul_assoc _ _ _).symm
    _ < limit := Nat.mul_lt_mul_of_pos_right hn one_pos

theorem log2_le : (n * one).log2 ≤ dropped n 1 + 52 := by
  rw [dropped, Nat.div_one]
  omega

theorem nearest_le_pow (h : 0 < n) : nearest n 1 ≤ 2 ^ (dropped n 1 + 53) := by
  have hpos : n * one ≠ 0 := (Nat.mul_pos h one_pos).ne'
  have hlt : n * one < 2 ^ 53 * 2 ^ dropped n 1 := by
    rw [← Nat.pow_add]
    exact (Nat.log2_lt hpos).mp (by have := log2_le (n := n); omega)
  have hdiv : n * one / 2 ^ dropped n 1 < 2 ^ 53 :=
    (Nat.div_lt_iff_lt_mul (Nat.two_pow_pos _)).mpr hlt
  rw [nearest_whole]
  calc
    halfEven (n * one) (2 ^ dropped n 1) * 2 ^ dropped n 1 ≤ 2 ^ 53 * 2 ^ dropped n 1 :=
      Nat.mul_le_mul_right _ ((halfEven_le _ _).trans hdiv)
    _ = 2 ^ (dropped n 1 + 53) := by rw [← Nat.pow_add, Nat.add_comm]

theorem pow_le_nearest (h : 0 < dropped n 1) : 2 ^ (dropped n 1 + 52) ≤ nearest n 1 := by
  have hlog : (n * one).log2 = dropped n 1 + 52 := by
    rw [dropped, Nat.div_one] at h ⊢
    omega
  have hpos : n * one ≠ 0 := by
    intro hzero
    rw [hzero, Nat.log2_zero] at hlog
    omega
  have hle : 2 ^ 52 * 2 ^ dropped n 1 ≤ n * one := by
    rw [← Nat.pow_add, Nat.add_comm, ← hlog]
    exact Nat.log2_self_le hpos
  rw [nearest_whole, Nat.add_comm, Nat.pow_add]
  exact Nat.mul_le_mul_right _
    (((Nat.le_div_iff_mul_le (Nat.two_pow_pos _)).mpr hle).trans (le_halfEven _ _))

theorem nearest_mono : Monotone fun n => nearest n 1 := by
  intro n m h
  change nearest n 1 ≤ nearest m 1
  rcases Nat.eq_zero_or_pos n with rfl | hpos
  · rw [nearest_eq_of_lt (Nat.two_pow_pos 53), Nat.zero_mul]
    exact Nat.zero_le _
  · have hmul : n * one ≤ m * one := Nat.mul_le_mul_right _ h
    have hdropped : dropped n 1 ≤ dropped m 1 := by
      rw [dropped, dropped, Nat.div_one, Nat.div_one, Nat.log2_eq_log_two, Nat.log2_eq_log_two]
      exact Nat.sub_le_sub_right (Nat.log_mono_right hmul) _
    rcases hdropped.lt_or_eq with hlt | heq
    · calc
        nearest n 1 ≤ 2 ^ (dropped n 1 + 53) := nearest_le_pow hpos
        _ ≤ 2 ^ (dropped m 1 + 52) := Nat.pow_le_pow_right Nat.two_pos (by omega)
        _ ≤ nearest m 1 := pow_le_nearest (Nat.zero_lt_of_lt hlt)
    · rw [nearest_whole, nearest_whole, heq]
      exact Nat.mul_le_mul_right _ (halfEven_mono hmul)

theorem ofRatio_whole (h : n < 2 ^ 64) : ofRatio n 1 = some (nearest n 1) := by
  rcases Nat.eq_zero_or_pos n with rfl | hpos
  · rw [nearest_eq_of_lt (by omega), Nat.zero_mul]
    rfl
  · have hrange : ¬ (nearest n 1 = 0 ∨ limit ≤ nearest n 1) := by
      rintro (hzero | hlimit)
      · exact (nearest_pos hpos).ne' hzero
      · exact absurd (nearest_lt_limit hpos h) (Nat.not_lt.mpr hlimit)
    rw [ofRatio, if_neg hpos.ne', if_neg hrange]

end

end Binary64
