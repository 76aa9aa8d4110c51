import Mathlib.Data.Rat.Floor

/-!
# Rounding half away from zero

The nearest integer to a fraction, of two equally near ones the one further from zero, and how a
truncated quotient and its remainder give it; beside it the fraction cut off toward zero.
-/

namespace Rounding

def halfAway (q : ℚ) : ℤ :=
  if q < 0 then -round (-q) else round q

theorem halfAway_of_nonneg {q : ℚ} (h : 0 ≤ q) : halfAway q = round q := by
  rw [halfAway, if_neg (not_lt.mpr h)]

theorem halfAway_neg (q : ℚ) : halfAway (-q) = -halfAway q := by
  rw [halfAway, halfAway, neg_neg]
  rcases lt_trichotomy q 0 with h | rfl | h
  · rw [if_neg (not_lt.mpr (neg_nonneg.mpr h.le)), if_pos h, neg_neg]
  · simp
  · rw [if_pos (neg_lt_zero.mpr h), if_neg (not_lt.mpr h.le)]

theorem halfAway_natCast_div {n d : ℕ} (hd : 0 < d) :
    halfAway (n / d) = (n / d : ℕ) + if d - n % d ≤ n % d then 1 else 0 := by
  have hpos : (0 : ℚ) < d := Nat.cast_pos.mpr hd
  have hsplit : (n : ℚ) = d * (n / d : ℕ) + (n % d : ℕ) := by
    exact_mod_cast (Nat.div_add_mod n d).symm
  have hlt : ((n % d : ℕ) : ℚ) < d := by exact_mod_cast Nat.mod_lt n hd
  have hrem : (0 : ℚ) ≤ (n % d : ℕ) := Nat.cast_nonneg _
  have hquot : (n : ℚ) / d = (n / d : ℕ) + (n % d : ℕ) / d := by
    rw [eq_comm, ← mul_right_inj' hpos.ne', mul_add, mul_div_cancel₀ _ hpos.ne',
      mul_div_cancel₀ _ hpos.ne', ← hsplit]
  have hhalf : d - n % d ≤ n % d ↔ (1 / 2 : ℚ) ≤ (n % d : ℕ) / d := by
    rw [div_le_div_iff₀ two_pos hpos]
    constructor
    · intro h
      have h2 : d ≤ 2 * (n % d) := by omega
      have : (d : ℚ) ≤ 2 * (n % d : ℕ) := by exact_mod_cast h2
      linarith
    · intro h
      have : (d : ℚ) ≤ 2 * (n % d : ℕ) := by linarith
      have h2 : d ≤ 2 * (n % d) := by exact_mod_cast this
      omega
  have hfrac : ((n % d : ℕ) : ℚ) / d < 1 := (div_lt_one hpos).mpr hlt
  have hfrac0 : (0 : ℚ) ≤ (n % d : ℕ) / d := div_nonneg hrem hpos.le
  rw [halfAway_of_nonneg (div_nonneg n.cast_nonneg d.cast_nonneg), round_eq, Int.floor_eq_iff,
    hquot]
  split_ifs with h
  · have hge := hhalf.mp h
    rw [Int.cast_add, Int.cast_natCast, Int.cast_one]
    constructor <;> linarith
  · have hlt2 := not_le.mp (mt hhalf.mpr h)
    rw [Int.cast_add, Int.cast_natCast, Int.cast_zero]
    constructor <;> linarith

theorem halfAway_intCast_div {n d : ℤ} (hd : 0 < d) :
    halfAway (n / d) = n.tdiv d +
      if d - |n.tmod d| ≤ |n.tmod d| then (if n < 0 then -1 else 1) else 0 := by
  lift d to ℕ using hd.le
  have hd : 0 < d := Int.natCast_pos.mp hd
  have hcond : ∀ m : ℕ, (d : ℤ) - |((m % d : ℕ) : ℤ)| ≤ |((m % d : ℕ) : ℤ)| ↔
      d - m % d ≤ m % d := by
    intro m
    rw [Nat.abs_cast]
    have hlt := Nat.mod_lt m hd
    omega
  obtain ⟨m, rfl | rfl⟩ := n.eq_nat_or_neg
  · rw [← Int.ofNat_tdiv, ← Int.ofNat_tmod, if_neg (not_lt.mpr (Int.natCast_nonneg m))]
    simp only [hcond]
    exact halfAway_natCast_div hd
  · have hneg : halfAway ((-(m : ℤ) : ℤ) / (d : ℤ)) = -halfAway (m / d) := by
      rw [← halfAway_neg, Int.cast_neg, Int.cast_natCast, Int.cast_natCast, neg_div]
    rw [hneg, halfAway_natCast_div hd, Int.neg_tdiv, Int.neg_tmod, abs_neg, ← Int.ofNat_tdiv,
      ← Int.ofNat_tmod]
    simp only [hcond]
    split_ifs with h h0
    · exact neg_add _ _
    · have hm : m = 0 := by omega
      rw [hm, Nat.zero_mod] at h
      omega
    · rw [add_zero, add_zero]

def towardZero (q : ℚ) : ℤ :=
  if q < 0 then -⌊-q⌋ else ⌊q⌋

theorem towardZero_of_nonneg {q : ℚ} (h : 0 ≤ q) : towardZero q = ⌊q⌋ := by
  rw [towardZero, if_neg (not_lt.mpr h)]

theorem towardZero_neg (q : ℚ) : towardZero (-q) = -towardZero q := by
  rw [towardZero, towardZero, neg_neg]
  rcases lt_trichotomy q 0 with h | rfl | h
  · rw [if_neg (not_lt.mpr (neg_nonneg.mpr h.le)), if_pos h, neg_neg]
  · simp
  · rw [if_pos (neg_lt_zero.mpr h), if_neg (not_lt.mpr h.le)]

def roundOrCut (cut : Bool) (q : ℚ) : ℤ :=
  if cut then towardZero q else halfAway q

variable (cut : Bool)

theorem roundOrCut_neg (q : ℚ) : roundOrCut cut (-q) = -roundOrCut cut q := by
  cases cut
  · exact halfAway_neg q
  · exact towardZero_neg q

theorem roundOrCut_natCast_div {n d : ℕ} (hd : 0 < d) :
    roundOrCut cut (n / d) = (n / d : ℕ) + if cut = false ∧ d ≤ 2 * (n % d) then 1 else 0 := by
  cases cut with
  | true =>
    have hnonneg : (0 : ℚ) ≤ n / d := div_nonneg n.cast_nonneg d.cast_nonneg
    rw [if_neg (fun h => Bool.noConfusion h.1), add_zero, roundOrCut, if_pos rfl,
      towardZero_of_nonneg hnonneg, Rat.floor_natCast_div_natCast]
    rfl
  | false =>
    have hhalf : d - n % d ≤ n % d ↔ false = false ∧ d ≤ 2 * (n % d) := by
      rw [and_iff_right rfl]
      have := Nat.mod_lt n hd
      omega
    rw [roundOrCut, if_neg Bool.false_ne_true, halfAway_natCast_div hd]
    simp only [hhalf]

theorem roundOrCut_natCast (n : ℕ) : roundOrCut cut n = n := by
  have h := roundOrCut_natCast_div cut (n := n) one_pos
  rw [Nat.cast_one, div_one, Nat.div_one, Nat.mod_one, if_neg (by omega), add_zero] at h
  exact h

theorem roundOrCut_intCast (v : ℤ) : roundOrCut cut v = v := by
  obtain ⟨n, rfl | rfl⟩ := v.eq_nat_or_neg
  · rw [Int.cast_natCast, roundOrCut_natCast]
  · rw [Int.cast_neg, Int.cast_natCast, roundOrCut_neg, roundOrCut_natCast]

theorem roundOrCut_floor_div {y : ℚ} (hy : 0 ≤ y) :
    roundOrCut cut ((⌊y⌋ : ℚ) / 10) = roundOrCut cut (y / 10) := by
  have hfloor : (0 : ℚ) ≤ ⌊y⌋ := Int.cast_nonneg (Int.floor_nonneg.mpr hy)
  have hfloor' : (0 : ℚ) ≤ ⌊y⌋ / 10 := div_nonneg hfloor (by norm_num)
  have hy' : 0 ≤ y / 10 := div_nonneg hy (by norm_num)
  have hten (z : ℚ) : ⌊z / 10⌋ = ⌊z⌋ / 10 := Int.floor_div_natCast z 10
  cases cut with
  | true =>
    rw [roundOrCut, roundOrCut, if_pos rfl, if_pos rfl, towardZero_of_nonneg hfloor',
      towardZero_of_nonneg hy', hten, hten, Int.floor_intCast]
  | false =>
    have hhalf (z : ℚ) : z / 10 + 1 / 2 = (z + (5 : ℤ)) / 10 := by
      push_cast
      ring
    rw [roundOrCut, roundOrCut, if_neg Bool.false_ne_true, if_neg Bool.false_ne_true,
      halfAway_of_nonneg hfloor', halfAway_of_nonneg hy', round_eq, round_eq, hhalf, hhalf, hten,
      hten, Int.floor_add_intCast, Int.floor_add_intCast, Int.floor_intCast]

end Rounding
