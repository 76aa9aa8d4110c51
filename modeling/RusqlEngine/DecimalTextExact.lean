import RusqlEngine.DecimalSpelling

/-!
# Decimals keep their values

Rounding a decimal on its digits gives the nearest multiple of a power of ten, or the next one
toward zero; a decimal that is written spells what it denotes; and the decimals and the numbers with
a scale denote the same fractions.
-/

namespace RusqlEngine.SqlVal

open Buffer (Bytes)
open DigitText
open Rounding (roundOrCut)
open NumericText (int64Of minus point signedBy PlainDecimal)

variable {s : Bytes}

theorem value_eq_zero_iff (hs : ∀ b ∈ s, IsDigit b) : value s = 0 ↔ ∀ b ∈ s, b = 0x30 := by
  constructor
  · intro h
    have hdrop := dropWhile_zeros_eq hs
    rw [if_pos h, List.dropWhile_eq_nil_iff] at hdrop
    exact fun b hb => of_decide_eq_true (hdrop b hb)
  · intro h
    rw [List.eq_replicate_of_mem h, ← List.append_nil (List.replicate _ _), value_zeros_append]
    rfl

namespace Decimal

variable {d : Decimal}

def units (d : Decimal) : ℕ :=
  value (d.integer ++ d.fraction)

theorem units_numeral (negative : Bool) (n : ℕ) : units ⟨negative, numeral n, []⟩ = n := by
  rw [units, List.append_nil, value_numeral]

theorem Valid.all_digits (h : d.Valid) : ∀ b ∈ d.integer ++ d.fraction, IsDigit b := fun b hb =>
  (List.mem_append.mp hb).elim (h.integer.digits b) (h.fraction b)

theorem Valid.isZero_iff (h : d.Valid) : d.isZero ↔ d.units = 0 := by
  have hinteger : value d.integer = 0 ↔ d.integer = zeroDigits := by
    conv_rhs => rw [h.integer.eq_numeral]
    exact numeral_eq_zeroDigits.symm
  have hpos : 0 < 10 ^ d.fraction.length := Nat.pow_pos (by decide)
  rw [isZero, decide_eq_true_iff, ← value_eq_zero_iff h.fraction, units, value_append,
    Nat.add_eq_zero_iff, Nat.mul_eq_zero, hinteger]
  simp only [hpos.ne', or_false]

/-! ### One unit more -/

theorem increment_spec (hs : ∀ b ∈ s, IsDigit b) :
    (∀ b ∈ increment s, IsDigit b) ∧ valueReversed (increment s) = valueReversed s + 1 ∧
      ((increment s).length = s.length ∨
        ∃ init, increment s = init ++ [0x31] ∧ init.length = s.length) := by
  induction s with
  | nil => exact ⟨List.forall_mem_singleton.mpr (by decide), rfl, .inr ⟨[], rfl, rfl⟩⟩
  | cons c rest ih =>
    obtain ⟨hc, hrest⟩ := List.forall_mem_cons.mp hs
    obtain ⟨hdigits, hvalue, hlength⟩ := ih hrest
    rw [increment]
    split
    next hnine =>
      refine ⟨List.forall_mem_cons.mpr ⟨isDigit_zero, hdigits⟩, ?_, ?_⟩
      · have hzero : digit 0x30 = 0 := rfl
        have hc9 : digit 0x39 = 9 := rfl
        rw [valueReversed_cons, valueReversed_cons, hvalue, hnine, hzero, hc9]
        omega
      · refine hlength.imp (congrArg (· + 1)) ?_
        rintro ⟨init, hinit, hlen⟩
        exact ⟨0x30 :: init, congrArg (0x30 :: ·) hinit, congrArg (· + 1) hlen⟩
    next hnine =>
      have hval := isDigit_iff_val.mp hc
      have hlt : c.val < 0x39 := lt_of_le_of_ne hval.2 fun h => hnine (Fin.ext h)
      have hnext : (c + 1).val = c.val + 1 := by
        rw [Fin.val_add]
        exact Nat.mod_eq_of_lt (by omega)
      refine ⟨List.forall_mem_cons.mpr ⟨isDigit_iff_val.mpr (by omega), hrest⟩, ?_, .inl rfl⟩
      rw [valueReversed_cons, valueReversed_cons, digit, digit, hnext]
      omega

/-- Digits worth as much as a numeral with a fraction, and not longer where they start with a zero,
have a numeral before the fraction. -/
theorem isNumeral_take {t out : Bytes} (hs : IsNumeral s) (hdigits : ∀ b ∈ out, IsDigit b)
    (hlong : s.length + t.length ≤ out.length) (hvalue : value (s ++ t) ≤ value out)
    (hhead : out.head? = some 0x30 → out.length = s.length + t.length) :
    IsNumeral (out.take (out.length - t.length)) where
  digits b hb := hdigits b (List.mem_of_mem_take hb)
  nonempty := by
    have hpos : 0 < s.length := List.length_pos_iff.mpr hs.nonempty
    refine List.ne_nil_of_length_pos ?_
    rw [List.length_take]
    omega
  lead hlead := by
    obtain ⟨u, hu⟩ := List.head?_eq_some_iff.mp hlead
    have hsplit : out = 0x30 :: (u ++ out.drop (out.length - t.length)) := by
      conv_lhs => rw [← List.take_append_drop (out.length - t.length) out, hu]
      rfl
    have hlength := hhead (hsplit ▸ rfl)
    -- the numeral starts with a zero as well, so that it is one digit
    have hone : s = [0x30] := by
      refine hs.lead ?_
      obtain ⟨c, v, hv⟩ := List.exists_cons_of_ne_nil hs.nonempty
      by_contra hc
      have hleast : 10 ^ (v ++ t).length ≤ value (c :: (v ++ t)) :=
        le_value (hs.digits c (hv ▸ List.mem_cons_self)) fun hzero => hc (by rw [hv, hzero]; rfl)
      have hmost := value_lt fun b hb => hdigits b (hsplit ▸ List.mem_cons_of_mem 0x30 hb)
      have hlen := congrArg List.length hsplit
      rw [← value_zero_cons, ← hsplit] at hmost
      rw [← List.cons_append, ← hv, List.length_append] at hleast
      rw [hv, List.length_cons] at hlength
      rw [List.length_cons] at hlen
      have hexp : (u ++ out.drop (out.length - t.length)).length = v.length + t.length := by omega
      rw [hexp] at hmost
      exact absurd (hleast.trans hvalue) (not_le.mpr hmost)
    have htake := congrArg List.length hu
    rw [List.length_take, hlength, hone, List.length_singleton, List.length_cons] at htake
    rw [hu, List.length_eq_zero_iff.mp (by omega : u.length = 0)]

theorem addUnit_spec (h : d.Valid) : (d.addUnit d.fraction.length).Valid ∧
    (d.addUnit d.fraction.length).negative = d.negative ∧
      (d.addUnit d.fraction.length).fraction.length = d.fraction.length ∧
        (d.addUnit d.fraction.length).units = d.units + 1 := by
  obtain ⟨hdigits, hvalue, hlength⟩ :=
    increment_spec (s := (d.integer ++ d.fraction).reverse)
      fun b hb => h.all_digits b (List.mem_reverse.mp hb)
  set out := (increment (d.integer ++ d.fraction).reverse).reverse with hout
  have hall : ∀ b ∈ out, IsDigit b := fun b hb => hdigits b (List.mem_reverse.mp hb)
  have hunits : value out = d.units + 1 := by
    rw [valueReversed, valueReversed, List.reverse_reverse] at hvalue
    exact hvalue
  rw [List.length_reverse, List.length_append, ← List.length_reverse, ← hout] at hlength
  have hlong : d.integer.length + d.fraction.length ≤ out.length := by
    rcases hlength with hlength | ⟨init, hinit, hlen⟩
    · exact hlength.ge
    · rw [hout, hinit, List.length_reverse, List.length_append, hlen]
      exact Nat.le_add_right _ _
  have hnumeral := isNumeral_take (t := d.fraction) h.integer hall hlong
    (hunits ▸ Nat.le_succ _) fun hhead => by
      refine hlength.resolve_right ?_
      rintro ⟨init, hinit, -⟩
      rw [hout, hinit, List.reverse_append] at hhead
      exact absurd (Option.some.inj hhead) (by decide)
  have hunit : d.addUnit d.fraction.length = { d with
      integer := out.take (out.length - d.fraction.length)
      fraction := out.drop (out.length - d.fraction.length) } := by
    rw [addUnit, List.take_length, ← hout]
    simp only [if_neg hnumeral.nonempty]
  rw [hunit]
  refine ⟨⟨hnumeral, fun b hb => hall b (List.mem_of_mem_drop hb)⟩, rfl, ?_, ?_⟩
  · rw [List.length_drop]
    omega
  · rw [units, List.take_append_drop, hunits]

/-! ### Rounding -/

section

def roundedUnits (units drop : ℕ) (cut : Bool) : ℕ :=
  units / 10 ^ drop + if cut = false ∧ 10 ^ drop ≤ 2 * (units % 10 ^ drop) then 1 else 0

variable {drop : ℕ}

theorem up_eq (hs : ∀ b ∈ s, IsDigit b) (hpos : 0 < drop) (hdrop : drop ≤ s.length) (cut : Bool) :
    (!cut && decide (0x35 ≤ s.getD (s.length - drop) 0)) =
      decide (cut = false ∧ 10 ^ drop ≤ 2 * (value s % 10 ^ drop)) := by
  obtain ⟨k, rfl⟩ := Nat.exists_eq_add_one_of_ne_zero hpos.ne'
  rw [Bool.decide_and, decide_eq_decide.mpr (five_le_iff hs hdrop)]
  cases cut <;> rfl

theorem roundedBehind_spec (h : d.Valid) {places : ℕ} (hlt : places < d.fraction.length)
    (cut : Bool) : (d.roundedBehind places cut).Valid ∧
      (d.roundedBehind places cut).negative = d.negative ∧
        (d.roundedBehind places cut).fraction.length = places ∧
          (d.roundedBehind places cut).units =
            roundedUnits d.units (d.fraction.length - places) cut := by
  have hlen : (d.integer ++ d.fraction).length - (d.fraction.length - places) =
      d.integer.length + places := by
    rw [List.length_append]
    omega
  have hshort : d.fraction.length - places ≤ (d.integer ++ d.fraction).length := by
    rw [List.length_append]
    omega
  have hresize : resize d.fraction places = d.fraction.take places := by
    rw [resize, Nat.sub_eq_zero_of_le hlt.le, List.replicate_zero, List.append_nil]
  have hkept := (value_take_drop h.all_digits hshort).1
  rw [hlen, List.take_length_add_append] at hkept
  have hup := up_eq h.all_digits (by omega : 0 < d.fraction.length - places) hshort cut
  rw [hlen, List.getD_eq_getElem?_getD, List.getElem?_append_right (Nat.le_add_right _ _),
    Nat.add_sub_cancel_left, ← List.getD_eq_getElem?_getD] at hup
  set r : Decimal := { d with fraction := d.fraction.take places } with hr
  have hvalid : r.Valid := ⟨h.integer, fun b hb => h.fraction b (List.mem_of_mem_take hb)⟩
  have hplaces : r.fraction.length = places := List.length_take_of_le hlt.le
  have hunits : r.units = d.units / 10 ^ (d.fraction.length - places) := hkept
  rw [roundedBehind, if_neg (not_le.mpr hlt), hresize, ← hr, hup, roundedUnits]
  change _ ∧ _ ∧ _ ∧ _ = _ + if cut = false ∧ _ ≤ 2 * (value (d.integer ++ d.fraction) % _)
    then 1 else 0
  by_cases hround : cut = false ∧ 10 ^ (d.fraction.length - places) ≤
      2 * (value (d.integer ++ d.fraction) % 10 ^ (d.fraction.length - places))
  · have hunit := addUnit_spec hvalid
    rw [hplaces, hunits] at hunit
    simp only [decide_eq_true hround, if_pos hround, if_true]
    exact hunit
  · simp only [decide_eq_false hround, if_neg hround]
    exact ⟨hvalid, rfl, hplaces, hunits⟩

theorem take_numeral (hs : IsNumeral s) (hpos : 0 < drop) (hdrop : drop ≤ s.length) :
    (if s.take (s.length - drop) = [] then zeroDigits else s.take (s.length - drop)) =
      numeral (value s / 10 ^ drop) := by
  have hvalue := (value_take_drop hs.digits hdrop).1
  split
  next hnil =>
    rw [hnil] at hvalue
    exact (numeral_eq_zeroDigits.mpr hvalue.symm).symm
  next hne =>
    rw [← hvalue]
    refine IsNumeral.eq_numeral ⟨fun b hb => hs.digits b (List.mem_of_mem_take hb), hne, ?_⟩
    intro hhead
    obtain ⟨t, ht⟩ := List.head?_eq_some_iff.mp hhead
    have hone : s = [0x30] := by
      refine hs.lead ?_
      rw [← List.take_append_drop (s.length - drop) s, ht]
      rfl
    rw [hone, List.length_singleton, Nat.sub_eq_zero_of_le hpos] at hne
    exact absurd rfl hne

theorem numeral_zeros (n drop : ℕ) :
    (if ∀ b ∈ numeral n ++ List.replicate drop 0x30, b = 0x30 then zeroDigits
      else numeral n ++ List.replicate drop 0x30) = numeral (n * 10 ^ drop) := by
  have hzeros := value_eq_zero_iff (isDigit_append_zeros (fun _ => digit_mem_numeral (n := n)) drop)
  rw [value_append_zeros, value_numeral] at hzeros
  rcases Nat.eq_zero_or_pos n with rfl | hn
  · rw [if_pos (hzeros.mp (Nat.zero_mul _)), Nat.zero_mul]
    rfl
  · have hne : n * 10 ^ drop ≠ 0 := (Nat.mul_pos hn (Nat.pow_pos (by decide))).ne'
    rw [if_neg fun h => hne (hzeros.mpr h), numeral_append_zeros hn]

theorem roundedBefore_spec (h : d.Valid) (hpos : 0 < drop) (cut : Bool) :
    d.roundedBefore drop cut = ⟨d.negative,
      numeral (roundedUnits (value d.integer) drop cut * 10 ^ drop), []⟩ := by
  rw [roundedBefore, roundedUnits]
  split
  next hshort =>
    -- every digit is behind the one that decides
    have hlt : value d.integer * 10 < 10 ^ drop := by
      have hsmall := value_lt h.integer.digits
      calc value d.integer * 10 < 10 ^ d.integer.length * 10 :=
            Nat.mul_lt_mul_of_pos_right hsmall (by decide)
        _ = 10 ^ (d.integer.length + 1) := (pow_succ _ _).symm
        _ ≤ 10 ^ drop := Nat.pow_le_pow_right (by decide) hshort
    have hmod : value d.integer % 10 ^ drop = value d.integer := Nat.mod_eq_of_lt (by omega)
    rw [hmod, Nat.div_eq_of_lt (by omega), if_neg (by omega), Nat.zero_mul]
    rfl
  next hlong =>
    have hdrop : drop ≤ d.integer.length := not_lt.mp hlong
    have hkept := take_numeral h.integer hpos hdrop
    have hup := up_eq h.integer.digits hpos hdrop cut
    simp only [hkept, hup]
    by_cases hround : cut = false ∧ 10 ^ drop ≤ 2 * (value d.integer % 10 ^ drop)
    · have hout : Valid ⟨d.negative, numeral (value d.integer / 10 ^ drop), []⟩ :=
        ⟨isNumeral_numeral _, nofun⟩
      obtain ⟨hvalid, hnegative, hlength, hunits⟩ := addUnit_spec hout
      have hfraction := List.length_eq_zero_iff.mp hlength
      rw [units, hfraction, List.append_nil, units_numeral] at hunits
      have hinteger := hvalid.integer.eq_numeral
      rw [hunits] at hinteger
      have hunit : addUnit ⟨d.negative, numeral (value d.integer / 10 ^ drop), []⟩ 0 =
          ⟨d.negative, numeral (value d.integer / 10 ^ drop + 1), []⟩ := by
        rw [Decimal.mk.injEq]
        exact ⟨hnegative, hinteger, hfraction⟩
      simp only [decide_eq_true hround, if_pos hround, if_true, hunit, numeral_zeros]
    · simp only [decide_eq_false hround, if_neg hround, Bool.false_eq_true, if_false, numeral_zeros,
        Nat.add_zero]

theorem toRat_eq (d : Decimal) : d.toRat = (signedBy d.negative d.units : ℚ) /
    10 ^ (d.fraction.length : ℤ) := by
  rw [toRat, units, zpow_natCast]

theorem toRat_mul {places : ℤ} (hdrop : (d.fraction.length : ℤ) - places = drop) :
    d.toRat * 10 ^ places = (signedBy d.negative d.units : ℚ) / (10 ^ drop : ℕ) := by
  have hten : (10 : ℚ) ^ places ≠ 0 := zpow_ne_zero _ ten_ne_zero
  have hlength : (d.fraction.length : ℤ) = drop + places := by omega
  rw [toRat_eq, hlength, zpow_add₀ ten_ne_zero, div_mul_eq_mul_div, mul_div_mul_right _ _ hten,
    zpow_natCast, Nat.cast_pow, Nat.cast_ofNat]

theorem roundedUnits_div (units places drop : ℕ) (cut : Bool) (hpos : 0 < drop) :
    roundedUnits (units / 10 ^ places) drop cut = roundedUnits units (places + drop) cut := by
  obtain ⟨k, rfl⟩ := Nat.exists_eq_add_one_of_ne_zero hpos.ne'
  have hplaces : 0 < 10 ^ places := Nat.pow_pos (by decide)
  have hmod : units % (10 ^ places * 10 ^ (k + 1)) =
      units % 10 ^ places + 10 ^ places * (units / 10 ^ places % 10 ^ (k + 1)) := Nat.mod_mul
  have hlt : units % 10 ^ places < 10 ^ places := Nat.mod_lt _ hplaces
  have hhalf : 10 ^ (k + 1) ≤ 2 * (units / 10 ^ places % 10 ^ (k + 1)) ↔
      10 ^ places * 10 ^ (k + 1) ≤ 2 * (units % (10 ^ places * 10 ^ (k + 1))) := by
    rw [hmod, pow_succ]
    generalize units / 10 ^ places % (10 ^ k * 10) = r
    have hfive : 10 ^ places * (10 ^ k * 10) = 2 * (10 ^ places * (5 * 10 ^ k)) := by ring
    rw [hfive, Nat.mul_le_mul_left_iff (by decide)]
    constructor
    · intro hle
      exact (Nat.mul_le_mul_left _ (by omega : 5 * 10 ^ k ≤ r)).trans (Nat.le_add_left _ _)
    · intro hle
      by_contra hlow
      have hnext := Nat.mul_le_mul_left (10 ^ places) (by omega : r + 1 ≤ 5 * 10 ^ k)
      rw [Nat.mul_add, Nat.mul_one] at hnext
      omega
  rw [roundedUnits, roundedUnits, pow_add 10 places, Nat.div_div_eq_div_mul]
  simp only [hhalf]

theorem rounded_exact (h : d.Valid) {places : ℤ} (cut : Bool) (hplaces : -2 ^ 63 < places) :
    ∃ r, d.rounded places cut = some r ∧ r.Valid ∧
      r.toRat = roundOrCut cut (d.toRat * 10 ^ places) / 10 ^ places := by
  have hten : (10 : ℚ) ^ places ≠ 0 := zpow_ne_zero _ ten_ne_zero
  by_cases hle : (d.fraction.length : ℤ) ≤ places
  · -- there are not so many digits
    have hrounded : d.rounded places cut = some d := by
      rw [rounded, if_pos (by omega), roundedBehind, if_pos (by omega)]
    have hwhole : d.toRat * 10 ^ places =
        ((signedBy d.negative d.units * 10 ^ (places - d.fraction.length).toNat : ℤ) : ℚ) := by
      have hsplit : places = d.fraction.length + (places - d.fraction.length).toNat := by omega
      conv_lhs => rw [toRat_eq, hsplit]
      rw [zpow_add₀ ten_ne_zero, ← mul_assoc, div_mul_cancel₀ _ (zpow_ne_zero _ ten_ne_zero),
        zpow_natCast]
      push_cast
      rfl
    refine ⟨d, hrounded, h, ?_⟩
    rw [hwhole, Rounding.roundOrCut_intCast, ← hwhole, mul_div_cancel_right₀ _ hten]
  · obtain ⟨drop, hdrop⟩ : ∃ drop : ℕ, (d.fraction.length : ℤ) - places = drop :=
      ⟨(d.fraction.length - places).toNat, by omega⟩
    have hround : (roundOrCut cut (d.toRat * 10 ^ places) : ℚ) =
        signedBy d.negative (roundedUnits d.units drop cut) := by
      rw [toRat_mul hdrop, roundOrCut_signedBy _ _ _ _ (Nat.pow_pos (by decide)), roundedUnits]
    rw [hround]
    by_cases hpoint : 0 ≤ places
    · obtain ⟨hvalid, hnegative, hlength, hunits⟩ :=
        roundedBehind_spec h (by omega : places.toNat < d.fraction.length) cut
      refine ⟨_, if_pos hpoint, hvalid, ?_⟩
      have hsame : d.fraction.length - places.toNat = drop := by omega
      rw [toRat_eq, hnegative, hlength, hunits, hsame, Int.toNat_of_nonneg hpoint]
    · have hint : int64Of (-places) = some (-places) := by
        rw [int64Of, if_pos ⟨by omega, by omega⟩]
      have hbefore := roundedBefore_spec h (by omega : 0 < (-places).toNat) cut
      have hsame : d.fraction.length + (-places).toNat = drop := by omega
      have hinteger : value d.integer = d.units / 10 ^ d.fraction.length := by
        rw [units, value_append, Nat.mul_comm, Nat.mul_add_div (Nat.pow_pos (by decide)),
          Nat.div_eq_of_lt (value_lt h.fraction), Nat.add_zero]
      rw [hinteger, roundedUnits_div _ _ _ _ (by omega), hsame] at hbefore
      have hrounded : d.rounded places cut =
          some ⟨d.negative, numeral (roundedUnits d.units drop cut * 10 ^ (-places).toNat),
            []⟩ := by
        rw [rounded, if_neg hpoint, hint, Option.map_some, hbefore]
      refine ⟨_, hrounded, ⟨isNumeral_numeral _, fun b hb => absurd hb List.not_mem_nil⟩, ?_⟩
      · have hpow : (10 : ℚ) ^ places = ((10 ^ (-places).toNat : ℕ) : ℚ)⁻¹ := by
          rw [Nat.cast_pow, Nat.cast_ofNat, ← zpow_natCast, Int.toNat_of_nonneg (by omega),
            zpow_neg,
            inv_inv]
        rw [toRat_eq, units_numeral, signedBy_mul, hpow, div_inv_eq_mul, Int.cast_mul,
          Int.cast_natCast]
        exact div_one _

end

/-! ### Writing -/

theorem spells_front (h : d.Valid) {f : Bytes} (hf : ∀ b ∈ f, IsDigit b)
    (hzero : d.units = 0 → value (d.integer ++ f) = 0) :
    Spells (d.front ++ if f ≠ [] then point :: f else [])
      ((signedBy d.negative (value (d.integer ++ f)) : ℚ) / 10 ^ f.length) := by
  have hfraction : (if f = [] then none else some f).getD [] = f := by
    by_cases hnil : f = []
    · rw [if_pos hnil, hnil]
      rfl
    · rw [if_neg hnil]
      rfl
  let number : PlainDecimal :=
    { sign := if d.negative && !d.isZero then some true else none
      whole := d.integer
      fraction := if f = [] then none else some f
      whole_digits := h.integer.digits
      fraction_digits := hfraction.symm ▸ hf
      some_digit := fun hnil => h.integer.nonempty (List.append_eq_nil_iff.mp hnil).1 }
  have hsigned : signedBy number.negative (value (d.integer ++ f)) =
      signedBy d.negative (value (d.integer ++ f)) := by
    cases hz : d.isZero with
    | true =>
      rw [hzero (h.isZero_iff.mp hz), NumericText.signedBy_zero, NumericText.signedBy_zero]
    | false =>
      cases hn : d.negative <;> simp [number, PlainDecimal.negative, hz, hn]
  refine ⟨⟨0, number, none, 0⟩, ?_, ?_⟩
  · have hsign : number.signText = if d.negative && !d.isZero then [minus] else [] := by
      rw [PlainDecimal.signText]
      dsimp only [number]
      cases d.negative && !d.isZero <;> rfl
    have hbehind : number.fraction.elim [] (point :: ·) = if f ≠ [] then point :: f else [] := by
      change (if f = [] then none else some f).elim [] (point :: ·) = _
      by_cases hnil : f = []
      · rw [if_pos hnil, if_neg (not_not.mpr hnil)]
        rfl
      · rw [if_neg hnil, if_pos hnil]
        rfl
    change [] ++ (number.signText ++ (d.integer ++ number.fraction.elim [] (point :: ·)) ++
      ([] ++ [])) = _
    rw [List.nil_append, List.append_nil, List.append_nil, hsign, hbehind, front, List.append_assoc]
  · change number.value * 10 ^ (0 : ℤ) = _
    rw [zpow_zero, mul_one, PlainDecimal.value, PlainDecimal.places, PlainDecimal.digits]
    change ((signedBy number.negative (value (d.integer ++ _)) : ℤ) : ℚ) /
      10 ^ ((if f = [] then none else some f).getD []).length = _
    rw [hfraction, hsigned]

theorem isDigit_resize (h : d.Valid) (scale : ℕ) : ∀ b ∈ resize d.fraction scale, IsDigit b :=
  isDigit_append_zeros (fun b hb => h.fraction b (List.mem_of_mem_take hb)) _

theorem length_resize (s : Bytes) (scale : ℕ) : (resize s scale).length = scale := by
  rw [resize, List.length_append, List.length_take, List.length_replicate]
  omega

theorem value_resize (h : d.Valid) (scale : ℕ) : value (d.integer ++ resize d.fraction scale) =
    if d.fraction.length ≤ scale then d.units * 10 ^ (scale - d.fraction.length)
    else d.units / 10 ^ (d.fraction.length - scale) := by
  split
  next hle =>
    rw [resize, List.take_of_length_le hle, ← List.append_assoc, value_append_zeros, units]
  next hlt =>
    have hshort : d.fraction.length - scale ≤ (d.integer ++ d.fraction).length := by
      rw [List.length_append]
      omega
    have hlen : (d.integer ++ d.fraction).length - (d.fraction.length - scale) =
        d.integer.length + scale := by
      rw [List.length_append]
      omega
    have hkept := (value_take_drop h.all_digits hshort).1
    rw [hlen, List.take_length_add_append] at hkept
    rw [resize, Nat.sub_eq_zero_of_le (by omega), List.replicate_zero, List.append_nil, hkept,
      units]

theorem str_exact (h : d.Valid) (scale : ℕ) :
    Spells (d.str scale) (roundOrCut true (d.toRat * 10 ^ scale) / 10 ^ scale) ∧
      (d.fraction.length ≤ scale → Spells (d.str scale) d.toRat) := by
  have hstr : d.str scale =
      d.front ++ if resize d.fraction scale ≠ [] then point :: resize d.fraction scale else [] := by
    have hne : 0 < scale ↔ resize d.fraction scale ≠ [] := by
      rw [← List.length_pos_iff, length_resize]
    rw [str]
    simp only [hne]
  have hvalue := value_resize h scale
  have hspells := spells_front h (isDigit_resize h scale) fun hzero => by
    rw [hvalue, hzero, Nat.zero_mul, Nat.zero_div, ite_self]
  rw [← hstr, hvalue, length_resize] at hspells
  have hten : (10 : ℚ) ^ scale ≠ 0 := pow_ne_zero _ ten_ne_zero
  by_cases hle : d.fraction.length ≤ scale
  · have hpow : (10 : ℚ) ^ scale = 10 ^ (scale - d.fraction.length) * 10 ^ d.fraction.length := by
      rw [← pow_add, Nat.sub_add_cancel hle]
    have hwhole : d.toRat * 10 ^ scale =
        (signedBy d.negative (d.units * 10 ^ (scale - d.fraction.length)) : ℤ) := by
      rw [toRat, ← units, signedBy_mul, hpow, div_mul_eq_mul_div,
        mul_comm ((10 : ℚ) ^ (scale - d.fraction.length)), ← mul_assoc,
        mul_div_right_comm, mul_div_cancel_right₀ _ (pow_ne_zero _ ten_ne_zero)]
      push_cast
      rfl
    rw [if_pos hle, ← hwhole, mul_div_cancel_right₀ _ hten] at hspells
    refine ⟨?_, fun _ => hspells⟩
    rw [hwhole, Rounding.roundOrCut_intCast, ← hwhole, mul_div_cancel_right₀ _ hten]
    exact hspells
  · have hdrop : (d.fraction.length : ℤ) - scale = (d.fraction.length - scale : ℕ) := by omega
    have hcut := toRat_mul (d := d) hdrop
    rw [zpow_natCast] at hcut
    rw [if_neg hle] at hspells
    refine ⟨?_, fun h => absurd h hle⟩
    rw [hcut, roundOrCut_signedBy _ _ _ _ (Nat.pow_pos (by decide)), if_neg (by simp), Nat.add_zero]
    exact hspells

theorem compact_exact (h : d.Valid) : Spells d.compact d.toRat := by
  set f := d.fraction.rdropWhile (· = 0x30) with hf
  obtain ⟨k, hk⟩ : ∃ k, d.fraction = f ++ List.replicate k 0x30 := by
    refine ⟨(d.fraction.rtakeWhile (· = 0x30)).length, ?_⟩
    have hzeros : d.fraction.rtakeWhile (· = 0x30) = List.replicate _ 0x30 :=
      List.eq_replicate_of_mem fun b hb => by simpa using List.mem_rtakeWhile_imp hb
    rw [← hzeros, hf, List.rdropWhile_append_rtakeWhile]
  have hunits : d.units = value (d.integer ++ f) * 10 ^ k := by
    rw [units, hk, ← List.append_assoc, value_append_zeros]
  have hpos : 0 < 10 ^ k := Nat.pow_pos (by decide)
  have hspells := spells_front h (f := f)
    (fun b hb => h.fraction b (hk ▸ List.mem_append_left _ hb)) fun hzero => by
      rw [hunits] at hzero
      exact (Nat.mul_eq_zero.mp hzero).resolve_right hpos.ne'
  have hvalue : d.toRat = (signedBy d.negative (value (d.integer ++ f)) : ℚ) / 10 ^ f.length := by
    have hlen : d.fraction.length = f.length + k := by
      rw [hk, List.length_append, List.length_replicate]
    rw [toRat, ← units, hunits, hlen, signedBy_mul, pow_add]
    push_cast
    exact mul_div_mul_right _ _ (pow_ne_zero _ ten_ne_zero)
  rw [hvalue]
  exact hspells

end Decimal

/-! ### Numbers with a scale -/

namespace Num

variable {d : Decimal} {n : Num}

theorem castInt_eq {size : ℕ} (h : (size : ℤ) ≤ intMax) : castInt size = size := by
  have hlow : (size : ℤ) % 4294967296 = size := by
    rw [intMax] at h
    omega
  rw [castInt, hlow]
  exact if_pos h

theorem fromDecimal_exact (h : d.Valid) (hlength : (d.fraction.length : ℤ) ≤ intMax) :
    (fromDecimal d).Plain ∧ (fromDecimal d).Proper ∧ (fromDecimal d).toRat = d.toRat := by
  have hnum : fromDecimal d =
      ofUnscaled (signedBy d.negative d.units) d.fraction.length := by
    rw [fromDecimal, castInt_eq hlength, stripZeros_eq h.all_digits, Bool.and_comm]
    exact mk_eq_ofUnscaled d.negative d.units _
  have hproper := ofUnscaled_proper (signedBy d.negative d.units) d.fraction.length
  rw [hnum]
  refine ⟨⟨hproper.digits, Int.natCast_nonneg _, hlength⟩, hproper, ?_⟩
  rw [toRat_ofUnscaled, Decimal.toRat_eq]

theorem toDecimal_exact (h : n.Plain) (hlength : (n.digits.length : ℤ) ≤ intMax) :
    ∃ d, toDecimal n = some d ∧ d.Valid ∧ d.toRat = n.toRat ∧
      (d.fraction.length : ℤ) = n.scale ∧ (n.Proper → fromDecimal d = n) := by
  obtain ⟨negative, m, scale, rfl, hscale, hscale'⟩ := h.exists_numeral
  obtain ⟨places, rfl⟩ := Int.eq_ofNat_of_zero_le hscale
  have hlen := lt_length_widened m places
  have hall : (if castInt (numeral m).length ≤ (places : ℤ) then
      List.replicate ((places : ℤ) - (numeral m).length + 1).toNat 0x30 ++ numeral m
        else numeral m) = widened m places := by
    have hcount : ((places : ℤ) - (numeral m).length + 1).toNat =
        places - (numeral m).length + 1 ∨ ¬ (numeral m).length ≤ places := by omega
    rw [castInt_eq hlength, widened]
    simp only [Nat.cast_le]
    split
    next hle => rw [hcount.resolve_right (not_not.mpr hle)]
    next => rfl
  have hdigits : ∀ b ∈ widened m places, IsDigit b := isDigit_widened
  have hvalue : value ((widened m places).take ((widened m places).length - places) ++
      (widened m places).drop ((widened m places).length - places)) = m := by
    rw [List.take_append_drop, value_widened]
  have hplaces : ((widened m places).drop ((widened m places).length - places)).length =
    places := by
    rw [List.length_drop]
    omega
  have hinteger : IsNumeral ((widened m places).take ((widened m places).length - places)) := by
    rcases Nat.eq_zero_or_pos places with rfl | hpos
    · rw [Nat.sub_zero, List.take_length, widened, if_neg (by
        have := length_numeral_pos m
        omega)]
      exact isNumeral_numeral m
    · rw [take_widened hpos]
      exact isNumeral_numeral _
  have hzero : (negative && !isZero ⟨negative, numeral m, places⟩) =
      (numeral m ≠ zeroDigits && negative) := by
    rw [isZero, Bool.and_comm, decide_not]
  have hdecimal : toDecimal ⟨negative, numeral m, places⟩ =
      some ⟨numeral m ≠ zeroDigits && negative,
        (widened m places).take ((widened m places).length - places),
        (widened m places).drop ((widened m places).length - places)⟩ := by
    rw [toDecimal, if_neg (by rw [castInt_eq hlength]; dsimp only; omega)]
    simp only [hall, hzero, Int.toNat_natCast]
  refine ⟨_, hdecimal, ⟨hinteger, fun b hb => hdigits b (List.mem_of_mem_drop hb)⟩, ?_, ?_, ?_⟩
  · rw [Decimal.toRat_eq, Decimal.units]
    simp only [hvalue, hplaces]
    rw [signedBy_nonzero, toRat, unscaled_numeral]
  · exact congrArg Nat.cast hplaces
  · intro hproper
    have hall_digits : ∀ b ∈ (widened m places).take ((widened m places).length - places) ++
        (widened m places).drop ((widened m places).length - places), IsDigit b := by
      rw [List.take_append_drop]
      exact hdigits
    have hsign : ((numeral m ≠ zeroDigits && negative) && numeral m ≠ zeroDigits) = negative := by
      cases negative with
      | false => simp
      | true => simp [hproper.sign rfl]
    rw [fromDecimal]
    simp only [stripZeros_eq hall_digits, hvalue, hplaces, hsign, castInt_eq hscale']

theorem toDecimal_wrapped (h : d.fraction.length = 2 ^ 31) : toDecimal (fromDecimal d) = none := by
  have hscale : (fromDecimal d).scale < 0 := by
    rw [fromDecimal, h]
    exact (by decide : castInt (2 ^ 31) < 0)
  exact if_pos (.inl hscale)

end Num

open Decimal (Spells)

/-- The texts that are read are the spellings, and what is read is a decimal without zeros in front
that is worth what the text spells; rounding gives the nearest multiple, or the next toward zero;
`str` writes the value cut to its places, `compact` the value; and the conversions to numbers with a
scale and back keep it. -/
theorem decimals_exact :
    (∀ text : Bytes, ((Decimal.parse text).isSome ↔ ∃ q, Spells text q) ∧
      ∀ d, Decimal.parse text = some d → d.Valid ∧ ∀ q, Spells text q ↔ q = d.toRat) ∧
    (∀ d : Decimal, d.Valid →
      (∀ (places : ℤ) (cut : Bool), -2 ^ 63 < places → ∃ r, d.rounded places cut = some r ∧
        r.Valid ∧ r.toRat = roundOrCut cut (d.toRat * 10 ^ places) / 10 ^ places) ∧
      (∀ scale : ℕ, Spells (d.str scale) (roundOrCut true (d.toRat * 10 ^ scale) / 10 ^ scale) ∧
        (d.fraction.length ≤ scale → Spells (d.str scale) d.toRat)) ∧
      Spells d.compact d.toRat ∧
      ((d.fraction.length : ℤ) ≤ intMax → (Num.fromDecimal d).Plain ∧ (Num.fromDecimal d).Proper ∧
        (Num.fromDecimal d).toRat = d.toRat)) ∧
    ∀ n : Num, n.Plain → (n.digits.length : ℤ) ≤ intMax → ∃ d, n.toDecimal = some d ∧ d.Valid ∧
      d.toRat = n.toRat ∧ (n.Proper → Num.fromDecimal d = n) := by
  refine ⟨fun text => ⟨⟨fun h => ?_, ?_⟩, fun d => Decimal.parse_exact⟩, fun d h =>
    ⟨?_, ?_, ?_, ?_⟩,
    fun n hn hlength => ?_⟩
  · obtain ⟨d, hd⟩ := Option.isSome_iff_exists.mp h
    obtain ⟨σ, hσ⟩ := Decimal.exists_spelling hd
    exact ⟨σ.value, σ, hσ, rfl⟩
  · rintro ⟨q, σ, rfl, -⟩
    rw [σ.parse_text]
    rfl
  · exact fun places cut hplaces => Decimal.rounded_exact h cut hplaces
  · exact Decimal.str_exact h
  · exact Decimal.compact_exact h
  · exact Num.fromDecimal_exact h
  · obtain ⟨d, hd, hvalid, hvalue, -, hback⟩ := Num.toDecimal_exact hn hlength
    exact ⟨d, hd, hvalid, hvalue, hback⟩

/-- The decimal 99.5 and the number -0.25. -/
theorem decimals_exact_nines :
    (∃ r, Decimal.rounded ⟨false, [0x39, 0x39], [0x35]⟩ (-1) false = some r ∧ r.Valid ∧
      r.toRat = roundOrCut false (Decimal.toRat ⟨false, [0x39, 0x39], [0x35]⟩ * 10 ^ (-1 : ℤ)) /
        10 ^ (-1 : ℤ)) ∧
    (∃ d, Decimal.parse [0x20, 0x2D, 0x35, 0x65, 0x2B, 0x31] = some d ∧ d.Valid ∧
      Spells [0x20, 0x2D, 0x35, 0x65, 0x2B, 0x31] d.toRat) ∧
    Spells (Decimal.str ⟨false, [0x39, 0x39], [0x35]⟩ 2)
      (Decimal.toRat ⟨false, [0x39, 0x39], [0x35]⟩) ∧
    (Num.fromDecimal ⟨false, [0x39, 0x39], [0x35]⟩).toRat =
      Decimal.toRat ⟨false, [0x39, 0x39], [0x35]⟩ ∧
    ∃ d, Num.toDecimal ⟨true, [0x32, 0x35], 2⟩ = some d ∧
      Num.fromDecimal d = ⟨true, [0x32, 0x35], 2⟩ := by
  have hvalid : Decimal.Valid ⟨false, [0x39, 0x39], [0x35]⟩ :=
    ⟨isNumeral_numeral 99, List.forall_mem_singleton.mpr (by decide)⟩
  have hnumeral : IsNumeral [0x32, 0x35] := isNumeral_numeral 25
  obtain ⟨hread, hdecimal, hnum⟩ := decimals_exact
  obtain ⟨hround, hstr, -, hfrom⟩ := hdecimal _ hvalid
  have hparse : Decimal.parse [0x20, 0x2D, 0x35, 0x65, 0x2B, 0x31] =
      some ⟨true, [0x35, 0x30], []⟩ := by
    decide
  obtain ⟨hfifty, hspells⟩ := (hread _).2 _ hparse
  obtain ⟨d, hd, -, -, hback⟩ :=
    hnum ⟨true, [0x32, 0x35], 2⟩ ⟨hnumeral, by decide, by decide⟩ (by decide)
  exact ⟨hround (-1) false (by decide), ⟨_, hparse, hfifty, (hspells _).mpr rfl⟩,
    (hstr 2).2 (by decide), (hfrom (by decide)).2.2, d, hd, hback ⟨hnumeral, fun _ => by decide⟩⟩

/-- With fewer places `str` does not write the value, the least places cannot be negated, and a
fraction that is longer than an int has a scale that no decimal has. -/
theorem not_decimals_exact :
    (Decimal.Valid ⟨false, [0x31], [0x35]⟩ ∧
      ¬ Spells (Decimal.str ⟨false, [0x31], [0x35]⟩ 0) (Decimal.toRat ⟨false, [0x31], [0x35]⟩)) ∧
    (Decimal.Valid ⟨false, [0x31], []⟩ ∧
      Decimal.rounded ⟨false, [0x31], []⟩ (-2 ^ 63) false = none) ∧
    (Decimal.Valid ⟨false, [0x31], List.replicate (2 ^ 31) 0x30⟩ ∧
      Num.toDecimal (Num.fromDecimal ⟨false, [0x31], List.replicate (2 ^ 31) 0x30⟩) = none) := by
  have hone : IsNumeral [0x31] := isNumeral_numeral 1
  have hread : Decimal.parse (Decimal.str ⟨false, [0x31], [0x35]⟩ 0) =
    some ⟨false, [0x31], []⟩ := by
    decide
  refine ⟨⟨⟨hone, List.forall_mem_singleton.mpr (by decide)⟩, fun hspells => ?_⟩,
    ⟨⟨hone, nofun⟩, by decide⟩, ⟨hone, fun b hb => ?_⟩, ?_⟩
  · have hvalue := ((Decimal.parse_exact hread).2 _).mp hspells
    have hfifteen : Decimal.units ⟨false, [0x31], [0x35]⟩ = 15 := by decide
    have hunit : Decimal.units ⟨false, [0x31], []⟩ = 1 := by decide
    rw [Decimal.toRat_eq, Decimal.toRat_eq, hfifteen, hunit] at hvalue
    norm_num [signedBy] at hvalue
  · rw [List.eq_of_mem_replicate hb]
    decide
  · exact Num.toDecimal_wrapped List.length_replicate

end RusqlEngine.SqlVal
