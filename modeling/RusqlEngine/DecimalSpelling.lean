import RusqlEngine.DecimalText
import RusqlEngine.DecimalSumExact
import RusqlEngine.NumExact

/-!
# What a decimal text spells

A spelling is a plain decimal with an exponent perhaps, between blanks. The texts that are read as a
decimal are the texts of spellings, and what is read is worth what the spelling is worth.
-/

namespace RusqlEngine.SqlVal

open Buffer (Byte Bytes)
open DigitText (IsDigit value value_append value_cons)
open NumericText

namespace Decimal

/-- The sign as it is written; `true` is a minus. -/
def signText : Option Bool → Bytes
  | none => []
  | some true => [minus]
  | some false => [plus]

/-- An exponent of a power of ten, below ten thousand. -/
structure Exponent where
  marker : Byte
  sign : Option Bool
  digits : Bytes
  marker_e : marker = 0x65 ∨ marker = 0x45
  all_digits : ∀ b ∈ digits, IsDigit b
  some_digit : digits ≠ []
  small : value digits < 10000

def Exponent.text (e : Exponent) : Bytes :=
  e.marker :: (signText e.sign ++ e.digits)

def Exponent.power (e : Exponent) : ℤ :=
  signedBy (e.sign = some true) (value e.digits)

/-- A decimal as it is written. -/
structure Spelling where
  lead : ℕ
  number : PlainDecimal
  exponent : Option Exponent
  trail : ℕ

namespace Spelling

def text (σ : Spelling) : Bytes :=
  List.replicate σ.lead blank ++ (σ.number.text ++
    (σ.exponent.elim [] Exponent.text ++ List.replicate σ.trail blank))

def power (σ : Spelling) : ℤ :=
  σ.exponent.elim 0 Exponent.power

def value (σ : Spelling) : ℚ :=
  σ.number.value * 10 ^ σ.power

end Spelling

/-- The text is one of a decimal that is worth `q`. -/
def Spells (text : Bytes) (q : ℚ) : Prop :=
  ∃ σ : Spelling, σ.text = text ∧ σ.value = q

def toRat (d : Decimal) : ℚ :=
  signedBy d.negative (DigitText.value (d.integer ++ d.fraction)) / 10 ^ d.fraction.length

/-- The integer part is a numeral, the fraction digits. -/
structure Valid (d : Decimal) : Prop where
  integer : DigitText.IsNumeral d.integer
  fraction : ∀ b ∈ d.fraction, IsDigit b

/-! ### Digits over the point -/

section

def partsValue (parts : Bytes × Bytes) : ℚ :=
  value (parts.1 ++ parts.2) / 10 ^ parts.2.length

def PartsDigits (parts : Bytes × Bytes) : Prop :=
  (∀ b ∈ parts.1, IsDigit b) ∧ ∀ b ∈ parts.2, IsDigit b

variable {parts : Bytes × Bytes}

theorem isDigit_zero : IsDigit 0x30 := by
  decide

theorem digitUp_digits (h : PartsDigits parts) : PartsDigits (digitUp parts) := by
  obtain ⟨ip, fp⟩ := parts
  obtain ⟨hip, hfp⟩ := h
  refine ⟨fun b hb => ?_, fun b hb => hfp b (List.mem_of_mem_tail hb)⟩
  rcases List.mem_append.mp hb with hb | hb
  · exact hip b hb
  · rw [List.mem_singleton.mp hb]
    cases fp with
    | nil => exact isDigit_zero
    | cons c fp => exact hfp c List.mem_cons_self

theorem digitDown_digits (h : PartsDigits parts) : PartsDigits (digitDown parts) := by
  obtain ⟨ip, fp⟩ := parts
  obtain ⟨hip, hfp⟩ := h
  refine ⟨fun b hb => hip b (List.mem_of_mem_dropLast hb), List.forall_mem_cons.mpr ⟨?_, hfp⟩⟩
  rcases List.eq_nil_or_concat' ip with rfl | ⟨init, c, rfl⟩
  · exact isDigit_zero
  · rw [List.getLastD_concat]
    exact hip c List.mem_concat_self

theorem partsValue_digitUp (parts : Bytes × Bytes) :
    partsValue (digitUp parts) = partsValue parts * 10 := by
  obtain ⟨ip, fp⟩ := parts
  cases fp with
  | nil =>
    have hzero : value (ip ++ [0x30]) = value ip * 10 := value_append ip [0x30]
    simp only [partsValue, digitUp, List.headD_nil, List.tail_nil, List.append_nil,
      List.length_nil, pow_zero, div_one]
    rw [hzero, Nat.cast_mul, Nat.cast_ofNat]
  | cons c fp =>
    have hmoved : ip ++ [c] ++ fp = ip ++ c :: fp := by simp
    simp only [partsValue, digitUp, List.headD_cons, List.tail_cons, List.length_cons]
    rw [hmoved, pow_succ, div_mul_eq_mul_div, mul_div_mul_right _ _ ten_ne_zero]

theorem partsValue_digitDown (parts : Bytes × Bytes) :
    partsValue (digitDown parts) = partsValue parts / 10 := by
  obtain ⟨ip, fp⟩ := parts
  have hvalue : value ((digitDown (ip, fp)).1 ++ (digitDown (ip, fp)).2) = value (ip ++ fp) := by
    rcases List.eq_nil_or_concat' ip with rfl | ⟨init, c, rfl⟩
    · exact DigitText.value_zero_cons fp
    · simp [digitDown]
  rw [partsValue, hvalue, digitDown, List.length_cons, pow_succ, partsValue, div_div]

theorem partsValue_shifted (exponent : ℤ) (parts : Bytes × Bytes) :
    partsValue (shifted exponent parts) = partsValue parts * 10 ^ exponent := by
  have hup (k : ℕ) : partsValue (digitUp^[k] parts) = partsValue parts * 10 ^ k := by
    induction k with
    | zero => simp
    | succ k ih =>
      rw [Function.iterate_succ_apply', partsValue_digitUp, ih, pow_succ, mul_assoc]
  have hdown (k : ℕ) : partsValue (digitDown^[k] parts) = partsValue parts / 10 ^ k := by
    induction k with
    | zero => simp
    | succ k ih =>
      rw [Function.iterate_succ_apply', partsValue_digitDown, ih, pow_succ, div_div]
  rw [shifted]
  split
  next hpos => rw [hup, ← zpow_natCast, Int.toNat_of_nonneg hpos.le]
  next hneg =>
    rw [hdown, ← zpow_natCast, Int.toNat_of_nonneg (by omega), zpow_neg, div_inv_eq_mul]

theorem shifted_digits (exponent : ℤ) (h : PartsDigits parts) :
    PartsDigits (shifted exponent parts) := by
  rw [shifted]
  split
  · exact Function.Iterate.rec PartsDigits h (fun _ => digitUp_digits) _
  · exact Function.Iterate.rec PartsDigits h (fun _ => digitDown_digits) _

end

/-! ### Reading -/

section

variable {s rest : Bytes}

theorem replicate_append_dropBlanks (s : Bytes) :
    List.replicate (s.takeWhile (· = blank)).length blank ++ dropBlanks s = s := by
  have hall : s.takeWhile (· = blank) =
      List.replicate (s.takeWhile (· = blank)).length blank :=
    List.eq_replicate_of_mem fun b hb => by simpa using List.mem_takeWhile_imp hb
  rw [← hall]
  exact List.takeWhile_append_dropWhile

theorem dropBlanks_replicate_append (n : ℕ) (h : s.head? ≠ some blank) :
    dropBlanks (List.replicate n blank ++ s) = s := by
  induction n with
  | zero =>
    cases s with
    | nil => rfl
    | cons c s =>
      have hc : c ≠ blank := fun hc => h (congrArg some hc)
      simp [dropBlanks, hc]
  | succ n ih => exact ih

theorem digitsOf_append {ds : Bytes} (hds : ∀ b ∈ ds, IsDigit b)
    (hrest : ∀ b, rest.head? = some b → ¬ IsDigit b) :
    digitsOf (ds ++ rest) = ds ∧ afterDigits (ds ++ rest) = rest := by
  have hend : digitsOf rest = [] := by
    cases rest with
    | nil => rfl
    | cons c rest =>
      rw [digitsOf, List.takeWhile_cons, decide_eq_false (hrest c rfl)]
      rfl
  have hdigits : digitsOf (ds ++ rest) = ds := by
    rw [digitsOf, List.takeWhile_append_of_pos fun b hb => decide_eq_true (hds b hb), ← digitsOf,
      hend, List.append_nil]
  have hsplit := digitsOf_append_afterDigits (s := ds ++ rest)
  rw [hdigits] at hsplit
  exact ⟨hdigits, List.append_cancel_left hsplit⟩

theorem scanFraction_text {fraction : Option Bytes} (hfraction : ∀ b ∈ fraction.getD [], IsDigit b)
    (hdigit : ∀ b, rest.head? = some b → ¬ IsDigit b) (hpoint : rest.head? ≠ some point) :
    scanFraction (fraction.elim [] (point :: ·) ++ rest) = (fraction.getD [], rest) := by
  cases fraction with
  | none => exact if_neg hpoint
  | some f =>
    obtain ⟨hdigits, hafter⟩ := digitsOf_append hfraction hdigit
    exact (if_pos rfl).trans (Prod.ext hdigits hafter)

theorem exists_scanFraction (s : Bytes) : ∃ fraction : Option Bytes,
    (∀ b ∈ fraction.getD [], IsDigit b) ∧ (scanFraction s).1 = fraction.getD [] ∧
      fraction.elim [] (point :: ·) ++ (scanFraction s).2 = s := by
  rw [scanFraction]
  split
  next hpoint =>
    obtain ⟨t, rfl⟩ := List.head?_eq_some_iff.mp hpoint
    exact ⟨some (digitsOf t), fun b hb => isDigit_of_mem_digitsOf hb, rfl,
      congrArg (point :: ·) digitsOf_append_afterDigits⟩
  next => exact ⟨none, fun b hb => absurd hb List.not_mem_nil, rfl, rfl⟩

theorem dropSign_signText (sign : Option Bool) (hminus : s.head? ≠ some minus)
    (hplus : s.head? ≠ some plus) : dropSign (signText sign ++ s) = s := by
  rcases sign with _ | _ | _
  · exact if_neg (not_or.mpr ⟨hplus, hminus⟩)
  · rfl
  · rfl

theorem head?_signText (sign : Option Bool) (hminus : s.head? ≠ some minus) :
    (signText sign ++ s).head? = some minus ↔ sign = some true := by
  rcases sign with _ | _ | _
  · exact iff_of_false hminus (by decide)
  · exact iff_of_false (by simp [signText, plus, minus]) (by decide)
  · exact iff_of_true rfl rfl

theorem signText_signOf (s : Bytes) : signText (signOf s) ++ dropSign s = s :=
  signText_append_dropSign s

theorem signOf_eq_some_true : signOf s = some true ↔ s.head? = some minus := by
  rw [signOf]
  split_ifs with hminus hplus
  · exact iff_of_true rfl hminus
  · exact iff_of_false (by decide) hminus
  · exact iff_of_false (by decide) hminus

end

/-! ### Exponents -/

section

variable {s rest : Bytes}

theorem exponentLoop_digits {ds : Bytes} (hds : ∀ b ∈ ds, IsDigit b)
    (hrest : ∀ b, rest.head? = some b → ¬ IsDigit b) : ∀ {e : ℕ},
    e * 10 ^ ds.length + value ds < 10000 →
      exponentLoop e (ds ++ rest) = (e * 10 ^ ds.length + value ds, rest) := by
  induction ds with
  | nil =>
    intro e _
    have hvalue : e * 10 ^ ([] : Bytes).length + value [] = e := by simp [DigitText.value_nil]
    rw [hvalue]
    cases rest with
    | nil => rfl
    | cons c rest => exact if_neg fun h => hrest c rfl h.1
  | cons c ds ih =>
    intro e hsmall
    obtain ⟨hc, hds⟩ := List.forall_mem_cons.mp hds
    have hvalue : e * 10 ^ (c :: ds).length + value (c :: ds) =
        (e * 10 + digit c) * 10 ^ ds.length + value ds := by
      rw [List.length_cons, value_cons, pow_succ, digit]
      ring
    have he : e < 1000 := by
      have hpos : 0 < 10 ^ ds.length := Nat.pow_pos (by decide)
      have hle : e * 10 ≤ (e * 10 + digit c) * 10 ^ ds.length :=
        (Nat.le_add_right _ _).trans (Nat.le_mul_of_pos_right _ hpos)
      omega
    rw [hvalue] at hsmall ⊢
    exact (if_pos ⟨hc, he⟩).trans (ih hds hsmall)

theorem exists_exponentLoop (e : ℕ) (s : Bytes) : ∃ ds : Bytes, (∀ b ∈ ds, IsDigit b) ∧
    ds ++ (exponentLoop e s).2 = s ∧
      (exponentLoop e s).1 = e * 10 ^ ds.length + value ds ∧
        (e < 10000 → (exponentLoop e s).1 < 10000) := by
  fun_induction exponentLoop e s with
  | case1 e | case3 e c rest h => exact ⟨[], by simp, rfl, by simp [DigitText.value_nil], id⟩
  | case2 e c rest h ih =>
    obtain ⟨ds, hds, happend, hvalue, hsmall⟩ := ih
    have hc := digit_lt h.1
    refine ⟨c :: ds, List.forall_mem_cons.mpr ⟨h.1, hds⟩, congrArg (c :: ·) happend, ?_,
      fun _ => hsmall (by omega)⟩
    rw [hvalue, List.length_cons, value_cons, pow_succ, digit]
    ring

theorem scanPower_text (e : Option Exponent) (n : ℕ) :
    scanPower (e.elim [] Exponent.text ++ List.replicate n blank) =
      (e.elim 0 Exponent.power, List.replicate n blank) := by
  have hblank (b : Byte) (h : (List.replicate n blank).head? = some b) : b = blank :=
    List.eq_of_mem_replicate (List.mem_of_mem_head? h)
  cases e with
  | none =>
    refine if_neg fun h => ?_
    rcases h.1 with h | h
    · exact absurd (hblank _ h) (by decide)
    · exact absurd (hblank _ h) (by decide)
  | some e =>
    have hdigit (b : Byte) (h : (List.replicate n blank).head? = some b) : ¬ IsDigit b := by
      rw [hblank b h]
      decide
    obtain ⟨c, ds, hds⟩ := List.exists_cons_of_ne_nil e.some_digit
    have hc : IsDigit c := e.all_digits c (hds ▸ List.mem_cons_self)
    have hsign {b : Byte} (hb : ¬ IsDigit b) :
        (e.digits ++ List.replicate n blank).head? ≠ some b := by
      rw [hds]
      rintro h
      exact hb (Option.some.inj h ▸ hc)
    have hdrop := dropSign_signText e.sign (hsign (by decide : ¬ IsDigit minus))
      (hsign (by decide : ¬ IsDigit plus))
    have hminus := head?_signText e.sign (hsign (by decide : ¬ IsDigit minus))
    have hread := exponentLoop_digits e.all_digits hdigit (e := 0) (by simpa using e.small)
    have htext : (some e).elim [] Exponent.text ++ List.replicate n blank =
        e.marker :: (signText e.sign ++ (e.digits ++ List.replicate n blank)) := by
      simp [Exponent.text]
    rw [Nat.zero_mul, Nat.zero_add] at hread
    rw [htext, scanPower, List.tail_cons, hdrop, (digitsOf_append e.all_digits hdigit).1, hread,
      if_pos ⟨e.marker_e.imp (congrArg some) (congrArg some), e.some_digit⟩]
    simp only [hminus]
    rfl

theorem exists_scanPower (s : Bytes) : ∃ e : Option Exponent,
    e.elim [] Exponent.text ++ (scanPower s).2 = s ∧ (scanPower s).1 = e.elim 0 Exponent.power := by
  rw [scanPower]
  split
  next h =>
    obtain ⟨hmarker, hdigits⟩ := h
    obtain ⟨marker, t, rfl⟩ : ∃ marker t, s = marker :: t :=
      List.exists_cons_of_ne_nil (by rintro rfl; simp at hmarker)
    rw [List.tail_cons] at hdigits ⊢
    obtain ⟨ds, hds, happend, hvalue, hsmall⟩ := exists_exponentLoop 0 (dropSign t)
    rw [Nat.zero_mul, Nat.zero_add] at hvalue
    have hne : ds ≠ [] := by
      rintro rfl
      obtain ⟨c, hhead, hc⟩ := head_of_digitsOf hdigits
      obtain ⟨u, hu⟩ := List.head?_eq_some_iff.mp hhead
      -- the first digit is read, and what is behind it is shorter
      obtain ⟨ds', -, happend', -⟩ := exists_exponentLoop (0 * 10 + digit c) u
      have hfirst : exponentLoop 0 (c :: u) = exponentLoop (0 * 10 + digit c) u :=
        if_pos ⟨hc, by decide⟩
      rw [hu, hfirst, List.nil_append] at happend
      have hlen := congrArg List.length happend
      have hlen' := congrArg List.length happend'
      rw [List.length_append] at hlen'
      rw [List.length_cons] at hlen
      omega
    refine ⟨some ⟨marker, signOf t, ds, hmarker.imp Option.some.inj Option.some.inj, hds, hne,
      hvalue ▸ hsmall (by decide)⟩, ?_, ?_⟩
    · simp only [Option.elim_some, Exponent.text, List.cons_append, List.append_assoc, happend,
        signText_signOf]
    · simp only [Option.elim_some, Exponent.power, hvalue, signOf_eq_some_true]
  next => exact ⟨none, rfl, rfl⟩

end

/-! ### Texts that are read -/

namespace Spelling

variable (σ : Spelling)

def decimal : Decimal :=
  let parts := shifted σ.power (σ.number.whole, σ.number.fraction.getD [])
  ⟨σ.number.negative, stripZeros parts.1, parts.2⟩

theorem parts_digits : PartsDigits (shifted σ.power (σ.number.whole, σ.number.fraction.getD [])) :=
  shifted_digits σ.power ⟨σ.number.whole_digits, σ.number.fraction_digits⟩

theorem decimal_valid : σ.decimal.Valid where
  integer := by
    rw [decimal, stripZeros_eq σ.parts_digits.1]
    exact DigitText.isNumeral_numeral _
  fraction := σ.parts_digits.2

theorem toRat_decimal : σ.decimal.toRat = σ.value := by
  have hshift := partsValue_shifted σ.power (σ.number.whole, σ.number.fraction.getD [])
  have hsigned (negative : Bool) (m : ℕ) :
      (signedBy negative m : ℚ) = (if negative then -1 else 1) * m := by
    cases negative <;> simp [signedBy]
  have hstrip : DigitText.value (σ.decimal.integer ++ σ.decimal.fraction) =
      DigitText.value ((shifted σ.power (σ.number.whole, σ.number.fraction.getD [])).1 ++
        (shifted σ.power (σ.number.whole, σ.number.fraction.getD [])).2) := by
    rw [value_append, decimal, stripZeros_eq σ.parts_digits.1, DigitText.value_numeral,
      ← value_append]
  rw [toRat, hsigned, hstrip, mul_div_assoc]
  change _ * partsValue _ = _
  rw [hshift, value, PlainDecimal.value, hsigned, mul_div_assoc, mul_assoc]
  rfl

theorem head?_behind {b : Byte}
    (h : (σ.exponent.elim [] Exponent.text ++ List.replicate σ.trail blank).head? = some b) :
    ¬ IsDigit b ∧ b ≠ point := by
  cases hexponent : σ.exponent with
  | none =>
    rw [hexponent] at h
    rw [List.eq_of_mem_replicate (List.mem_of_mem_head? h)]
    decide
  | some e =>
    rw [hexponent] at h
    obtain rfl : e.marker = b := Option.some.inj h
    rcases e.marker_e with hmarker | hmarker
    · rw [hmarker]
      decide
    · rw [hmarker]
      decide

theorem number_text (t : Bytes) : σ.number.text ++ t =
    signText σ.number.sign ++ (σ.number.body ++ t) := by
  rw [PlainDecimal.text, ← PlainDecimal.body, List.append_assoc, PlainDecimal.signText]
  rcases σ.number.sign with _ | _ | _ <;> rfl

theorem head?_number {b : Byte} (hb : ¬ IsDigit b ∧ b ≠ point) (t : Bytes) :
    (σ.number.body ++ t).head? ≠ some b := by
  obtain ⟨c, rest, hbody, hc⟩ := σ.number.head_body
  rw [hbody]
  intro h
  obtain rfl : c = b := Option.some.inj h
  exact hc.elim hb.1 hb.2

theorem dropBlanks_text : dropBlanks σ.text = signText σ.number.sign ++ (σ.number.body ++
    (σ.exponent.elim [] Exponent.text ++ List.replicate σ.trail blank)) := by
  rw [text, number_text]
  refine dropBlanks_replicate_append _ ?_
  rcases σ.number.sign with _ | _ | _
  · exact σ.head?_number (by decide) _
  · exact (by decide : some plus ≠ some blank)
  · exact (by decide : some minus ≠ some blank)

theorem parse_text : parse σ.text = some σ.decimal := by
  have hlead := σ.dropBlanks_text
  have hhead {b : Byte} (hb : ¬ IsDigit b ∧ b ≠ point) := σ.head?_number hb
    (σ.exponent.elim [] Exponent.text ++ List.replicate σ.trail blank)
  set behind := σ.exponent.elim [] Exponent.text ++ List.replicate σ.trail blank with hbehind
  have hnotMinus := hhead (by decide : ¬ IsDigit minus ∧ minus ≠ point)
  have hdrop := dropSign_signText σ.number.sign hnotMinus
    (hhead (by decide : ¬ IsDigit plus ∧ plus ≠ point))
  have hminus := head?_signText σ.number.sign hnotMinus
  have hdigit (b : Byte) (h : behind.head? = some b) : ¬ IsDigit b := (σ.head?_behind h).1
  have hpoint : behind.head? ≠ some point := fun h => (σ.head?_behind h).2 rfl
  have hrest (b : Byte) (h : (σ.number.fraction.elim [] (point :: ·) ++ behind).head? = some b) :
      ¬ IsDigit b := by
    cases hfraction : σ.number.fraction with
    | none =>
      rw [hfraction] at h
      exact hdigit b h
    | some f =>
      rw [hfraction] at h
      obtain rfl := Option.some.inj h
      decide
  obtain ⟨hwhole, hafter⟩ := digitsOf_append σ.number.whole_digits hrest
  have hfraction := scanFraction_text σ.number.fraction_digits hdigit hpoint
  have hsplit : σ.number.body ++ behind =
      σ.number.whole ++ (σ.number.fraction.elim [] (point :: ·) ++ behind) := by
    rw [PlainDecimal.body, List.append_assoc]
  have hend : dropBlanks (List.replicate σ.trail blank) = [] := by
    have h := dropBlanks_replicate_append (s := []) σ.trail (by decide)
    rwa [List.append_nil] at h
  have hne : ¬ (σ.number.whole = [] ∧ σ.number.fraction.getD [] = []) := fun h =>
    σ.number.some_digit (by rw [h.1, h.2, List.append_nil])
  rw [hsplit] at hlead hdrop hminus
  rw [parse]
  simp only [hlead, hdrop, hminus, hwhole, hafter, hfraction]
  rw [if_neg hne, hbehind, scanPower_text]
  exact if_pos hend

end Spelling

theorem exists_spelling {text : Bytes} {d : Decimal} (h : parse text = some d) :
    ∃ σ : Spelling, σ.text = text := by
  rw [parse] at h
  obtain ⟨fraction, hfdigits, hfraction, hrest⟩ :=
    exists_scanFraction (afterDigits (dropSign (dropBlanks text)))
  obtain ⟨e, hpower, -⟩ :=
    exists_scanPower (scanFraction (afterDigits (dropSign (dropBlanks text)))).2
  simp only [hfraction] at h
  split at h
  next => exact nomatch h
  next hne =>
    split at h
    next hend =>
      have hwhole : ∀ b ∈ digitsOf (dropSign (dropBlanks text)), IsDigit b := fun b hb =>
        isDigit_of_mem_digitsOf hb
      have hsome : digitsOf (dropSign (dropBlanks text)) ++ fraction.getD [] ≠ [] := fun hnil =>
        hne (List.append_eq_nil_iff.mp hnil)
      obtain ⟨n, htrail⟩ : ∃ n, List.replicate n blank =
          (scanPower (scanFraction (afterDigits (dropSign (dropBlanks text)))).2).2 := by
        have h := replicate_append_dropBlanks
          (scanPower (scanFraction (afterDigits (dropSign (dropBlanks text)))).2).2
        rw [hend, List.append_nil] at h
        exact ⟨_, h⟩
      refine ⟨⟨(text.takeWhile (· = blank)).length,
        ⟨signOf (dropBlanks text), digitsOf (dropSign (dropBlanks text)), fraction, hwhole,
          hfdigits,
          hsome⟩, e, n⟩, ?_⟩
      rw [Spelling.text, htrail, hpower]
      change _ ++ (signText (signOf (dropBlanks text)) ++ (digitsOf _ ++ _) ++ _) = text
      rw [List.append_assoc, List.append_assoc, hrest, digitsOf_append_afterDigits, signText_signOf,
        replicate_append_dropBlanks]
    next => exact nomatch h

theorem parse_iff {text : Bytes} {d : Decimal} :
    parse text = some d ↔ ∃ σ : Spelling, σ.text = text ∧ σ.decimal = d := by
  constructor
  · intro h
    obtain ⟨σ, rfl⟩ := exists_spelling h
    rw [σ.parse_text] at h
    exact ⟨σ, rfl, Option.some.inj h⟩
  · rintro ⟨σ, rfl, rfl⟩
    exact σ.parse_text

theorem parse_exact {text : Bytes} {d : Decimal} (h : parse text = some d) :
    d.Valid ∧ ∀ q, Spells text q ↔ q = d.toRat := by
  obtain ⟨σ, rfl, rfl⟩ := parse_iff.mp h
  refine ⟨σ.decimal_valid, fun q => ⟨?_, ?_⟩⟩
  · rintro ⟨τ, htext, rfl⟩
    have hsame := σ.parse_text
    rw [← htext, τ.parse_text] at hsame
    rw [← τ.toRat_decimal, Option.some.inj hsame]
  · rintro rfl
    exact ⟨σ, rfl, σ.toRat_decimal.symm⟩

end Decimal

end RusqlEngine.SqlVal
