import RusqlEngine.DecimalSum

/-!
# What a sum of decimals is worth

A sum that says it is exact has added plain decimals only, and its text with all places is the
numeral of the sum of their values. The operations of `int64_arith` are followed one by one here, so
that no test of the range leaves the range itself.
-/

namespace RusqlEngine.NumericText

open Buffer (Byte Bytes)
open DigitText (IsDigit)

/-- The operations that `int64_arith` makes; one that overflows has no result. -/
def int64ArithSteps (op : Arith) (a b : ℤ) : Option (Option ℤ) :=
  match op with
  | .add =>
    (if 0 < b then (int64Of (int64Max - b)).map fun bound => decide (bound < a)
      else some false).bind fun above =>
    (if b < 0 then (int64Of (int64Min - b)).map fun bound => decide (a < bound)
      else some false).bind fun below =>
    if above ∨ below then some none else (int64Of (a + b)).map some
  | .sub =>
    (if b < 0 then (int64Of (int64Max + b)).map fun bound => decide (bound < a)
      else some false).bind fun above =>
    (if 0 < b then (int64Of (int64Min + b)).map fun bound => decide (a < bound)
      else some false).bind fun below =>
    if above ∨ below then some none else (int64Of (a - b)).map some
  | .mul =>
    if a = 0 ∨ b = 0 then some (some 0)
    else if a = -1 ∧ b = int64Min ∨ b = -1 ∧ a = int64Min then some none
    else
      (if 0 < a then
          (if 0 < b then (int64Of (int64Max.tdiv b)).map fun bound => decide (bound < a)
            else (int64Of (int64Min.tdiv a)).map fun bound => decide (b < bound))
        else
          (if 0 < b then (int64Of (int64Min.tdiv b)).map fun bound => decide (a < bound)
            else (int64Of (int64Max.tdiv b)).map fun bound => decide (a < bound))).bind
        fun outside => if outside then some none else (int64Of (a * b)).map some

/-- A plain decimal: a sign perhaps, digits, and perhaps a point with digits behind it. -/
structure PlainDecimal where
  sign : Option Bool
  whole : Bytes
  fraction : Option Bytes
  whole_digits : ∀ b ∈ whole, IsDigit b
  fraction_digits : ∀ b ∈ fraction.getD [], IsDigit b
  some_digit : whole ++ fraction.getD [] ≠ []

namespace PlainDecimal

variable (d : PlainDecimal)

def digits : Bytes :=
  d.whole ++ d.fraction.getD []

def places : ℕ :=
  (d.fraction.getD []).length

/-- The sign as it is written; `true` is a minus. -/
def signText : Bytes :=
  match d.sign with
  | none => []
  | some true => [minus]
  | some false => [plus]

def text : Bytes :=
  d.signText ++ (d.whole ++ d.fraction.elim [] (point :: ·))

def negative : Bool :=
  d.sign = some true

def value : ℚ :=
  signedBy d.negative (DigitText.value d.digits) / 10 ^ d.places

end PlainDecimal

namespace DecimalSum

def text (s : DecimalSum) : Bytes :=
  let digits := DigitText.padded 1 s.units.natAbs
  let digits :=
    if 0 < s.scale then
      let digits := if digits.length ≤ s.scale then
          List.replicate (s.scale - digits.length + 1) (DigitText.digitByte 0) ++ digits
        else digits
      digits.take (digits.length - s.scale) ++ point :: digits.drop (digits.length - s.scale)
    else digits
  (if s.units < 0 then [minus] else []) ++ digits

def textWithPlaces (s : DecimalSum) : Bytes :=
  if s.scale < s.maxPlaces then
    (if s.scale = 0 then s.text ++ [point] else s.text) ++
      List.replicate (s.maxPlaces - s.scale) (DigitText.digitByte 0)
  else s.text

def value (s : DecimalSum) : ℚ :=
  s.units / 10 ^ s.scale

/-- The texts are plain decimals of at most 18 digits, and the text with the most places of one is
the numeral of their sum. -/
def Sums (s : DecimalSum) (texts : List Bytes) : Prop :=
  ∃ decimals : List PlainDecimal, texts = decimals.map PlainDecimal.text ∧
    (∀ d ∈ decimals, d.digits.length ≤ 18) ∧
    s.maxPlaces = (decimals.map PlainDecimal.places).foldl max 0 ∧
    ∃ v : ℤ, (v : ℚ) = (decimals.map PlainDecimal.value).sum * 10 ^ s.maxPlaces ∧
      s.textWithPlaces = DigitText.decimal s.maxPlaces v

end DecimalSum

/-! ### The tests of the range -/

section

variable {a b : ℤ}

theorem int64ArithSteps_eq (op : Arith) (ha : inInt64 a) (hb : inInt64 b) :
    int64ArithSteps op a b = some (int64Arith op a b) := by
  have hmax : int64Max = 9223372036854775807 := by decide
  have hmin : int64Min = -9223372036854775808 := by decide
  have hresult {n : ℤ} {p : Prop} [Decidable p] (hp : p ↔ ¬ inInt64 n) :
      (if p then some none else (int64Of n).map some) = some (if p then none else some n) := by
    by_cases hn : inInt64 n
    · have hnot : ¬ p := fun h => hp.mp h hn
      rw [if_neg hnot, if_neg hnot, int64Of_of_in hn, Option.map_some]
    · rw [if_pos (hp.mpr hn), if_pos (hp.mpr hn)]
  have hbound {c : Prop} [Decidable c] {n : ℤ} (hn : c → inInt64 n) (p : ℤ → Prop)
      [DecidablePred p] : (if c then (int64Of n).map fun bound => decide (p bound)
        else some false) = some (decide (c ∧ p n)) := by
    by_cases hc : c
    · rw [if_pos hc, int64Of_of_in (hn hc), Option.map_some]
      simp [hc]
    · simp [hc]
  rw [inInt64_iff] at ha hb
  cases op with
  | add =>
    have habove : 0 < b → inInt64 (int64Max - b) := fun h => inInt64_iff.mpr (by omega)
    have hbelow : b < 0 → inInt64 (int64Min - b) := fun h => inInt64_iff.mpr (by omega)
    rw [int64ArithSteps, hbound habove (· < a), Option.bind_some, hbound hbelow (a < ·),
      Option.bind_some, int64Arith]
    simp only [decide_eq_true_iff]
    refine hresult ?_
    rw [inInt64_iff]
    omega
  | sub =>
    have habove : b < 0 → inInt64 (int64Max + b) := fun h => inInt64_iff.mpr (by omega)
    have hbelow : 0 < b → inInt64 (int64Min + b) := fun h => inInt64_iff.mpr (by omega)
    rw [int64ArithSteps, hbound habove (· < a), Option.bind_some, hbound hbelow (a < ·),
      Option.bind_some, int64Arith]
    simp only [decide_eq_true_iff]
    refine hresult ?_
    rw [inInt64_iff]
    omega
  | mul =>
    rw [int64ArithSteps, int64Arith]
    by_cases h0 : a = 0 ∨ b = 0
    · rw [if_pos h0, if_pos h0]
    by_cases h1 : a = -1 ∧ b = int64Min ∨ b = -1 ∧ a = int64Min
    · rw [if_neg h0, if_neg h0, if_pos h1, if_pos h1]
    rw [if_neg h0, if_neg h0, if_neg h1, if_neg h1]
    obtain ⟨ha0, hb0⟩ := not_or.mp h0
    have hdiv {n : ℤ} (d : ℤ) (hn : n.natAbs ≤ 9223372036854775807 ∨ 0 < d ∧ n = int64Min) :
        inInt64 (n.tdiv d) := by
      have hle : (n.tdiv d).natAbs ≤ n.natAbs := Int.natAbs_tdiv_le_natAbs n d
      have hneg : 0 < d → n < 0 → n.tdiv d ≤ 0 := fun hd hn' => by
        rw [← neg_neg n, Int.neg_tdiv]
        have := Int.tdiv_nonneg (a := -n) (by omega) hd.le
        omega
      rw [inInt64_iff]
      rcases hn with hn | ⟨hd, hn⟩
      · omega
      · have := hneg hd (by omega)
        omega
    have hmaxDiv (d : ℤ) : inInt64 (int64Max.tdiv d) := hdiv d (.inl (by omega))
    rw [← hresult (mul_test ha0 hb0)]
    by_cases hpa : 0 < a
    · have hminDiv : inInt64 (int64Min.tdiv a) := hdiv a (.inr ⟨hpa, rfl⟩)
      rw [int64Of_of_in (hmaxDiv b), int64Of_of_in hminDiv]
      by_cases hpb : 0 < b
      · simp [hpa, hpb]
      · simp [hpa, hpb]
    · by_cases hpb : 0 < b
      · have hminDiv : inInt64 (int64Min.tdiv b) := hdiv b (.inr ⟨hpb, rfl⟩)
        rw [int64Of_of_in hminDiv]
        simp [hpa, hpb]
      · rw [int64Of_of_in (hmaxDiv b)]
        simp [hpa, hpb]

end

/-! ### Plain decimals -/

namespace PlainDecimal

variable (d : PlainDecimal)

def body : Bytes :=
  d.whole ++ d.fraction.elim [] (point :: ·)

theorem digitsOf_body : digitsOf d.body = d.whole := by
  have hend : digitsOf (d.fraction.elim [] (point :: ·)) = [] := by
    cases hf : d.fraction with
    | none => rfl
    | some f => rfl
  rw [digitsOf, body, List.takeWhile_append_of_pos fun b hb =>
    decide_eq_true (d.whole_digits b hb), ← digitsOf, hend, List.append_nil]

theorem afterDigits_body : afterDigits d.body = d.fraction.elim [] (point :: ·) := by
  have hsplit := digitsOf_append_afterDigits (s := d.body)
  rw [digitsOf_body] at hsplit
  exact List.append_cancel_left hsplit

theorem head_body : ∃ c rest, d.body = c :: rest ∧ (IsDigit c ∨ c = point) := by
  cases hw : d.whole with
  | cons c rest =>
    refine ⟨c, rest ++ d.fraction.elim [] (point :: ·), ?_, .inl ?_⟩
    · rw [body, hw, List.cons_append]
    · exact d.whole_digits c (hw ▸ List.mem_cons_self)
  | nil =>
    cases hf : d.fraction with
    | none => exact absurd (by rw [hw, hf]; rfl) d.some_digit
    | some f => exact ⟨point, f, by rw [body, hw, hf]; rfl, .inr rfl⟩

theorem head?_body : d.body.head? ≠ some minus ∧ d.body.head? ≠ some plus := by
  obtain ⟨c, rest, hbody, hc⟩ := d.head_body
  rw [hbody, List.head?_cons]
  constructor
  · rintro h
    obtain rfl := Option.some.inj h
    revert hc
    decide
  · rintro h
    obtain rfl := Option.some.inj h
    revert hc
    decide

theorem dropSign_text : dropSign d.text = d.body := by
  obtain ⟨hminus, hplus⟩ := d.head?_body
  rw [text, signText, ← body]
  rcases d.sign with _ | _ | _
  · rw [dropSign, List.nil_append, if_neg (by simp [hminus, hplus])]
  · rfl
  · rfl

theorem head?_text : d.text.head? = some minus ↔ d.negative := by
  obtain ⟨hminus, -⟩ := d.head?_body
  rw [text, signText, ← body, negative, decide_eq_true_iff]
  rcases d.sign with _ | _ | _
  · simpa using hminus
  · simp [plus, minus]
  · exact iff_of_true rfl rfl

theorem head?_text_plus : d.text.head? = some plus ↔ d.sign = some false := by
  obtain ⟨-, hplus⟩ := d.head?_body
  rw [text, signText, ← body]
  rcases d.sign with _ | _ | _
  · simpa using hplus
  · exact iff_of_true rfl rfl
  · simp [plus, minus]

theorem text_injective : Function.Injective text := by
  intro d e h
  have hbody : d.body = e.body := by rw [← dropSign_text, h, dropSign_text]
  have hsign : d.sign = e.sign := by
    have hminus : d.sign = some true ↔ e.sign = some true := by
      have := d.head?_text.symm.trans ((by rw [h] : _ ↔ _).trans e.head?_text)
      simpa [negative] using this
    have hplus : d.sign = some false ↔ e.sign = some false := by
      rw [← head?_text_plus, h, head?_text_plus]
    revert hminus hplus
    rcases d.sign with _ | _ | _ <;> rcases e.sign with _ | _ | _ <;> simp
  have hwhole : d.whole = e.whole := by rw [← digitsOf_body, hbody, digitsOf_body]
  have hfraction : d.fraction = e.fraction := by
    have hrest : d.fraction.elim [] (point :: ·) = e.fraction.elim [] (point :: ·) := by
      rw [← afterDigits_body, hbody, afterDigits_body]
    revert hrest
    cases d.fraction <;> cases e.fraction <;> simp
  cases d
  cases e
  simp_all

end PlainDecimal

/-! ### What is read -/

section

/-- Some digits more. -/
def Mantissa.pushAll (m : Mantissa) (ds : Bytes) : Mantissa :=
  { m with
    mantissa := m.mantissa * 10 ^ ds.length + DigitText.value ds
    places := if m.afterPoint then m.places + ds.length else m.places
    digits := m.digits + ds.length }

theorem Mantissa.pushAll_cons (m : Mantissa) (c : Byte) (ds : Bytes) :
    m.pushAll (c :: ds) = (m.push c).pushAll ds := by
  simp only [pushAll, push, List.length_cons, DigitText.value_cons, Mantissa.mk.injEq, and_true]
  refine ⟨?_, ?_, ?_⟩
  · push_cast
    ring
  · split <;> omega
  · omega

variable {m : Mantissa}

theorem Mantissa.Fits.pushAll (h : m.Fits) {ds : Bytes} (hds : ∀ b ∈ ds, IsDigit b)
    (hle : m.digits + ds.length ≤ 18) : (m.pushAll ds).Fits := by
  induction ds generalizing m with
  | nil => exact ⟨h.digits, by simpa [Mantissa.pushAll] using h.places,
      by simpa [Mantissa.pushAll, DigitText.value_nil] using h.nonneg,
      by simpa [Mantissa.pushAll, DigitText.value_nil] using h.lt⟩
  | cons c ds ih =>
    rw [List.length_cons] at hle
    rw [m.pushAll_cons]
    refine ih (h.push (hds c List.mem_cons_self) (by omega))
      (fun b hb => hds b (List.mem_cons_of_mem c hb)) ?_
    change m.digits + 1 + ds.length ≤ 18
    omega

theorem readMantissa_digits (h : m.Fits) {ds : Bytes} (hds : ∀ b ∈ ds, IsDigit b) (rest : Bytes) :
    readMantissa (ds ++ rest) m =
      if m.digits + ds.length ≤ 18 then readMantissa rest (m.pushAll ds) else some none := by
  induction ds generalizing m with
  | nil =>
    have hself : m.pushAll [] = m := by simp [Mantissa.pushAll, DigitText.value_nil]
    rw [List.length_nil, Nat.add_zero, if_pos h.digits, hself, List.nil_append]
  | cons c ds ih =>
    have hc := hds c List.mem_cons_self
    rw [List.cons_append, readMantissa_digit h hc, m.pushAll_cons, List.length_cons]
    by_cases hle : m.digits + 1 ≤ 18
    · have hpush : (m.push c).digits + ds.length = m.digits + (ds.length + 1) := by
        change m.digits + 1 + ds.length = _
        omega
      rw [if_pos hle, ih (h.push hc hle) fun b hb => hds b (List.mem_cons_of_mem c hb), hpush]
    · rw [if_neg hle, if_neg (by omega)]

theorem readMantissa_stop {c : Byte} (hc : ¬ IsDigit c) (hp : ¬ (c = point ∧ m.afterPoint = false))
    (rest : Bytes) : readMantissa (c :: rest) m = some none := by
  rw [readMantissa, if_neg hp, if_pos (.inl hc)]

def noDigits : Mantissa :=
  ⟨0, 0, 0, false⟩

theorem noDigits_fits : noDigits.Fits :=
  ⟨by decide, le_rfl, le_rfl, by decide⟩

def PlainDecimal.mantissa (d : PlainDecimal) : Mantissa :=
  ⟨DigitText.value d.digits, d.places, d.digits.length, d.fraction.isSome⟩

theorem readMantissa_body (d : PlainDecimal) : readMantissa d.body noDigits =
    if d.digits.length ≤ 18 then some (some d.mantissa) else some none := by
  rw [PlainDecimal.body, readMantissa_digits noDigits_fits d.whole_digits]
  cases hf : d.fraction with
  | none =>
    have hdigits : d.digits = d.whole := by
      rw [PlainDecimal.digits, hf]
      exact List.append_nil _
    have hread : noDigits.pushAll d.whole = d.mantissa := by
      simp [PlainDecimal.mantissa, PlainDecimal.places, hdigits, hf, Mantissa.pushAll, noDigits]
    simp only [noDigits, Nat.zero_add, hdigits, Option.elim_none]
    rw [← noDigits, hread]
    rfl
  | some f =>
    have hdigits : d.digits = d.whole ++ f := by
      rw [PlainDecimal.digits, hf]
      rfl
    have hfdigits : ∀ b ∈ f, IsDigit b := fun b hb => d.fraction_digits b (by rwa [hf])
    have hzero : noDigits.digits + d.whole.length = d.whole.length := Nat.zero_add _
    rw [hzero, hdigits, List.length_append, Option.elim_some]
    by_cases hw : d.whole.length ≤ 18
    · have hfits := noDigits_fits.pushAll d.whole_digits (hzero.trans_le hw)
      have hpointed : Mantissa.Fits { noDigits.pushAll d.whole with afterPoint := true } :=
        ⟨hfits.digits, hfits.places, hfits.nonneg, hfits.lt⟩
      have hread : Mantissa.pushAll { noDigits.pushAll d.whole with afterPoint := true } f =
          d.mantissa := by
        simp [PlainDecimal.mantissa, PlainDecimal.places, hdigits, hf, Mantissa.pushAll, noDigits,
          DigitText.value_append]
      have hall := readMantissa_digits hpointed hfdigits []
      rw [List.append_nil, hread] at hall
      rw [if_pos hw, readMantissa, if_pos ⟨rfl, rfl⟩, hall]
      simp only [Mantissa.pushAll, hzero]
      rfl
    · rw [if_neg hw, if_neg (by omega)]

theorem isDigit_of_mem_digitsOf {s : Bytes} {b : Byte} (hb : b ∈ digitsOf s) : IsDigit b := by
  simpa using List.mem_takeWhile_imp hb

theorem not_isDigit_of_afterDigits {s rest : Bytes} {c : Byte} (h : afterDigits s = c :: rest) :
    ¬ IsDigit c := by
  have hhead := List.head?_dropWhile_not (fun b => decide (IsDigit b)) s
  rw [← afterDigits, h] at hhead
  simpa using hhead

def signOf (text : Bytes) : Option Bool :=
  if text.head? = some minus then some true else if text.head? = some plus then some false else none

theorem signText_append_dropSign (text : Bytes) : (match signOf text with
    | none => []
    | some true => [minus]
    | some false => [plus]) ++ dropSign text = text := by
  rw [signOf, dropSign]
  cases text with
  | nil => rfl
  | cons c rest =>
    by_cases hminus : c = minus
    · rw [hminus]
      rfl
    · by_cases hplus : c = plus
      · rw [hplus]
        rfl
      · simp [hminus, hplus]

theorem exists_plainDecimal {text : Bytes} (hread : readMantissa (dropSign text) noDigits =
    some (some m)) (hm : m.digits ≠ 0) : ∃ d : PlainDecimal, text = d.text := by
  have hwhole : ∀ b ∈ digitsOf (dropSign text), IsDigit b := fun b hb => isDigit_of_mem_digitsOf hb
  have hsplit := digitsOf_append_afterDigits (s := dropSign text)
  have hall := readMantissa_digits noDigits_fits hwhole (afterDigits (dropSign text))
  rw [hsplit, hread] at hall
  split at hall
  next hle =>
    -- the digits before the point have been read; what comes behind them
    cases hafter : afterDigits (dropSign text) with
    | nil =>
      rw [hafter] at hall
      obtain rfl := Option.some.inj (Option.some.inj hall)
      refine ⟨⟨signOf text, digitsOf (dropSign text), none, hwhole, by simp, ?_⟩, ?_⟩
      · intro hnil
        have hlen := congrArg List.length hnil
        exact hm (by simpa [Mantissa.pushAll, noDigits] using hlen)
      · rw [hafter] at hsplit
        change text = _ ++ (digitsOf (dropSign text) ++ [])
        rw [hsplit]
        exact (signText_append_dropSign text).symm
    | cons c rest =>
      have hc := not_isDigit_of_afterDigits hafter
      by_cases hpoint : c = point
      · rw [hafter, readMantissa, if_pos ⟨hpoint, rfl⟩] at hall
        have hfraction : ∀ b ∈ digitsOf rest, IsDigit b := fun b hb => isDigit_of_mem_digitsOf hb
        have hfits := noDigits_fits.pushAll hwhole hle
        have hpointed : Mantissa.Fits
            { noDigits.pushAll (digitsOf (dropSign text)) with afterPoint := true } :=
          ⟨hfits.digits, hfits.places, hfits.nonneg, hfits.lt⟩
        rw [← digitsOf_append_afterDigits (s := rest),
          readMantissa_digits hpointed hfraction] at hall
        split at hall
        next =>
          cases hend : afterDigits rest with
          | nil =>
            rw [hend] at hall
            obtain rfl := Option.some.inj (Option.some.inj hall)
            refine ⟨⟨signOf text, digitsOf (dropSign text), some rest, hwhole, ?_, ?_⟩, ?_⟩
            · rw [Option.getD_some, ← digitsOf_eq_self hend]
              exact hfraction
            · intro hnil
              have hlen := congrArg List.length hnil
              rw [Option.getD_some, ← digitsOf_eq_self hend] at hlen
              exact hm (by simpa [Mantissa.pushAll, noDigits] using hlen)
            · rw [hafter, hpoint] at hsplit
              change text = _ ++ (digitsOf (dropSign text) ++ point :: rest)
              rw [hsplit]
              exact (signText_append_dropSign text).symm
          | cons c' rest' =>
            rw [hend, readMantissa_stop (not_isDigit_of_afterDigits hend) (by
              rintro ⟨-, hfalse⟩
              cases hfalse)] at hall
            cases Option.some.inj hall
        next => cases Option.some.inj hall
      · rw [hafter, readMantissa_stop hc fun h => hpoint h.1] at hall
        cases Option.some.inj hall
  next => cases Option.some.inj hall

end

/-! ### What is added -/

theorem dropZeros_value (places : ℕ) {n : ℤ} :
    ((dropZeros n places).1 : ℚ) / 10 ^ (dropZeros n places).2 = n / 10 ^ places := by
  induction places generalizing n with
  | zero => rfl
  | succ places ih =>
    rw [dropZeros]
    split
    next hzero =>
      have hn : n = n.tdiv 10 * 10 := (Int.tdiv_mul_cancel (Int.dvd_of_tmod_eq_zero hzero)).symm
      rw [ih, pow_succ]
      conv_rhs => rw [hn]
      push_cast
      rw [mul_div_mul_right _ _ (by norm_num)]
    next => rfl

namespace DecimalSum

variable {s s' : DecimalSum}

theorem pow10_eq_some {n : ℕ} {p : ℤ} (h : pow10 n = some p) : p = 10 ^ n := by
  by_cases hn : n ≤ 18
  · rw [pow10_of_le hn] at h
    exact (Option.some.inj h).symm
  · rw [pow10_of_lt (not_le.mp hn)] at h
    exact nomatch h

theorem widen_value {places : ℕ} (hle : s.scale ≤ places) (h : s.widen places = some (some s')) :
    s'.value = s.value ∧ s'.scale = places ∧ s'.maxPlaces = s.maxPlaces ∧ s'.exact = s.exact := by
  rw [widen] at h
  split at h
  next heq =>
    obtain rfl := Option.some.inj (Option.some.inj h)
    exact ⟨rfl, heq.symm, rfl, rfl⟩
  next =>
    obtain ⟨p, hp, h⟩ := Option.map_eq_some_iff.mp h
    obtain ⟨units, hunits, rfl⟩ := Option.map_eq_some_iff.mp h
    rw [int64Arith_mul, int64Of_eq_some, pow10_eq_some hp] at hunits
    refine ⟨?_, rfl, rfl, rfl⟩
    have hplaces : places = s.scale + (places - s.scale) := by omega
    have hten : (10 : ℚ) ^ (places - s.scale) ≠ 0 := pow_ne_zero _ (by norm_num)
    change (units : ℚ) / 10 ^ places = s.units / 10 ^ s.scale
    rw [← hunits.2, hplaces, pow_add, ← hplaces]
    push_cast
    rw [mul_div_mul_right _ _ hten]

theorem addUnits_value (hs : s.Sound) {mantissa : ℤ} {places : ℕ} (hle : places ≤ s.scale)
    (h : s.addUnits mantissa places = some s') (hexact : s'.exact) :
    s'.value = s.value + mantissa / 10 ^ places ∧ s'.maxPlaces = s.maxPlaces := by
  rw [addUnits] at h
  obtain ⟨scaled, hscaled, h⟩ := Option.map_eq_some_iff.mp h
  split at h
  next =>
    obtain rfl := h
    exact absurd hexact Bool.false_ne_true
  next total htotal =>
    obtain ⟨m, hm, hsum⟩ := Option.bind_eq_some_iff.mp htotal
    rw [int64Arith_add hs.units, int64Of_eq_some] at hsum
    have hten (n : ℕ) : (10 : ℚ) ^ n ≠ 0 := pow_ne_zero _ (by norm_num)
    have hmantissa : (m : ℚ) / 10 ^ s.scale = mantissa / 10 ^ places := by
      rw [hm, inUnits] at hscaled
      split at hscaled
      next =>
        obtain ⟨p, hp, hscaled⟩ := Option.map_eq_some_iff.mp hscaled
        rw [int64Arith_mul, int64Of_eq_some, pow10_eq_some hp] at hscaled
        have hscale : s.scale = places + (s.scale - places) := by omega
        rw [← hscaled.2, hscale, pow_add, ← hscale]
        push_cast
        rw [mul_div_mul_right _ _ (hten _)]
      next hnot =>
        obtain rfl := Option.some.inj (Option.some.inj hscaled)
        rw [le_antisymm hle (not_lt.mp hnot)]
    obtain rfl := h
    refine ⟨?_, rfl⟩
    change (total : ℚ) / 10 ^ s.scale = s.units / 10 ^ s.scale + mantissa / 10 ^ places
    rw [← hmantissa, ← hsum.2]
    push_cast
    rw [add_div]

theorem addMantissa_value (hs : s.Sound) {mantissa : ℤ} {places : ℕ} (hp : places ≤ s.maxPlaces)
    (h : s.addMantissa mantissa places = some s') (hexact : s'.exact) :
    s'.value = s.value + mantissa / 10 ^ places ∧ s'.maxPlaces = s.maxPlaces := by
  rw [addMantissa] at h
  obtain ⟨widened, hwidened, h⟩ := Option.bind_eq_some_iff.mp h
  cases widened with
  | none =>
    obtain rfl := Option.some.inj h
    exact absurd hexact Bool.false_ne_true
  | some s₁ =>
    split at hwidened
    next hlt =>
      obtain ⟨hvalue, hscale, hmax, -⟩ := widen_value hlt.le hwidened
      obtain ⟨widened, heq, hsound⟩ := widen_sound hs hp
      have hs₁ : s₁.Sound := hsound s₁ (Option.some.inj (heq.symm.trans hwidened))
      rw [← hvalue, ← hmax]
      exact addUnits_value hs₁ hscale.ge h hexact
    next hnot =>
      obtain rfl := Option.some.inj (Option.some.inj hwidened)
      exact addUnits_value hs (not_lt.mp hnot) h hexact

/-- A sum that is exact behind a text was exact before it, and the text is a plain decimal that is
added. -/
theorem add_exact (hs : s.Sound) {text : Bytes} (h : s.add text = some s')
    (hexact : s'.exact) : s.exact ∧ ∃ d : PlainDecimal, text = d.text ∧
      d.digits.length ≤ 18 ∧ s'.value = s.value + d.value ∧
        s'.maxPlaces = max s.maxPlaces d.places := by
  rw [add] at h
  split at h
  next hnot =>
    obtain rfl := Option.some.inj h
    exact absurd hexact (by simpa using hnot)
  next hnot =>
    refine ⟨by simpa using hnot, ?_⟩
    obtain ⟨read, hread, h⟩ := Option.bind_eq_some_iff.mp h
    cases read with
    | none =>
      obtain rfl := Option.some.inj h
      exact absurd hexact Bool.false_ne_true
    | some m =>
      dsimp only at h
      split at h
      next =>
        obtain rfl := Option.some.inj h
        exact absurd hexact Bool.false_ne_true
      next hdigits =>
        obtain ⟨d, rfl⟩ := exists_plainDecimal hread hdigits
        rw [← noDigits, PlainDecimal.dropSign_text, readMantissa_body] at hread
        split at hread
        next hlength =>
          obtain rfl := Option.some.inj (Option.some.inj hread)
          refine ⟨d, rfl, hlength, ?_⟩
          obtain ⟨mantissa, hmantissa, h⟩ := Option.bind_eq_some_iff.mp h
          have hfits : d.mantissa.Fits := by
            obtain ⟨read, hread', hfits⟩ := readMantissa_fits noDigits_fits d.body
            rw [readMantissa_body, if_pos hlength] at hread'
            exact hfits _ (Option.some.inj hread').symm
          obtain ⟨hplaces, -, -⟩ := dropZeros_le d.mantissa.places hfits.nonneg
          have hs₁ : Sound { s with
              count := s.count + 1
              maxPlaces := max s.maxPlaces d.mantissa.places } :=
            ⟨hs.units, hs.scale.trans (le_max_left _ _),
              max_le hs.places (hfits.places.trans hfits.digits)⟩
          obtain ⟨hvalue, hmax⟩ := addMantissa_value hs₁ (hplaces.trans (le_max_right _ _)) h hexact
          refine ⟨?_, hmax⟩
          have hsigned : (mantissa : ℚ) / 10 ^ (dropZeros d.mantissa.mantissa d.mantissa.places).2 =
              d.value := by
            rw [PlainDecimal.value]
            by_cases hneg : d.negative = true
            · rw [if_pos (d.head?_text.mpr hneg), int64Of_eq_some] at hmantissa
              rw [← hmantissa.2, hneg, signedBy, if_pos rfl]
              push_cast
              rw [neg_div, dropZeros_value, neg_div]
              rfl
            · rw [if_neg fun h => hneg (d.head?_text.mp h)] at hmantissa
              rw [← Option.some.inj hmantissa, dropZeros_value, signedBy, if_neg hneg]
              rfl
          rw [hvalue, hsigned]
          rfl
        next => cases Option.some.inj hread

/-- All the texts of a sum that is exact in the end. -/
theorem addAll_exact (hs : s.Sound) {texts : List Bytes} (h : s.addAll texts = some s')
    (hexact : s'.exact) : ∃ decimals : List PlainDecimal,
      texts = decimals.map PlainDecimal.text ∧ (∀ d ∈ decimals, d.digits.length ≤ 18) ∧
      s'.value = s.value + (decimals.map PlainDecimal.value).sum ∧
      s'.maxPlaces = (decimals.map PlainDecimal.places).foldl max s.maxPlaces ∧
      s.exact := by
  induction texts generalizing s with
  | nil =>
    obtain rfl := Option.some.inj h
    exact ⟨[], rfl, by simp, by simp, rfl, hexact⟩
  | cons text texts ih =>
    rw [addAll, List.foldlM_cons] at h
    obtain ⟨s₁, hs₁, h⟩ := Option.bind_eq_some_iff.mp h
    obtain ⟨s₂, hs₂, hsound⟩ := add_sound hs text
    obtain rfl := Option.some.inj (hs₁.symm.trans hs₂)
    obtain ⟨decimals, rfl, hlength, hvalue, hmax, hexact₁⟩ := ih hsound h
    obtain ⟨hexact₀, d, rfl, hd, hvalue₁, hmax₁⟩ := add_exact hs hs₁ hexact₁
    refine ⟨d :: decimals, rfl, List.forall_mem_cons.mpr ⟨hd, hlength⟩, ?_, ?_, hexact₀⟩
    · rw [hvalue, hvalue₁, List.map_cons, List.sum_cons, add_assoc]
    · rw [hmax, hmax₁, List.map_cons, List.foldl_cons]

/-! ### The text of a sum -/

theorem text_eq (s : DecimalSum) : s.text = DigitText.decimal s.scale s.units := by
  rw [text, DigitText.decimal]
  by_cases hscale : s.scale = 0
  · rw [hscale, if_pos rfl, DigitText.signed]
    simp only [lt_irrefl, if_false, minus]
    split <;> rfl
  · have hpad : (if (DigitText.padded 1 s.units.natAbs).length ≤ s.scale then
          List.replicate (s.scale - (DigitText.padded 1 s.units.natAbs).length + 1)
            (DigitText.digitByte 0) ++ DigitText.padded 1 s.units.natAbs
        else DigitText.padded 1 s.units.natAbs) =
          DigitText.padded (s.scale + 1) s.units.natAbs := by
      rw [← DigitText.pad_padded_one s.scale]
      split
      next h => rw [← Nat.sub_add_comm h]
      next => rfl
    rw [if_neg hscale, if_pos (Nat.pos_of_ne_zero hscale), DigitText.fixedPoint]
    simp only [hpad]
    rw [point, minus, DigitText.insert_point]

theorem textWithPlaces_eq (hs : s.Sound) : s.textWithPlaces =
    DigitText.decimal s.maxPlaces (s.units * 10 ^ (s.maxPlaces - s.scale)) := by
  have hscale := hs.scale
  rw [textWithPlaces, text_eq]
  by_cases hlt : s.scale < s.maxPlaces
  · rw [if_pos hlt]
    by_cases hzero : s.scale = 0
    · have hmax : s.maxPlaces ≠ 0 := by omega
      rw [if_pos hzero, hzero, DigitText.decimal, if_pos rfl, DigitText.decimal, if_neg hmax,
        List.append_assoc, List.singleton_append, Nat.sub_zero, point,
        DigitText.signed_append_zeros]
    · have hmax : s.maxPlaces ≠ 0 := by omega
      rw [if_neg hzero, DigitText.decimal, if_neg hzero, DigitText.decimal, if_neg hmax,
        DigitText.fixedPoint_append_zeros, Nat.add_sub_cancel' hscale]
  · have heq : s.scale = s.maxPlaces := by omega
    rw [if_neg hlt, heq, Nat.sub_self, pow_zero, mul_one]

theorem start_value : start.value = 0 := by
  simp [value, start]

theorem sums_of_exact {texts : List Bytes} (h : start.addAll texts = some s)
    (hexact : s.exact) : s.Sums texts := by
  obtain ⟨s', hs', hsound⟩ := addAll_sound start_sound texts
  obtain rfl := Option.some.inj (h.symm.trans hs')
  obtain ⟨decimals, htexts, hlength, hvalue, hmax, -⟩ := addAll_exact start_sound h hexact
  refine ⟨decimals, htexts, hlength, hmax, s.units * 10 ^ (s.maxPlaces - s.scale), ?_,
    textWithPlaces_eq hsound⟩
  rw [start_value, zero_add] at hvalue
  have hten : (10 : ℚ) ^ s.scale ≠ 0 := pow_ne_zero _ (by norm_num)
  have hplaces : s.maxPlaces = s.scale + (s.maxPlaces - s.scale) := by
    have := hsound.scale
    omega
  rw [← hvalue, value, hplaces, pow_add, ← hplaces]
  push_cast
  field_simp

theorem Sums.text_eq {s' : DecimalSum} {texts texts' : List Bytes} (hperm : texts.Perm texts')
    (h : s.Sums texts) (h' : s'.Sums texts') : s.textWithPlaces = s'.textWithPlaces := by
  obtain ⟨decimals, rfl, -, hmax, v, hv, htext⟩ := h
  obtain ⟨decimals', rfl, -, hmax', v', hv', htext'⟩ := h'
  have hsame := (List.map_perm_map_iff PlainDecimal.text_injective).mp hperm
  have hmaxs : s.maxPlaces = s'.maxPlaces := by
    rw [hmax, hmax']
    exact (hsame.map _).foldl_eq 0
  have hvs : v = v' := by
    rw [(hsame.map _).sum_eq, hmaxs, ← hv'] at hv
    exact_mod_cast hv
  rw [htext, htext', hmaxs, hvs]

/-- Nothing overflows; a sum that is exact is the sum of plain decimals, written with the most
places of one of them; and the order of the texts does not show. -/
theorem sums_exact :
    (∀ op a b, inInt64 a → inInt64 b → int64ArithSteps op a b = some (int64Arith op a b)) ∧
    (∀ texts, ∃ s, start.addAll texts = some s ∧ (s.exact → s.Sums texts)) ∧
    ∀ (texts texts' : List Bytes) (s s' : DecimalSum), texts.Perm texts' →
      start.addAll texts = some s → start.addAll texts' = some s' → s.exact →
      s'.exact → s.textWithPlaces = s'.textWithPlaces := by
  refine ⟨fun op a b => int64ArithSteps_eq op, fun texts => ?_, ?_⟩
  · obtain ⟨s, hs, -⟩ := addAll_sound start_sound texts
    exact ⟨s, hs, sums_of_exact hs⟩
  · intro texts texts' s s' hperm hs hs' hexact hexact'
    exact (sums_of_exact hs hexact).text_eq hperm (sums_of_exact hs' hexact')

/-- The texts `1.50`, `-0.5` and `+.25`. -/
def threeTexts : List Bytes :=
  [[0x31, 0x2E, 0x35, 0x30], [0x2D, 0x30, 0x2E, 0x35], [0x2B, 0x2E, 0x32, 0x35]]

theorem sums_exact_three : ∃ s s', start.addAll threeTexts = some s ∧
    start.addAll threeTexts.reverse = some s' ∧ s.Sums threeTexts ∧
      s.textWithPlaces = s'.textWithPlaces ∧ s.textWithPlaces = [0x31, 0x2E, 0x32, 0x35] := by
  obtain ⟨s, hs, hsums⟩ := sums_exact.2.1 threeTexts
  obtain ⟨s', hs', -⟩ := sums_exact.2.1 threeTexts.reverse
  have hread : (start.addAll threeTexts).map (fun s => (s.exact, s.textWithPlaces)) =
      some (true, [0x31, 0x2E, 0x32, 0x35]) := by
    decide
  have hread' : (start.addAll threeTexts.reverse).map exact = some true := by
    decide
  rw [hs] at hread
  rw [hs'] at hread'
  obtain ⟨hexact, htext⟩ := Prod.mk.inj (Option.some.inj hread)
  exact ⟨s, s', hs, hs', hsums hexact, sums_exact.2.2 _ _ s s' threeTexts.reverse_perm.symm hs hs'
    hexact (Option.some.inj hread'), htext⟩

end DecimalSum

end RusqlEngine.NumericText
