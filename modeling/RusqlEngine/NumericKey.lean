import RusqlEngine.CollationKey
import RusqlEngine.NumericTextExact

/-!
# The key of an index bucket

An integer has its own text for a bucket, another number the text of its double, and a text that is
no number its collation key. Equal numbers have one key but for an integer and another number where
the double of the integer is another; equal texts but for spellings of an integer that are no
number.
-/

namespace RusqlEngine.NumericKey

open Buffer (Byte Bytes)
open NumericText UnicodeCollation DigitText

/-! ### `%.17g` -/

/-- A number without the zeros at its end, and without the point if nothing stands behind it. -/
def withFraction (whole fraction : Bytes) : Bytes :=
  let fraction := (fraction.reverse.dropWhile (· = 0x30)).reverse
  if fraction = [] then whole else whole ++ point :: fraction

def decimalExponent (u : ℕ) : ℤ :=
  if Binary64.one ≤ u then Nat.log 10 (u / Binary64.one)
  else -(Nat.clog 10 ((Binary64.one + u - 1) / u) : ℤ)

/-- A magnitude to 17 digits from the power of ten `x` on, rounded. -/
def rounded17 (u : ℕ) (x : ℤ) : ℕ :=
  if 16 ≤ x then Binary64.halfEven u (Binary64.one * 10 ^ (x - 16).toNat)
  else Binary64.halfEven (u * 10 ^ (16 - x).toNat) Binary64.one

def carried (digits : ℕ) (x : ℤ) : ℕ × ℤ :=
  if digits = 10 ^ 17 then (10 ^ 16, x + 1) else (digits, x)

def digits17 (u : ℕ) : ℕ × ℤ :=
  carried (rounded17 u (decimalExponent u)) (decimalExponent u)

/-- A magnitude with 17 digits: as a decimal, or with an exponent when it is large or small. -/
def magnitude17 (u : ℕ) : Bytes :=
  let digits := (digits17 u).1
  let x := (digits17 u).2
  if u = 0 then [0x30]
  else if -4 ≤ x ∧ x < 17 then
    withFraction (padded 1 (digits / 10 ^ (16 - x).toNat))
      (padded (16 - x).toNat (digits % 10 ^ (16 - x).toNat))
  else
    withFraction (padded 1 (digits / 10 ^ 16)) (padded 16 (digits % 10 ^ 16)) ++
      0x65 :: (if x < 0 then minus else plus) :: padded 2 x.natAbs

/-- `%.17g` of a double. -/
def format17 (v : Double) : Bytes :=
  if v < 0 then minus :: magnitude17 v.natAbs else magnitude17 v.natAbs

/-! ### The key -/

/-- `9.2e18`, below which a whole double is written as an integer. -/
def wholeLimit : ℕ := 9200000000000000000

variable (table : Table)

/-- No text is read as a double that is no number or infinite. -/
def normalizeNumericKey (s : Bytes) : Bytes :=
  match NumericText.parseInt64Text s with
  | some whole => signed whole
  | none =>
    match parseNumber s with
    | none => key table s
    | some v =>
      if (Binary64.one : ℤ) ∣ v ∧ v.natAbs < wholeLimit * Binary64.one then
        signed (v / Binary64.one)
      else format17 v

/-! ### The spellings of a key -/

variable {table} {s a b : Bytes} {n m : ℤ} {v : Double}

theorem le_carried (digits : ℕ) (x : ℤ) : x ≤ (carried digits x).2 := by
  rw [carried]
  split
  next => exact Int.le_add_one (Int.le_refl x)
  next => exact Int.le_refl x

theorem exponent_mem_format17 (h : 10 ^ 17 * Binary64.one ≤ v.natAbs) : 0x65 ∈ format17 v := by
  have hone : Binary64.one ≤ v.natAbs := by
    calc
      Binary64.one ≤ 10 ^ 17 * Binary64.one := Nat.le_mul_of_pos_left Binary64.one (by decide)
      _ ≤ v.natAbs := h
  have hx : 17 ≤ decimalExponent v.natAbs := by
    rw [decimalExponent, if_pos hone]
    have hdiv : 10 ^ 17 ≤ v.natAbs / Binary64.one := by
      rw [Nat.le_div_iff_mul_le Binary64.one_pos]
      exact h
    exact Int.ofNat_le.mpr (Nat.le_log_of_pow_le (by decide) hdiv)
  have hdigits : 17 ≤ (digits17 v.natAbs).2 := Int.le_trans hx (le_carried _ _)
  have hmagnitude : 0x65 ∈ magnitude17 v.natAbs := by
    rw [magnitude17, if_neg (Nat.lt_of_lt_of_le Binary64.one_pos hone).ne',
      if_neg (fun h => absurd h.2 (Int.not_lt.mpr hdigits))]
    exact List.mem_append_right _ List.mem_cons_self
  rw [format17]
  split
  next => exact List.mem_cons_of_mem _ hmagnitude
  next => exact hmagnitude

theorem mem_signed {c : Byte} (h : c ∈ signed n) : c = minus ∨ IsDigit c := by
  rw [signed] at h
  split at h
  next =>
    rcases List.mem_cons.mp h with h | h
    · exact .inl h
    · exact .inr (isDigit_of_mem_padded h)
  next => exact .inr (isDigit_of_mem_padded h)

theorem ne_exponent {c : Byte} (h : c = minus ∨ IsDigit c) : c ≠ 0x65 := by
  rintro rfl
  exact absurd h (by decide)

theorem isDigit_mem_asciiCharacters (c : Byte) (hc : IsDigit c) : c ∈ asciiCharacters := by
  rw [mem_asciiCharacters, printable, isUpper, decide_eq_true_eq, decide_eq_false_iff_not]
  obtain ⟨hlo, hhi⟩ := hc
  exact ⟨⟨le_trans (by decide) hlo, hhi.trans (by decide)⟩,
    fun h => absurd (h.1.trans hhi) (by decide)⟩

theorem minus_mem_asciiCharacters : minus ∈ asciiCharacters := by
  decide

theorem key_signed : key table (signed n) = signed n := by
  refine key_self fun c hc => ?_
  rcases mem_signed hc with rfl | hdigit
  · exact minus_mem_asciiCharacters
  · exact isDigit_mem_asciiCharacters c hdigit

theorem normalizeNumericKey_int64 (h : NumericText.parseInt64Text s = some n) :
    normalizeNumericKey table s = signed n := by
  rw [normalizeNumericKey, h]

theorem normalizeNumericKey_text (h : NumericText.parseInt64Text s = none)
    (h' : parseNumber s = none) : normalizeNumericKey table s = key table s := by
  rw [normalizeNumericKey, h, h']

theorem normalizeNumericKey_number (h : NumericText.parseInt64Text s = none)
    (h' : parseNumber s = some v) :
    normalizeNumericKey table s =
      if (Binary64.one : ℤ) ∣ v ∧ v.natAbs < wholeLimit * Binary64.one then
        signed (v / Binary64.one)
      else format17 v := by
  rw [normalizeNumericKey, h, h']

/-! ### Numbers -/

theorem wide_of_number (h : NumericText.parseInt64Text s = some n) (h' : parseNumber s = some v) :
    ∃ w, NumericText.parseWideIntegerText s = some w := by
  cases hw : NumericText.parseWideIntegerText s with
  | some w => exact ⟨w, rfl⟩
  | none =>
    rw [parseNumber_plus_minus (plus_minus_of_int64 h hw)] at h'
    exact nomatch h'

theorem one_dvd_textToNumber {w : SignedMagnitude}
    (h : NumericText.parseWideIntegerText s = some w) : (Binary64.one : ℤ) ∣ textToNumber s := by
  rw [textToNumber_of_wide h, signedBy]
  split
  next => exact Int.dvd_neg.mpr (Int.natCast_dvd_natCast.mpr Binary64.one_dvd_nearest)
  next => exact Int.natCast_dvd_natCast.mpr Binary64.one_dvd_nearest

theorem eq_of_value {u w : SignedMagnitude} (hu : u.negative → 0 < u.magnitude)
    (hw : w.negative → 0 < w.magnitude) (h : u.value = w.value) : u = w := by
  obtain ⟨nu, mu⟩ := u
  obtain ⟨nw, mw⟩ := w
  cases nu <;> cases nw <;> simp [SignedMagnitude.value, signedBy] at hu hw h ⊢
  all_goals omega

theorem textToNumber_eq (h : compareNumbers a b = .eq)
    (hint : NumericText.parseInt64Text a = none ∨ NumericText.parseInt64Text b = none) :
    textToNumber a = textToNumber b := by
  by_cases hboth : bothWhole a b
  · rw [compareNumbers_of_bothWhole hboth, Int.compare_eq_eq] at h
    rcases hboth with ⟨ha, hb⟩ | ⟨ha, hb⟩
    · rcases hint with hint | hint
      · rw [hint] at ha
        exact nomatch ha
      · rw [hint] at hb
        exact nomatch hb
    · obtain ⟨u, hu⟩ := Option.isSome_iff_exists.mp ha
      obtain ⟨w, hw⟩ := Option.isSome_iff_exists.mp hb
      rw [wholeValue_of_wide hu, wholeValue_of_wide hw] at h
      rw [textToNumber_of_wide hu, textToNumber_of_wide hw,
        eq_of_value (negative_of_wide hu) (negative_of_wide hw) h]
  · rw [compareNumbers_of_not_bothWhole hboth] at h
    exact Int.compare_eq_eq.mp h

def exactDouble (s : Bytes) (n : ℤ) : Prop :=
  textToNumber s = n * Binary64.one ∧ n.natAbs < wholeLimit

/-- An integer and another number equal to it have one key exactly where the double of the integer
is the integer. -/
theorem normalizeNumericKey_eq_iff {x y : Double} (hx : parseNumber a = some x)
    (hy : parseNumber b = some y) (h : compareNumbers a b = .eq)
    (ha : NumericText.parseInt64Text a = some n) (hb : NumericText.parseInt64Text b = none) :
    normalizeNumericKey table a = normalizeNumericKey table b ↔ exactDouble a n := by
  obtain ⟨w, hw⟩ := wide_of_number ha hx
  have hone : (0 : ℤ) < Binary64.one := Int.natCast_pos.mpr Binary64.one_pos
  have hdvd : (Binary64.one : ℤ) ∣ y := by
    rw [← textToNumber_of_parseNumber hy, ← textToNumber_eq h (.inr hb)]
    exact one_dvd_textToNumber hw
  rw [normalizeNumericKey_int64 ha, normalizeNumericKey_number hb hy, exactDouble,
    textToNumber_eq h (.inr hb), textToNumber_of_parseNumber hy]
  obtain ⟨k, rfl⟩ := hdvd
  have hlimit : ((Binary64.one : ℤ) ∣ Binary64.one * k ∧
      (Binary64.one * k : ℤ).natAbs < wholeLimit * Binary64.one) ↔ k.natAbs < wholeLimit := by
    rw [Int.natAbs_mul, Int.natAbs_natCast, Nat.mul_comm, Nat.mul_lt_mul_right Binary64.one_pos]
    exact and_iff_right (Int.dvd_mul_right _ _)
  rw [if_congr hlimit rfl rfl, Int.mul_ediv_cancel_left _ hone.ne', mul_comm (Binary64.one : ℤ) k,
    mul_left_inj' hone.ne']
  split
  next hlt =>
    constructor
    · intro hkey
      obtain rfl := signed_injective hkey
      exact ⟨rfl, hlt⟩
    · rintro ⟨rfl, _⟩
      rfl
  next hlarge =>
    have hlarge : wholeLimit ≤ k.natAbs := Nat.le_of_not_lt hlarge
    constructor
    · intro hkey
      have hexponent : 0x65 ∈ format17 (k * Binary64.one) := by
        refine exponent_mem_format17 ?_
        rw [Int.natAbs_mul, Int.natAbs_natCast]
        exact Nat.mul_le_mul_right _ (Nat.le_trans (by decide) hlarge)
      rw [← hkey] at hexponent
      exact absurd rfl (ne_exponent (mem_signed hexponent))
    · rintro ⟨rfl, hlt⟩
      exact absurd hlt (Nat.not_lt.mpr hlarge)

/-! ### Texts -/

theorem key_of_int64 (h : NumericText.parseInt64Text s = some n) (h' : parseNumber s = none) :
    s.head? = some plus ∧ key table s = s := by
  have hwide : NumericText.parseWideIntegerText s = none := by
    cases hw : NumericText.parseWideIntegerText s with
    | none => rfl
    | some w =>
      rw [parseNumber_of_wide hw] at h'
      cases h'
  obtain ⟨hplus, hminus⟩ := plus_minus_of_int64 h hwide
  obtain ⟨rest, rfl⟩ := List.head?_eq_some_iff.mp hplus
  obtain ⟨digits, rfl⟩ := List.head?_eq_some_iff.mp hminus
  have hdigits : ∀ c ∈ digits, IsDigit c := by
    rw [NumericText.parseInt64Text] at h
    split at h
    next m hm =>
      obtain ⟨_, hend, _⟩ := fromCharsWhole_eq_some.mp hm
      exact fun c hc => of_decide_eq_true (List.dropWhile_eq_nil_iff.mp hend c hc)
    next => cases h
  refine ⟨rfl, key_self fun c hc => ?_⟩
  rcases List.mem_cons.mp hc with rfl | hc
  · decide
  · rcases List.mem_cons.mp hc with rfl | hc
    · exact minus_mem_asciiCharacters
    · exact isDigit_mem_asciiCharacters c (hdigits c hc)

theorem signed_ne {rest : Bytes} : signed n ≠ plus :: rest := by
  intro h
  have hplus : plus ∈ signed n := h ▸ List.mem_cons_self
  exact absurd (mem_signed hplus) (by decide)

variable (table a b)

/-- What the buckets and the comparison have to agree on. -/
structure Agrees : Prop where
  numbers : (parseNumber a).isSome → (parseNumber b).isSome → compareNumbers a b = .eq →
    normalizeNumericKey table a = normalizeNumericKey table b
  texts : parseNumber a = none → parseNumber b = none →
    (normalizeNumericKey table a = normalizeNumericKey table b ↔ equal table a b)

/-- Texts that are no numbers: two spellings of an integer with both signs are the same text or of
different values, and no other text equals such a spelling or the integer. -/
def textsApart : Prop :=
  match NumericText.parseInt64Text a, NumericText.parseInt64Text b with
  | none, none => True
  | some n, some m => n = m → a = b
  | some n, none =>
    ¬ equal table a b ∧ ¬ equal table (signed n) b
  | none, some m =>
    ¬ equal table a b ∧ ¬ equal table a (signed m)

/-- Numbers of which only one is an integer of 64 bits: the double of the integer is the integer and
is below the limit. -/
structure OneSpelling : Prop where
  numbers : (parseNumber a).isSome → (parseNumber b).isSome → compareNumbers a b = .eq →
    (∀ n, NumericText.parseInt64Text a = some n → NumericText.parseInt64Text b = none →
        exactDouble a n) ∧
      ∀ n, NumericText.parseInt64Text b = some n → NumericText.parseInt64Text a = none →
        exactDouble b n
  texts : parseNumber a = none → parseNumber b = none → textsApart table a b

variable {table a b}

theorem compareNumbers_comm (h : compareNumbers a b = .eq) : compareNumbers b a = .eq := by
  rw [compareNumbers_eq_swap, h]
  rfl

theorem numbers_iff (ha : (parseNumber a).isSome) (hb : (parseNumber b).isSome)
    (h : compareNumbers a b = .eq) :
    normalizeNumericKey table a = normalizeNumericKey table b ↔
      (∀ n, NumericText.parseInt64Text a = some n → NumericText.parseInt64Text b = none →
          exactDouble a n) ∧
        ∀ n, NumericText.parseInt64Text b = some n → NumericText.parseInt64Text a = none →
          exactDouble b n := by
  obtain ⟨x, hx⟩ := Option.isSome_iff_exists.mp ha
  obtain ⟨y, hy⟩ := Option.isSome_iff_exists.mp hb
  cases hai : NumericText.parseInt64Text a with
  | some n =>
    cases hbi : NumericText.parseInt64Text b with
    | some m =>
      have hboth : bothWhole a b := .inl ⟨by rw [hai]; rfl, by rw [hbi]; rfl⟩
      rw [compareNumbers_of_bothWhole hboth, Int.compare_eq_eq, wholeValue_of_int64 hai,
        wholeValue_of_int64 hbi] at h
      rw [normalizeNumericKey_int64 hai, normalizeNumericKey_int64 hbi, h]
      exact iff_of_true rfl ⟨nofun, nofun⟩
    | none =>
      rw [normalizeNumericKey_eq_iff hx hy h hai hbi]
      exact ⟨fun hexact => ⟨fun _ hn _ => Option.some.inj hn ▸ hexact, nofun⟩,
        fun hall => hall.1 n rfl rfl⟩
  | none =>
    cases hbi : NumericText.parseInt64Text b with
    | some m =>
      rw [eq_comm, normalizeNumericKey_eq_iff hy hx (compareNumbers_comm h) hbi hai]
      exact ⟨fun hexact => ⟨nofun, fun _ hn _ => Option.some.inj hn ▸ hexact⟩,
        fun hall => hall.2 m rfl rfl⟩
    | none =>
      have hxy : x = y := by
        rw [← textToNumber_of_parseNumber hx, ← textToNumber_of_parseNumber hy]
        exact textToNumber_eq h (.inl hai)
      rw [normalizeNumericKey_number hai hx, normalizeNumericKey_number hbi hy, hxy]
      exact iff_of_true rfl ⟨nofun, nofun⟩

/-- A spelling with both signs beside a text that is no integer. -/
theorem texts_int64_iff (h : PrintableWeights table) (ha : parseNumber a = none)
    (hb : parseNumber b = none) (hai : NumericText.parseInt64Text a = some n)
    (hbi : NumericText.parseInt64Text b = none) :
    (normalizeNumericKey table a = normalizeNumericKey table b ↔ equal table a b) ↔
      ¬ equal table a b ∧
        ¬ equal table (signed n) b := by
  rw [normalizeNumericKey_int64 hai, normalizeNumericKey_text hbi hb,
    ← @key_signed table n, key_eq_iff h, key_signed]
  constructor
  · intro hiff
    have hnot : ¬ equal table a b := by
      intro hequal
      have hsigned := (key_eq_iff h).mpr (hiff.mpr hequal)
      rw [← (key_eq_iff h).mpr hequal, key_signed, (key_of_int64 hai ha).2] at hsigned
      obtain ⟨rest, hrest⟩ := List.head?_eq_some_iff.mp (@key_of_int64 table a n hai ha).1
      exact signed_ne (hsigned.trans hrest)
    exact ⟨hnot, fun hsigned => hnot (hiff.mp hsigned)⟩
  · rintro ⟨hnot, hsigned⟩
    exact iff_of_false hsigned hnot

theorem texts_iff (h : PrintableWeights table) (ha : parseNumber a = none)
    (hb : parseNumber b = none) :
    (normalizeNumericKey table a = normalizeNumericKey table b ↔ equal table a b) ↔
      textsApart table a b := by
  rw [textsApart]
  cases hai : NumericText.parseInt64Text a with
  | none =>
    cases hbi : NumericText.parseInt64Text b with
    | none =>
      rw [normalizeNumericKey_text hai ha, normalizeNumericKey_text hbi hb]
      exact iff_true_intro (key_eq_iff h)
    | some m =>
      have hcomm {s t : Bytes} :
          equal table s t ↔ equal table t s := by
        rw [← key_eq_iff h, ← key_eq_iff h, eq_comm]
      rw [eq_comm, hcomm, texts_int64_iff h hb ha hbi hai]
      exact and_congr_right' (not_congr hcomm)
  | some n =>
    cases hbi : NumericText.parseInt64Text b with
    | none => exact texts_int64_iff h ha hb hai hbi
    | some m =>
      rw [normalizeNumericKey_int64 hai, normalizeNumericKey_int64 hbi,
        ← key_eq_iff h, (key_of_int64 hai ha).2, (key_of_int64 hbi hb).2]
      constructor
      · intro hiff hnm
        exact hiff.mp (congrArg _ hnm)
      · intro himp
        refine ⟨fun hsigned => himp (signed_injective hsigned), ?_⟩
        rintro rfl
        rw [Option.some.inj (hai.symm.trans hbi)]

/-- Buckets and comparison agree exactly where one spelling stands for each value. -/
theorem normalizeNumericKey_agrees_iff (h : UnicodeCollation.PrintableWeights table) (a b : Bytes) :
    Agrees table a b ↔ OneSpelling table a b := by
  constructor
  · intro hagrees
    exact ⟨fun ha hb heq => (numbers_iff ha hb heq).mp (hagrees.numbers ha hb heq),
      fun ha hb => (texts_iff h ha hb).mp (hagrees.texts ha hb)⟩
  · intro hone
    exact ⟨fun ha hb heq => (numbers_iff ha hb heq).mpr (hone.numbers ha hb heq),
      fun ha hb => (texts_iff h ha hb).mpr (hone.texts ha hb)⟩

/-- `7` and `7.0` are in one bucket. -/
theorem normalizeNumericKey_agrees_seven :
    Agrees UnicodeCollation.asciiTable [0x37] [0x37, 0x2E, 0x30] := by
  refine (normalizeNumericKey_agrees_iff
    UnicodeCollation.asciiTable_printableWeights _ _).mpr ⟨?_, ?_⟩
  · refine fun _ _ _ => ⟨fun n hn _ => ?_, fun n hn _ => ?_⟩
    · obtain rfl : 7 = n := Option.some.inj hn
      exact ⟨by decide +kernel, by decide⟩
    · exact nomatch (show none = some n from hn)
  · exact fun h => absurd h (by decide +kernel)

/-- `9007199254740993` and `9007199254740993.0` compare as equal and are in two buckets. -/
theorem normalizeNumericKey_apart : ¬ Agrees UnicodeCollation.asciiTable
    [0x39, 0x30, 0x30, 0x37, 0x31, 0x39, 0x39, 0x32, 0x35, 0x34, 0x37, 0x34, 0x30, 0x39, 0x39, 0x33]
    [0x39, 0x30, 0x30, 0x37, 0x31, 0x39, 0x39, 0x32, 0x35, 0x34, 0x37, 0x34, 0x30, 0x39, 0x39, 0x33,
      0x2E, 0x30] :=
  fun h => absurd (h.numbers (by decide +kernel) (by decide +kernel) (by decide +kernel))
    (by decide +kernel)

end RusqlEngine.NumericKey
