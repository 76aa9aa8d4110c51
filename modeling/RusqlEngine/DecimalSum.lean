import RusqlEngine.Library.Rounding
import RusqlEngine.NumericTextExact

/-!
# Sums of decimals

`SUM` and `AVG` add decimal texts as a count of units of a power of ten, in 64 bits. An operation on
`int64` that overflows has no result at all; a sum that leaves the range on purpose, which the
checked operations find out, is no longer exact.
-/

namespace RusqlEngine.NumericText

open DigitText
open Buffer (Byte Bytes)

/-- The operations of `int64_arith`. -/
inductive Arith
  | add | sub | mul
deriving DecidableEq

def int64Max : ℤ := 2 ^ 63 - 1

def int64Min : ℤ := -2 ^ 63

def int64Arith (op : Arith) (a b : ℤ) : Option ℤ :=
  match op with
  | .add => if 0 < b ∧ int64Max - b < a ∨ b < 0 ∧ a < int64Min - b then none else some (a + b)
  | .sub => if b < 0 ∧ int64Max + b < a ∨ 0 < b ∧ a < int64Min + b then none else some (a - b)
  | .mul =>
    if a = 0 ∨ b = 0 then some 0
    else if a = -1 ∧ b = int64Min ∨ b = -1 ∧ a = int64Min then none
    else if
        if 0 < a then (if 0 < b then int64Max.tdiv b < a else b < int64Min.tdiv a)
        else (if 0 < b then a < int64Min.tdiv b else a < int64Max.tdiv b) then none
    else some (a * b)

/-- A sum of decimals as `units` of `10 ^ -scale`; `maxPlaces` are the most places that a value was
written with. -/
structure DecimalSum where
  units : ℤ
  scale : ℕ
  maxPlaces : ℕ
  count : ℕ
  exact : Bool
deriving DecidableEq

/-- What has been read of a text. -/
structure Mantissa where
  mantissa : ℤ
  places : ℕ
  digits : ℕ
  afterPoint : Bool
deriving DecidableEq

/-- The characters behind the sign; nothing inside for a text that is no plain decimal of at most 18
digits. -/
def readMantissa : Bytes → Mantissa → Option (Option Mantissa)
  | [], m => some (some m)
  | c :: rest, m =>
    if c = point ∧ m.afterPoint = false then readMantissa rest { m with afterPoint := true }
    else if ¬ IsDigit c ∨ 18 < m.digits + 1 then some none
    else
      (int64Of (m.mantissa * 10)).bind fun tens =>
        (int64Of (tens + (c.val - 0x30 : ℕ))).bind fun mantissa =>
          readMantissa rest
            { m with
              mantissa := mantissa
              places := if m.afterPoint then m.places + 1 else m.places
              digits := m.digits + 1 }

/-- The zeros at the end of a fraction dropped. -/
def dropZeros (mantissa : ℤ) : ℕ → ℤ × ℕ
  | 0 => (mantissa, 0)
  | places + 1 =>
    if mantissa.tmod 10 = 0 then dropZeros (mantissa.tdiv 10) places else (mantissa, places + 1)

namespace DecimalSum

def start : DecimalSum where
  units := 0
  scale := 0
  maxPlaces := 0
  count := 0
  exact := true

def pow10 : ℕ → Option ℤ
  | 0 => some 1
  | n + 1 => (pow10 n).bind fun p => int64Of (p * 10)

/-- `widen`; nothing inside where it answers false. -/
def widen (s : DecimalSum) (places : ℕ) : Option (Option DecimalSum) :=
  if places = s.scale then some (some s)
  else (pow10 (places - s.scale)).map fun p =>
    (int64Arith .mul s.units p).map fun widened => { s with units := widened, scale := places }

/-- The value in the units of the sum. -/
def inUnits (s : DecimalSum) (mantissa : ℤ) (places : ℕ) : Option (Option ℤ) :=
  if places < s.scale then (pow10 (s.scale - places)).map fun p => int64Arith .mul mantissa p
  else some (some mantissa)

/-- A value added to the sum, once the sum has its places. -/
def addUnits (s : DecimalSum) (mantissa : ℤ) (places : ℕ) : Option DecimalSum :=
  (s.inUnits mantissa places).map fun scaled =>
    match scaled.bind fun mantissa => int64Arith .add s.units mantissa with
    | none => { s with exact := false }
    | some total => { s with units := total }

/-- A value added to the sum. -/
def addMantissa (s : DecimalSum) (mantissa : ℤ) (places : ℕ) : Option DecimalSum :=
  (if s.scale < places then s.widen places else some (some s)).bind fun widened =>
    match widened with
    | none => some { s with exact := false }
    | some s => s.addUnits mantissa places

def add (s : DecimalSum) (text : Bytes) : Option DecimalSum :=
  let s := { s with count := s.count + 1 }
  if s.exact = false then some s
  else
    (readMantissa (dropSign text) ⟨0, 0, 0, false⟩).bind fun read =>
      match read with
      | none => some { s with exact := false }
      | some m =>
        if m.digits = 0 then some { s with exact := false }
        else
          let value := dropZeros m.mantissa m.places
          let s := { s with maxPlaces := max s.maxPlaces m.places }
          (if text.head? = some minus then int64Of (-value.1) else some value.1).bind
            fun mantissa => s.addMantissa mantissa value.2

def addAll (s : DecimalSum) (texts : List Bytes) : Option DecimalSum :=
  texts.foldlM add s

/-- The fraction that `average_text` divides. -/
def fraction (s : DecimalSum) (divisor : ℤ) (places : ℕ) : Option (Option (ℤ × ℤ)) :=
  if s.scale ≤ places then (pow10 (places - s.scale)).map fun p =>
    (int64Arith .mul s.units p).map fun numerator => (numerator, divisor)
  else (pow10 (s.scale - places)).map fun p =>
    (int64Arith .mul divisor p).map fun denominator => (s.units, denominator)

/-- The quotient of `average_text`, rounded. -/
def roundedQuotient (numerator denominator : ℤ) : Option ℤ :=
  (int64Of (numerator.tdiv denominator)).bind fun quotient =>
    let remainder := numerator.tmod denominator
    (if remainder < 0 then int64Of (-remainder) else some remainder).bind fun absRemainder =>
      (int64Of (denominator - absRemainder)).bind fun gap =>
        if gap ≤ absRemainder then int64Of (quotient + if numerator < 0 then -1 else 1)
        else some quotient

/-- A quotient with the point set. -/
def quotientText (quotient : ℤ) (places : ℕ) : Bytes :=
  let digits := padded 1 quotient.natAbs
  let digits := if digits.length ≤ places then
      List.replicate (places + 1 - digits.length) (digitByte 0) ++ digits
    else digits
  (if quotient < 0 then [minus] else []) ++
    (digits.take (digits.length - places) ++ point :: digits.drop (digits.length - places))

/-- `average_text`; nothing inside where it answers `nullopt`. -/
def averageText (s : DecimalSum) (divisor : ℤ) (places : ℕ) : Option (Option Bytes) :=
  (s.fraction divisor places).bind fun fraction =>
    match fraction with
    | none => some none
    | some (numerator, denominator) =>
      (roundedQuotient numerator denominator).map fun quotient =>
        some (quotientText quotient places)

/-- The places that `AVG` asks for. -/
def averagePlaces (s : DecimalSum) : ℕ :=
  min (s.maxPlaces + 4) 30

end DecimalSum

variable {n : ℤ}

section

variable {a b : ℤ}

theorem inInt64_iff : inInt64 n ↔ int64Min ≤ n ∧ n ≤ int64Max := by
  rw [inInt64, int64Min, int64Max, Int.le_sub_one_iff]

theorem int64Of_of_in (h : inInt64 n) : int64Of n = some n := by
  rw [int64Of, if_pos h]

theorem int64Of_of_not (h : ¬ inInt64 n) : int64Of n = none := by
  rw [int64Of, if_neg h]

theorem checked_eq {p : Prop} [Decidable p] (h : p ↔ ¬ inInt64 n) :
    (if p then none else some n) = int64Of n := by
  by_cases hn : inInt64 n
  · rw [if_neg (fun hp => h.mp hp hn), int64Of_of_in hn]
  · rw [if_pos (h.mpr hn), int64Of_of_not hn]

theorem int64Arith_add (ha : inInt64 a) : int64Arith .add a b = int64Of (a + b) := by
  refine checked_eq ?_
  rw [inInt64_iff] at *
  omega

theorem tdiv_lt_iff {d q : ℤ} (hn : 0 ≤ n) (hd : 0 < d) : n.tdiv d < q ↔ n < q * d := by
  rw [Int.tdiv_eq_ediv_of_nonneg hn, Int.ediv_lt_iff_lt_mul hd]

theorem mul_test (ha : a ≠ 0) (hb : b ≠ 0) :
    (if 0 < a then (if 0 < b then int64Max.tdiv b < a else b < int64Min.tdiv a)
      else (if 0 < b then a < int64Min.tdiv b else a < int64Max.tdiv b)) ↔
      ¬ inInt64 (a * b) := by
  have hmax : (0 : ℤ) ≤ int64Max := by decide
  have hmin : int64Min = -(int64Max + 1) := by decide
  have hmax1 : (0 : ℤ) ≤ int64Max + 1 := by decide
  rw [inInt64_iff, not_and_or, not_le, not_le]
  split_ifs with h0 h1 h1
  · have hpos : 0 < a * b := mul_pos h0 h1
    rw [tdiv_lt_iff hmax h1]
    omega
  · have hb : 0 < -b := by omega
    have hneg : a * b < 0 := mul_neg_of_pos_of_neg h0 (by omega)
    rw [hmin, Int.neg_tdiv, lt_neg, tdiv_lt_iff hmax1 h0, neg_mul, mul_comm b a]
    omega
  · have hneg : a * b < 0 := mul_neg_of_neg_of_pos (by omega) h1
    rw [hmin, Int.neg_tdiv, lt_neg, tdiv_lt_iff hmax1 h1, neg_mul]
    omega
  · have hb : 0 < -b := by omega
    have hpos : 0 < a * b := mul_pos_of_neg_of_neg (by omega) (by omega)
    rw [← neg_neg b, Int.tdiv_neg, lt_neg, tdiv_lt_iff hmax hb, neg_neg, neg_mul_neg]
    omega

theorem int64Arith_mul (a b : ℤ) : int64Arith .mul a b = int64Of (a * b) := by
  rw [int64Arith]
  by_cases h0 : a = 0 ∨ b = 0
  · have hzero : a * b = 0 := mul_eq_zero.mpr h0
    rw [if_pos h0, hzero, int64Of_of_in (by decide)]
  · obtain ⟨ha0, hb0⟩ := not_or.mp h0
    rw [if_neg h0]
    by_cases h1 : a = -1 ∧ b = int64Min ∨ b = -1 ∧ a = int64Min
    · have hout : ¬ inInt64 (a * b) := by
        rcases h1 with ⟨rfl, rfl⟩ | ⟨rfl, rfl⟩ <;> decide
      rw [if_pos h1, int64Of_of_not hout]
    · rw [if_neg h1]
      exact checked_eq (mul_test ha0 hb0)

end

/-- At most 18 digits have been read. -/
structure Mantissa.Fits (m : Mantissa) : Prop where
  digits : m.digits ≤ 18
  places : m.places ≤ m.digits
  nonneg : 0 ≤ m.mantissa
  lt : m.mantissa < 10 ^ m.digits

theorem inInt64_of_lt {k : ℕ} (hk : k ≤ 18) (h0 : 0 ≤ n) (h : n < 10 ^ k) : inInt64 n := by
  have hpow : (10 : ℤ) ^ k ≤ 10 ^ 18 := pow_le_pow_right₀ (by decide) hk
  have hmax : (10 : ℤ) ^ 18 ≤ int64Max := by decide
  rw [inInt64_iff]
  exact ⟨le_trans (by decide) h0, by omega⟩

/-- One digit more. -/
def Mantissa.push (m : Mantissa) (c : Byte) : Mantissa :=
  { m with
    mantissa := m.mantissa * 10 + (c.val - 0x30 : ℕ)
    places := if m.afterPoint then m.places + 1 else m.places
    digits := m.digits + 1 }

theorem Mantissa.Fits.push {m : Mantissa} (h : m.Fits) {c : Byte} (hc : IsDigit c)
    (hle : m.digits + 1 ≤ 18) : (m.push c).Fits := by
  have hval := (isDigit_iff_val.mp hc).2
  have hpow : (10 : ℤ) ^ (m.digits + 1) = 10 ^ m.digits * 10 := pow_succ 10 m.digits
  have hnonneg := h.nonneg
  have hlt := h.lt
  have hplaces := h.places
  refine ⟨hle, ?_, ?_, ?_⟩
  · change (if m.afterPoint then m.places + 1 else m.places) ≤ m.digits + 1
    split <;> omega
  · change 0 ≤ m.mantissa * 10 + (c.val - 0x30 : ℕ)
    omega
  · change m.mantissa * 10 + (c.val - 0x30 : ℕ) < 10 ^ (m.digits + 1)
    omega

theorem readMantissa_digit {m : Mantissa} (h : m.Fits) {c : Byte} (hc : IsDigit c) (rest : Bytes) :
    readMantissa (c :: rest) m =
      if m.digits + 1 ≤ 18 then readMantissa rest (m.push c) else some none := by
  have hpoint : ¬ (c = point ∧ m.afterPoint = false) := by
    rintro ⟨rfl, -⟩
    exact absurd hc (by decide)
  rw [readMantissa, if_neg hpoint]
  by_cases hle : m.digits + 1 ≤ 18
  · have hpush := h.push hc hle
    have hsum : inInt64 (m.mantissa * 10 + (c.val - 0x30 : ℕ)) :=
      inInt64_of_lt hle hpush.nonneg hpush.lt
    have htens : inInt64 (m.mantissa * 10) := by
      have hnonneg := h.nonneg
      rw [inInt64] at hsum ⊢
      omega
    have hgo : ¬ (¬ IsDigit c ∨ 18 < m.digits + 1) := by
      rw [not_or, not_not, not_lt]
      exact ⟨hc, hle⟩
    rw [if_neg hgo, if_pos hle, int64Of_of_in htens, Option.bind_some, int64Of_of_in hsum,
      Option.bind_some]
    rfl
  · rw [if_pos (.inr (not_le.mp hle)), if_neg hle]

theorem readMantissa_fits {m : Mantissa} (h : m.Fits) (text : Bytes) :
    ∃ read, readMantissa text m = some read ∧ ∀ m', read = some m' → m'.Fits := by
  induction text generalizing m with
  | nil =>
    refine ⟨some m, rfl, fun m' hm' => ?_⟩
    rwa [← Option.some.inj hm']
  | cons c rest ih =>
    by_cases hc : IsDigit c
    · rw [readMantissa_digit h hc]
      by_cases hle : m.digits + 1 ≤ 18
      · rw [if_pos hle]
        exact ih (h.push hc hle)
      · rw [if_neg hle]
        exact ⟨none, rfl, nofun⟩
    · rw [readMantissa]
      by_cases hpoint : c = point ∧ m.afterPoint = false
      · rw [if_pos hpoint]
        exact ih ⟨h.digits, h.places, h.nonneg, h.lt⟩
      · rw [if_neg hpoint, if_pos (.inl hc)]
        exact ⟨none, rfl, nofun⟩

theorem dropZeros_le (places : ℕ) (h : 0 ≤ n) :
    (dropZeros n places).2 ≤ places ∧ 0 ≤ (dropZeros n places).1 ∧ (dropZeros n places).1 ≤ n := by
  induction places generalizing n with
  | zero => exact ⟨le_rfl, h, le_rfl⟩
  | succ places ih =>
    rw [dropZeros]
    split
    · have hdiv : n.tdiv 10 = n / 10 := Int.tdiv_eq_ediv_of_nonneg h
      obtain ⟨hplaces, h0, hle⟩ := ih (n := n.tdiv 10) (by omega)
      exact ⟨by omega, h0, by omega⟩
    · exact ⟨le_rfl, h, le_rfl⟩

namespace DecimalSum

variable {s : DecimalSum}

theorem pow10_of_le {n : ℕ} (h : n ≤ 18) : pow10 n = some (10 ^ n) := by
  induction n with
  | zero => rfl
  | succ n ih =>
    have hpow : (10 : ℤ) ^ n * 10 = 10 ^ (n + 1) := (pow_succ 10 n).symm
    have hle : (10 : ℤ) ^ (n + 1) ≤ 10 ^ 18 := pow_le_pow_right₀ (by decide) h
    have hin : inInt64 (10 ^ (n + 1)) := by
      have hmax : (10 : ℤ) ^ 18 ≤ int64Max := by decide
      exact inInt64_iff.mpr ⟨le_trans (by decide) (pow_nonneg (by decide) _), by omega⟩
    rw [pow10, ih (Nat.le_of_succ_le h), Option.bind_some, hpow, int64Of_of_in hin]

theorem pow10_of_lt {n : ℕ} (h : 18 < n) : pow10 n = none := by
  obtain ⟨k, rfl⟩ := Nat.exists_eq_add_of_le h
  induction k with
  | zero => decide
  | succ k ih =>
    rw [← Nat.add_assoc, pow10, ih (by omega)]
    rfl

/-- What every sum of texts keeps. -/
structure Sound (s : DecimalSum) : Prop where
  units : inInt64 s.units
  scale : s.scale ≤ s.maxPlaces
  places : s.maxPlaces ≤ 18

theorem start_sound : start.Sound :=
  ⟨by decide, le_rfl, by decide⟩

theorem Sound.inexact (h : s.Sound) : Sound { s with exact := false } :=
  ⟨h.units, h.scale, h.places⟩

theorem widen_sound (h : s.Sound) {places : ℕ} (hp : places ≤ s.maxPlaces) :
    ∃ widened, s.widen places = some widened ∧ ∀ s', widened = some s' → s'.Sound := by
  rw [widen]
  split
  · exact ⟨_, rfl, fun s' hs' => Option.some.inj hs' ▸ h⟩
  · rw [pow10_of_le ((Nat.sub_le _ _).trans (hp.trans h.places)), Option.map_some, int64Arith_mul]
    refine ⟨_, rfl, fun s' hs' => ?_⟩
    obtain ⟨units, hunits, rfl⟩ := Option.map_eq_some_iff.mp hs'
    obtain ⟨hin, rfl⟩ := int64Of_eq_some.mp hunits
    exact ⟨hin, hp, h.places⟩

theorem addUnits_sound (h : s.Sound) (mantissa : ℤ) (places : ℕ) :
    ∃ s', s.addUnits mantissa places = some s' ∧ s'.Sound := by
  have hscaled : ∃ scaled, s.inUnits mantissa places = some scaled := by
    rw [inUnits]
    split
    · rw [pow10_of_le ((Nat.sub_le _ _).trans (h.scale.trans h.places)), Option.map_some]
      exact ⟨_, rfl⟩
    · exact ⟨_, rfl⟩
  obtain ⟨scaled, hscaled⟩ := hscaled
  rw [addUnits, hscaled, Option.map_some]
  refine ⟨_, rfl, ?_⟩
  split
  · exact h.inexact
  next total htotal =>
    obtain ⟨m, -, hsum⟩ := Option.bind_eq_some_iff.mp htotal
    rw [int64Arith_add h.units, int64Of_eq_some] at hsum
    obtain ⟨hin, rfl⟩ := hsum
    exact ⟨hin, h.scale, h.places⟩

theorem addMantissa_sound (h : s.Sound) (mantissa : ℤ) {places : ℕ} (hp : places ≤ s.maxPlaces) :
    ∃ s', s.addMantissa mantissa places = some s' ∧ s'.Sound := by
  have hwidened : ∃ widened, (if s.scale < places then s.widen places else some (some s)) =
      some widened ∧ ∀ s', widened = some s' → s'.Sound := by
    split
    · exact widen_sound h hp
    · exact ⟨_, rfl, fun s' hs' => Option.some.inj hs' ▸ h⟩
  obtain ⟨widened, hwidened, hsound⟩ := hwidened
  rw [addMantissa, hwidened, Option.bind_some]
  cases widened with
  | none => exact ⟨_, rfl, h.inexact⟩
  | some s' => exact addUnits_sound (hsound s' rfl) mantissa places

theorem add_sound (h : s.Sound) (text : Bytes) : ∃ s', s.add text = some s' ∧ s'.Sound := by
  have hcount : Sound { s with count := s.count + 1 } := ⟨h.units, h.scale, h.places⟩
  have hstart : Mantissa.Fits ⟨0, 0, 0, false⟩ := ⟨by decide, le_rfl, le_rfl, by decide⟩
  rw [add]
  split
  · exact ⟨_, rfl, hcount⟩
  · obtain ⟨read, hread, hfits⟩ := readMantissa_fits hstart (dropSign text)
    rw [hread, Option.bind_some]
    cases read with
    | none => exact ⟨_, rfl, hcount.inexact⟩
    | some m =>
      have hm := hfits m rfl
      dsimp only
      split
      · exact ⟨_, rfl, hcount.inexact⟩
      · obtain ⟨hplaces, h0, hle⟩ := dropZeros_le m.places hm.nonneg
        have hpow : (dropZeros m.mantissa m.places).1 < 10 ^ m.digits := hle.trans_lt hm.lt
        have hin := inInt64_iff.mp (inInt64_of_lt hm.digits h0 hpow)
        have hneg : inInt64 (-(dropZeros m.mantissa m.places).1) := by
          have hmin : int64Min = -(int64Max + 1) := by decide
          rw [inInt64_iff]
          omega
        have hmax : m.places ≤ 18 := hm.places.trans hm.digits
        have hs : Sound { s with
            count := s.count + 1
            maxPlaces := max s.maxPlaces m.places } :=
          ⟨h.units, h.scale.trans (le_max_left _ _), max_le h.places hmax⟩
        have hvalue : ∃ mantissa, (if text.head? = some minus then
            int64Of (-(dropZeros m.mantissa m.places).1)
            else some (dropZeros m.mantissa m.places).1) = some mantissa := by
          split
          · exact ⟨_, int64Of_of_in hneg⟩
          · exact ⟨_, rfl⟩
        obtain ⟨mantissa, hmantissa⟩ := hvalue
        rw [hmantissa, Option.bind_some]
        exact addMantissa_sound hs mantissa (hplaces.trans (le_max_right _ _))

theorem addAll_sound (h : s.Sound) (texts : List Bytes) :
    ∃ s', s.addAll texts = some s' ∧ s'.Sound := by
  induction texts generalizing s with
  | nil => exact ⟨s, rfl, h⟩
  | cons text texts ih =>
    obtain ⟨s₁, hs₁, hsound⟩ := add_sound h text
    obtain ⟨s', hs', hsound'⟩ := ih hsound
    refine ⟨s', ?_, hsound'⟩
    rw [addAll, List.foldlM_cons, hs₁]
    exact hs'

theorem roundedQuotient_eq {d : ℤ} (hn : inInt64 n) (hd : 0 < d) (hd' : inInt64 d) :
    roundedQuotient n d = some (Rounding.halfAway (n / d)) := by
  have hmin : int64Min = -9223372036854775808 := by decide
  have hmax : int64Max = 9223372036854775807 := by decide
  have hrem : (n.tmod d).natAbs < d.natAbs := by
    rw [Int.natAbs_tmod]
    exact Nat.mod_lt _ (Int.natAbs_pos.mpr hd.ne')
  have hquot : (n.tdiv d).natAbs ≤ n.natAbs := Int.natAbs_tdiv_le_natAbs n d
  have hwhole : d = 1 → n.tdiv d = n ∧ n.tmod d = 0 := by
    rintro rfl
    exact ⟨Int.tdiv_one n, Int.tmod_one n⟩
  have hhalf : 2 ≤ d → (n.tdiv d).natAbs ≤ n.natAbs / 2 := by
    intro h2
    rw [Int.natAbs_tdiv]
    exact Nat.div_le_div_left (by omega) two_pos
  rw [inInt64_iff] at hn hd'
  have habs : (if n.tmod d < 0 then int64Of (-n.tmod d) else some (n.tmod d)) =
      some |n.tmod d| := by
    split
    next h =>
      rw [abs_of_neg h]
      exact int64Of_of_in (inInt64_iff.mpr (by omega))
    next h => rw [abs_of_nonneg (not_lt.mp h)]
  rw [Int.abs_eq_natAbs] at habs
  have hin : inInt64 (n.tdiv d) := inInt64_iff.mpr (by omega)
  have hgap : inInt64 (d - (n.tmod d).natAbs) := inInt64_iff.mpr (by omega)
  rw [roundedQuotient, int64Of_of_in hin, Option.bind_some]
  dsimp only
  rw [habs, Option.bind_some, int64Of_of_in hgap, Option.bind_some,
    Rounding.halfAway_intCast_div hd, Int.abs_eq_natAbs]
  split
  next h =>
    refine int64Of_of_in (inInt64_iff.mpr ?_)
    split <;> omega
  next h => rw [add_zero]

theorem quotientText_eq (quotient : ℤ) (places : ℕ) :
    quotientText quotient places = fixedPoint places quotient := by
  rw [quotientText, pad_padded_one, fixedPoint, point, minus, insert_point]

def average (s : DecimalSum) (divisor : ℤ) (places : ℕ) : ℚ :=
  s.units / 10 ^ s.scale / divisor * 10 ^ places

/-- Nothing overflows, and an average given is the exact one, rounded half away from zero and
written with so many places. -/
def Averages (s : DecimalSum) (divisor : ℤ) (places : ℕ) : Prop :=
  ∃ answer, s.averageText divisor places = some answer ∧ ∀ text, answer = some text →
    text = fixedPoint places (Rounding.halfAway (s.average divisor places))

theorem averagePlaces_eq (h : s.Sound) : s.averagePlaces = s.maxPlaces + 4 := by
  have := h.places
  rw [averagePlaces]
  omega

theorem fraction_eq (h : s.Sound) (divisor : ℤ) : s.fraction divisor s.averagePlaces =
    (pow10 (s.maxPlaces + 4 - s.scale)).map fun p =>
      (int64Of (s.units * p)).map fun numerator => (numerator, divisor) := by
  have hle : s.scale ≤ s.averagePlaces := by
    rw [averagePlaces_eq h]
    exact h.scale.trans (Nat.le_add_right _ 4)
  rw [fraction, if_pos hle, averagePlaces_eq h]
  simp only [int64Arith_mul]

theorem averages_iff (h : s.Sound) {divisor : ℤ} (hd : 1 ≤ divisor) (hd' : inInt64 divisor) :
    s.Averages divisor s.averagePlaces ↔ s.maxPlaces ≤ s.scale + 14 := by
  rw [Averages, averageText, fraction_eq h]
  by_cases hsmall : s.maxPlaces ≤ s.scale + 14
  · rw [pow10_of_le (by omega), Option.map_some, Option.bind_some]
    refine iff_of_true ?_ hsmall
    by_cases hin : inInt64 (s.units * 10 ^ (s.maxPlaces + 4 - s.scale))
    · rw [int64Of_of_in hin, Option.map_some]
      dsimp only
      rw [roundedQuotient_eq hin hd hd', Option.map_some]
      refine ⟨_, rfl, fun text htext => ?_⟩
      rw [← Option.some.inj htext, quotientText_eq]
      congr 2
      have hscale := h.scale
      have hplaces : s.averagePlaces = s.maxPlaces + 4 - s.scale + s.scale := by
        rw [averagePlaces_eq h]
        omega
      have hten : (10 : ℚ) ^ s.scale ≠ 0 := pow_ne_zero _ (by decide)
      rw [average, hplaces, pow_add, Int.cast_mul, Int.cast_pow, Int.cast_ofNat]
      field_simp
    · rw [int64Of_of_not hin]
      exact ⟨none, rfl, fun _ htext => by cases htext⟩
  · rw [pow10_of_lt (by omega)]
    refine iff_of_false ?_ hsmall
    rintro ⟨answer, hanswer, -⟩
    cases hanswer

/-- The texts of a column are added without an overflow, and their average is the exact quotient,
rounded half away from zero, or is declined, as long as the sum has at most 14 places fewer than the
longest fraction. -/
theorem averages_of_texts_iff (texts : List Bytes) :
    ∃ s, start.addAll texts = some s ∧ ∀ divisor, 1 ≤ divisor → inInt64 divisor →
      (s.Averages divisor s.averagePlaces ↔ s.maxPlaces ≤ s.scale + 14) := by
  obtain ⟨s, hs, hsound⟩ := addAll_sound start_sound texts
  exact ⟨s, hs, fun _ hd hd' => averages_iff hsound hd hd'⟩

/-- The average of `1.5` and `-2.75`. -/
theorem averages_two_texts : ∃ s,
    start.addAll [[0x31, 0x2E, 0x35], [0x2D, 0x32, 0x2E, 0x37, 0x35]] = some s ∧
      s.exact ∧ s.Averages 2 s.averagePlaces ∧
      s.averageText 2 s.averagePlaces =
        some (some [0x2D, 0x30, 0x2E, 0x36, 0x32, 0x35, 0x30, 0x30, 0x30]) := by
  have hsum : start.addAll [[0x31, 0x2E, 0x35], [0x2D, 0x32, 0x2E, 0x37, 0x35]] =
      some ⟨-125, 2, 2, 2, true⟩ := by decide
  obtain ⟨s, hs, hiff⟩ :=
    averages_of_texts_iff [[0x31, 0x2E, 0x35], [0x2D, 0x32, 0x2E, 0x37, 0x35]]
  obtain rfl := Option.some.inj (hsum.symm.trans hs)
  exact ⟨_, hs, rfl, (hiff 2 (by decide) (by decide)).mpr (by decide), by decide⟩

/-- `1.000000000000000`. -/
def longOne : Bytes :=
  0x31 :: 0x2E :: List.replicate 15 0x30

/-- The average of `1.000000000000000` alone needs `10 ^ 19`. -/
theorem average_overflows : ∃ s, start.addAll [longOne] = some s ∧ s.exact ∧
    s.averageText 1 s.averagePlaces = none ∧ ¬ s.Averages 1 s.averagePlaces := by
  have hnone : (⟨1, 0, 15, 1, true⟩ : DecimalSum).averageText 1 19 = none := by decide
  refine ⟨⟨1, 0, 15, 1, true⟩, by decide, rfl, hnone, ?_⟩
  rintro ⟨answer, hanswer, -⟩
  exact absurd (hnone.symm.trans hanswer) (by simp)

end DecimalSum

end RusqlEngine.NumericText
