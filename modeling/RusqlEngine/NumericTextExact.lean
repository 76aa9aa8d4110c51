import RusqlEngine.NumericText
import Mathlib.Data.List.TakeWhile

/-!
# What integers in texts are worth

A text that is an integer is read in three ways: as an integer of 64 bits, as a sign and a magnitude
of 64 bits, and as a double. The first two agree where both read it, and the double is the one
nearest to it. Only the spelling of a negative integer with a plus sign before the minus sign is an
integer of 64 bits and nothing else.
-/

namespace RusqlEngine.NumericText

open Binary64 DigitText
open Buffer (Byte Bytes)

def SignedMagnitude.value (w : SignedMagnitude) : ℤ :=
  signedBy w.negative w.magnitude

/-- Both texts are integers of 64 bits, or both have a magnitude of 64 bits. -/
def bothWhole (a b : Bytes) : Prop :=
  ((parseInt64Text a).isSome ∧ (parseInt64Text b).isSome) ∨
    ((parseWideIntegerText a).isSome ∧ (parseWideIntegerText b).isSome)

instance (a b : Bytes) : Decidable (bothWhole a b) :=
  inferInstanceAs (Decidable (_ ∨ _))

def wholeValue (s : Bytes) : ℤ :=
  match parseInt64Text s, parseWideIntegerText s with
  | some n, _ => n
  | none, some w => w.value
  | none, none => 0

variable {s t rest : Bytes} {n : ℤ} {w : SignedMagnitude}

theorem bothWhole_comm {a b : Bytes} : bothWhole a b ↔ bothWhole b a :=
  or_congr and_comm and_comm

/-! ### Signs -/

theorem dropMinus_dropPlus (h : ¬ (s.head? = some plus ∧ s.tail.head? = some minus)) :
    dropMinus (dropPlus s) = dropSign s ∧
      ((dropPlus s).head? = some minus ↔ s.head? = some minus) := by
  by_cases hplus : s.head? = some plus
  · have hminus : s.tail.head? ≠ some minus := fun hminus => h ⟨hplus, hminus⟩
    have hne : s.head? ≠ some minus := by
      rw [hplus]
      decide
    rw [dropPlus, if_pos hplus, dropMinus, if_neg hminus, dropSign, if_pos (.inl hplus)]
    exact ⟨rfl, ⟨fun h => absurd h hminus, fun h => absurd h hne⟩⟩
  · rw [dropPlus, if_neg hplus, dropMinus, dropSign]
    simp only [hplus, false_or, iff_self, and_self]

theorem signedBy_zero (negative : Bool) : signedBy negative 0 = 0 := by
  cases negative
  · rfl
  · rfl

theorem signedBy_and_ne_zero (p : Prop) [Decidable p] (m : ℕ) :
    signedBy (decide (p ∧ m ≠ 0)) m = signedBy (decide p) m := by
  rcases Nat.eq_zero_or_pos m with rfl | hpos
  · rw [signedBy_zero, signedBy_zero]
  · simp only [hpos.ne', ne_eq, not_false_eq_true, and_true]

/-! ### Digits -/

theorem fromCharsWhole_eq_some {m : ℕ} :
    fromCharsWhole s = some (m, rest) ↔
      digitsOf s ≠ [] ∧ afterDigits s = rest ∧ value (digitsOf s) = m := by
  rw [fromCharsWhole]
  split
  next h => exact ⟨nofun, fun h' => absurd h h'.1⟩
  next h =>
    rw [Option.some.injEq, Prod.mk.injEq]
    exact ⟨fun h' => ⟨h, h'.2, h'.1⟩, fun h' => ⟨h'.2.2, h'.2.1⟩⟩

theorem digitsOf_append_afterDigits : digitsOf s ++ afterDigits s = s :=
  List.takeWhile_append_dropWhile

theorem digitsOf_eq_self (h : afterDigits s = []) : digitsOf s = s := by
  rw [← List.append_nil (digitsOf s), ← h, digitsOf_append_afterDigits]

theorem digitsOf_digits (h : ∀ b ∈ s, IsDigit b) : digitsOf s = s ∧ afterDigits s = [] :=
  ⟨List.takeWhile_eq_self_iff.mpr fun b hb => decide_eq_true (h b hb),
    List.dropWhile_eq_nil_iff.mpr fun b hb => decide_eq_true (h b hb)⟩

theorem scanDecimal_digits (hne : digitsOf s ≠ []) (hend : afterDigits s = []) :
    scanDecimal s = some (⟨s, 0⟩, []) := by
  rw [digitsOf_eq_self hend] at hne
  simp [scanDecimal, scanFraction, scanExponent, hend, digitsOf_eq_self hend, hne]

theorem magnitude_digits (h : value s < 2 ^ 64) :
    (Decimal.mk s 0).magnitude = some (nearest (value s) 1) := by
  rw [Decimal.magnitude, if_pos (Int.le_refl 0), Int.toNat_zero, Nat.pow_zero, Nat.mul_one,
    ofRatio_whole h]

/-! ### Integers -/

theorem int64Of_eq_some {m : ℤ} : int64Of m = some n ↔ inInt64 m ∧ m = n := by
  rw [int64Of, Option.ite_none_right_eq_some, Option.some.injEq]

theorem parseWideIntegerText_eq_some (h : parseWideIntegerText s = some w) :
    digitsOf (dropSign s) ≠ [] ∧ afterDigits (dropSign s) = [] ∧ w.magnitude < 2 ^ 64 ∧
      value (dropSign s) = w.magnitude ∧
      w.negative = decide (s.head? = some minus ∧ w.magnitude ≠ 0) := by
  rw [parseWideIntegerText] at h
  split at h
  next m hm =>
    obtain ⟨hne, hend, hvalue⟩ := fromCharsWhole_eq_some.mp hm
    split at h
    next hlt =>
      obtain rfl := Option.some.inj h
      rw [digitsOf_eq_self hend] at hvalue
      exact ⟨hne, hend, hlt, hvalue, rfl⟩
    next => exact nomatch h
  next => exact nomatch h

theorem not_plus_minus (h : digitsOf (dropSign s) ≠ []) :
    ¬ (s.head? = some plus ∧ s.tail.head? = some minus) := by
  rintro ⟨hplus, hminus⟩
  rw [dropSign, if_pos (.inl hplus)] at h
  obtain ⟨rest, hrest⟩ := List.head?_eq_some_iff.mp hminus
  rw [hrest] at h
  exact h rfl

theorem value_of_wide (h : parseWideIntegerText s = some w) :
    w.value = signedBy (s.head? = some minus) w.magnitude := by
  obtain ⟨_, _, _, _, hnegative⟩ := parseWideIntegerText_eq_some h
  rw [SignedMagnitude.value, hnegative, signedBy_and_ne_zero]

theorem parseInt64Text_of_wide (h : parseWideIntegerText s = some w) :
    parseInt64Text s = int64Of w.value := by
  obtain ⟨hne, hend, _, hvalue, _⟩ := parseWideIntegerText_eq_some h
  obtain ⟨hdrop, hsign⟩ := dropMinus_dropPlus (not_plus_minus hne)
  have hread : fromCharsWhole (dropMinus (dropPlus s)) = some (w.magnitude, []) := by
    rw [hdrop]
    refine fromCharsWhole_eq_some.mpr ⟨hne, hend, ?_⟩
    rw [digitsOf_eq_self hend, hvalue]
  rw [value_of_wide h]
  simp only [parseInt64Text, hread, hsign]

theorem plus_minus_of_int64 (h : parseInt64Text s = some n)
    (hwide : parseWideIntegerText s = none) : s.head? = some plus ∧ s.tail.head? = some minus := by
  by_contra hsigns
  obtain ⟨hdrop, _⟩ := dropMinus_dropPlus hsigns
  rw [parseInt64Text, hdrop] at h
  rw [parseWideIntegerText] at hwide
  split at h
  next m hm =>
    rw [hm] at hwide
    simp only [ite_eq_right_iff, reduceCtorEq, imp_false, not_lt] at hwide
    obtain ⟨hrange, _⟩ := int64Of_eq_some.mp h
    rw [inInt64, signedBy] at hrange
    split at hrange
    next => omega
    next => omega
  next => exact nomatch h

theorem textToNumber_plus_minus (h : s.head? = some plus ∧ s.tail.head? = some minus) :
    textToNumber s = 0 := by
  obtain ⟨rest, rfl⟩ := List.head?_eq_some_iff.mp h.1
  obtain ⟨rest, rfl⟩ := List.head?_eq_some_iff.mp h.2
  rfl

theorem parseNumber_plus_minus (h : s.head? = some plus ∧ s.tail.head? = some minus) :
    parseNumber s = none := by
  rw [parseNumber, if_pos ⟨h.1, .inr h.2⟩]

/-! ### Doubles -/

theorem isSpace_of_number {b : Byte} (h : IsDigit b ∨ b = point) : isSpace b = false := by
  rcases h with ⟨hlo, hhi⟩ | rfl
  · simp only [isSpace, Bool.decide_or, Bool.or_eq_false_iff, decide_eq_false_iff_not]
    simp only [Fin.le_def, Fin.ext_iff] at hlo hhi ⊢
    omega
  · rfl

theorem dropWhile_isSpace {b : Byte} (h : (dropSign s).head? = some b)
    (hb : IsDigit b ∨ b = point) : s.dropWhile isSpace = s := by
  cases s with
  | nil => rfl
  | cons c rest =>
    have hc : isSpace c = false := by
      rw [dropSign] at h
      split at h
      next hsign =>
        rcases hsign with hsign | hsign
        · obtain rfl := Option.some.inj hsign
          rfl
        · obtain rfl := Option.some.inj hsign
          rfl
      next =>
        obtain rfl := Option.some.inj h
        exact isSpace_of_number hb
    rw [List.dropWhile_cons, hc]
    rfl

theorem head_of_digitsOf (h : digitsOf s ≠ []) : ∃ b, s.head? = some b ∧ IsDigit b := by
  cases s with
  | nil => exact absurd rfl h
  | cons b rest =>
    refine ⟨b, rfl, ?_⟩
    by_contra hb
    rw [digitsOf, List.takeWhile_cons, decide_eq_false hb] at h
    exact h rfl

theorem textToNumber_whole {b : Byte} {d : Decimal} {u : ℕ} (h : (dropSign s).head? = some b)
    (hb : IsDigit b ∨ b = point) (hsigns : ¬ (s.head? = some plus ∧ s.tail.head? = some minus))
    (hscan : scanDecimal (dropSign s) = some (d, [])) (hvalue : d.magnitude = some u) :
    textToNumber s = signedBy (s.head? = some minus) u := by
  obtain ⟨hdrop, hminus⟩ := dropMinus_dropPlus hsigns
  have hlength : numberLength s = s.length := by
    rw [numberLength, hscan]
    rfl
  rw [textToNumber, dropWhile_isSpace h hb, hlength, List.take_length, numberValue, fromChars,
    hdrop, hscan]
  simp only [hvalue, hminus, Option.map_some]

theorem parseNumber_of_wide (h : parseWideIntegerText s = some w) :
    parseNumber s = some (signedBy w.negative (nearest w.magnitude 1)) := by
  obtain ⟨hne, hend, hlt, hvalue, hnegative⟩ := parseWideIntegerText_eq_some h
  obtain ⟨hdrop, hminus⟩ := dropMinus_dropPlus (not_plus_minus hne)
  obtain ⟨b, hhead, hb⟩ := head_of_digitsOf hne
  have hsigns :
      ¬ (s.head? = some plus ∧ (s.tail.head? = some plus ∨ s.tail.head? = some minus)) := by
    rintro ⟨hplus, htail⟩
    rw [dropSign, if_pos (.inl hplus)] at hhead
    rw [hhead] at htail
    rcases htail with hb' | hb'
    · obtain rfl := Option.some.inj hb'
      exact absurd hb (by decide)
    · obtain rfl := Option.some.inj hb'
      exact absurd hb (by decide)
  have hmagnitude : (Decimal.mk (dropSign s) 0).magnitude =
      some (nearest w.magnitude 1) := by
    rw [magnitude_digits (hvalue ▸ hlt), hvalue]
  have hsign : signedBy (s.head? = some minus) (nearest w.magnitude 1) =
      signedBy w.negative (nearest w.magnitude 1) := by
    rw [hnegative]
    rcases Nat.eq_zero_or_pos w.magnitude with hzero | hpos
    · rw [hzero, nearest_eq_of_lt (Nat.two_pow_pos 53), Nat.zero_mul, signedBy_zero, signedBy_zero]
    · simp only [hpos.ne', ne_eq, not_false_eq_true, and_true]
  rw [parseNumber, if_neg hsigns, fromChars, hdrop, hhead, scanDecimal_digits hne hend]
  simp only [hb, true_or, if_true, Option.map_some, hmagnitude, hminus, hsign]

theorem textToNumber_of_parseNumber {v : Double} (h : parseNumber s = some v) :
    textToNumber s = v := by
  rw [parseNumber] at h
  split at h
  next => exact nomatch h
  next hsigns =>
    have hsigns : ¬ (s.head? = some plus ∧ s.tail.head? = some minus) :=
      fun h => hsigns ⟨h.1, .inr h.2⟩
    obtain ⟨hdrop, hminus⟩ := dropMinus_dropPlus hsigns
    rw [hdrop] at h
    split at h
    next => exact nomatch h
    next b hhead =>
      split at h
      next hb =>
        rw [fromChars, hdrop] at h
        cases hscan : scanDecimal (dropSign s) with
        | none =>
          rw [hscan] at h
          exact nomatch h
        | some scanned =>
          obtain ⟨d, rest⟩ := scanned
          rw [hscan] at h
          cases rest with
          | cons c rest => exact nomatch h
          | nil =>
            obtain ⟨u, hu, rfl⟩ := Option.map_eq_some_iff.mp h
            rw [textToNumber_whole hhead hb hsigns hscan hu]
            simp only [hminus]
      next => exact nomatch h

theorem textToNumber_of_wide (h : parseWideIntegerText s = some w) :
    textToNumber s = signedBy w.negative (nearest w.magnitude 1) :=
  textToNumber_of_parseNumber (parseNumber_of_wide h)

theorem int64_only (h : parseInt64Text s = some n) (hwide : parseWideIntegerText s = none) :
    inInt64 (wholeValue s) ∧ textToNumber s = 0 := by
  refine ⟨?_, textToNumber_plus_minus (plus_minus_of_int64 h hwide)⟩
  rw [wholeValue, h]
  rw [parseInt64Text] at h
  split at h
  next =>
    obtain ⟨hrange, rfl⟩ := int64Of_eq_some.mp h
    exact hrange
  next => exact nomatch h

theorem wide_only (h : parseWideIntegerText s = some w) (hint : parseInt64Text s = none) :
    (2 ^ 63 ≤ wholeValue s ∧ 0 < textToNumber s) ∨
      (wholeValue s < -2 ^ 63 ∧ textToNumber s < 0) := by
  have hrange : ¬ inInt64 w.value := by
    intro hrange
    rw [parseInt64Text_of_wide h, int64Of, if_pos hrange] at hint
    exact nomatch hint
  have hvalue : wholeValue s = w.value := by
    rw [wholeValue, hint, h]
  rw [textToNumber_of_wide h, hvalue]
  rw [inInt64, SignedMagnitude.value, signedBy] at hrange
  rw [SignedMagnitude.value, signedBy, signedBy]
  have hpos : 0 < w.magnitude := by
    rw [Nat.pos_iff_ne_zero]
    rintro hzero
    rw [hzero] at hrange
    split at hrange
    next => exact hrange (by decide)
    next => exact hrange (by decide)
  have hnearest : (0 : ℤ) < nearest w.magnitude 1 :=
    Int.natCast_pos.mpr (nearest_pos hpos)
  split at hrange
  next hnegative =>
    rw [if_pos hnegative, if_pos hnegative]
    exact .inr ⟨by omega, Int.neg_neg_of_pos hnearest⟩
  next hnegative =>
    rw [if_neg hnegative, if_neg hnegative]
    exact .inl ⟨by omega, hnearest⟩

/-! ### The comparison -/

theorem eq_compare {x y : ℤ} {o : Ordering} (hlt : o = .lt ↔ x < y) (heq : o = .eq ↔ x = y) :
    o = compare x y := by
  rcases lt_trichotomy x y with h | h | h
  · rw [hlt.mpr h, Int.compare_eq_lt.mpr h]
  · rw [heq.mpr h, Int.compare_eq_eq.mpr h]
  · rw [Int.compare_eq_gt.mpr h]
    cases o with
    | lt => exact absurd (hlt.mp rfl) (Int.not_lt.mpr (Int.le_of_lt h))
    | eq => exact absurd (heq.mp rfl) (Int.ne_of_gt h)
    | gt => rfl

theorem order_eq_compare {u v : SignedMagnitude} (hu : u.negative → 0 < u.magnitude)
    (hv : v.negative → 0 < v.magnitude) : u.order v = compare u.value v.value := by
  obtain ⟨nu, mu⟩ := u
  obtain ⟨nv, mv⟩ := v
  refine eq_compare ?_ ?_
  · cases nu <;> cases nv <;>
      simp [SignedMagnitude.order, SignedMagnitude.value, signedBy, Nat.compare_eq_lt,
        Nat.compare_eq_gt] at hu hv ⊢
    all_goals omega
  · cases nu <;> cases nv <;>
      simp [SignedMagnitude.order, SignedMagnitude.value, signedBy] at hu hv ⊢
    all_goals omega

theorem negative_of_wide (h : parseWideIntegerText s = some w) : w.negative → 0 < w.magnitude := by
  obtain ⟨_, _, _, _, hnegative⟩ := parseWideIntegerText_eq_some h
  rw [hnegative, decide_eq_true_eq]
  exact fun h => Nat.pos_of_ne_zero h.2

theorem wholeValue_of_int64 (h : parseInt64Text s = some n) : wholeValue s = n := by
  rw [wholeValue, h]

theorem wholeValue_of_wide (h : parseWideIntegerText s = some w) : wholeValue s = w.value := by
  rw [wholeValue, h]
  cases hint : parseInt64Text s with
  | none => rfl
  | some n => exact (int64Of_eq_some.mp ((parseInt64Text_of_wide h).symm.trans hint)).2.symm

theorem compareNumbers_of_bothWhole {a b : Bytes} (h : bothWhole a b) :
    compareNumbers a b = compare (wholeValue a) (wholeValue b) := by
  rw [compareNumbers]
  split
  next x y hx hy => rw [wholeValue_of_int64 hx, wholeValue_of_int64 hy]
  next hnot =>
    rcases h with ⟨ha, hb⟩ | ⟨ha, hb⟩
    · obtain ⟨x, hx⟩ := Option.isSome_iff_exists.mp ha
      obtain ⟨y, hy⟩ := Option.isSome_iff_exists.mp hb
      exact absurd hy (hnot x y hx)
    · obtain ⟨u, hu⟩ := Option.isSome_iff_exists.mp ha
      obtain ⟨v, hv⟩ := Option.isSome_iff_exists.mp hb
      rw [wholeValue_of_wide hu, wholeValue_of_wide hv, hu, hv]
      exact order_eq_compare (negative_of_wide hu) (negative_of_wide hv)

theorem compareNumbers_of_not_bothWhole {a b : Bytes} (h : ¬ bothWhole a b) :
    compareNumbers a b = compare (textToNumber a) (textToNumber b) := by
  rw [compareNumbers]
  split
  next hx hy => exact absurd (.inl ⟨by rw [hx]; rfl, by rw [hy]; rfl⟩) h
  next =>
    split
    next hu hv => exact absurd (.inr ⟨by rw [hu]; rfl, by rw [hv]; rfl⟩) h
    next => rfl

theorem compareNumbers_eq_swap (a b : Bytes) : compareNumbers a b = (compareNumbers b a).swap := by
  by_cases h : bothWhole a b
  · rw [compareNumbers_of_bothWhole h, compareNumbers_of_bothWhole (bothWhole_comm.mp h)]
    exact Std.OrientedOrd.eq_swap
  · rw [compareNumbers_of_not_bothWhole h,
      compareNumbers_of_not_bothWhole (mt bothWhole_comm.mpr h)]
    exact Std.OrientedOrd.eq_swap

end RusqlEngine.NumericText
