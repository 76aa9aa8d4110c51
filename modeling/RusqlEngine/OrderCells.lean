import RusqlEngine.Library.WeakOrder
import RusqlEngine.NumericTextExact
import RusqlEngine.OrderRows

/-!
# How ORDER BY compares two texts

The cells of a scan compare as numbers where both are read as one, exactly where both are integers
of 64 bits, and by the collation elsewhere. The other comparisons read other texts as numbers, or
other numbers exactly. Where two of them differ, and where the order of the cells runs in a circle,
is a matter of a few kinds of texts.
-/

namespace RusqlEngine.OrderRows

open NumericText (parseNumber textToNumber_of_parseNumber wholeValue)
open WeakOrder Binary64
open Buffer (Bytes)
open UnicodeCollation (isNullText)
open RowList (Consistent)
open Std (OrientedCmp)

/-! ### What is read as a number -/

/-- Whether a cell of the class is compared as a number. -/
def numeric (cls : ValueClass) (s : Bytes) : Bool :=
  match cls with
  | .text => false
  | .number => !isNullText s
  | .unknown => (NumericText.parseInt64Text s).isSome || (parseNumber s).isSome

def doubleOf (s : Bytes) : Double :=
  match NumericText.parseInt64Text s with
  | some n => wholeDouble n
  | none => NumericText.textToNumber s

def numericOrder : Bytes → Bytes → Ordering :=
  exactOr NumericText.parseInt64Text doubleOf

/-- Whether two texts of the class are compared as numbers. -/
def numericText (cls : ValueClass) (s : Bytes) : Bool :=
  match cls with
  | .text => false
  | .number => !isNullText s
  | .unknown => (parseNumber s).isSome

def doubleOrder (a b : Bytes) : Ordering :=
  compare (NumericText.textToNumber a) (NumericText.textToNumber b)

/-- The order of the cells of a class. -/
def cellOrder (table : UnicodeCollation.Table) (cls : ValueClass) : Bytes → Bytes → Ordering :=
  mixed (numeric cls) numericOrder (UnicodeCollation.compare table)

/-- The order of the texts of a class. -/
def groupedOrder (table : UnicodeCollation.Table) (cls : ValueClass) : Bytes → Bytes → Ordering :=
  mixed (numericText cls) NumericText.compareNumbers (UnicodeCollation.compare table)

/-- The order of the texts of a set operation. -/
def setOrder (table : UnicodeCollation.Table) : Bytes → Bytes → Ordering :=
  mixed (fun s => (parseNumber s).isSome) doubleOrder (UnicodeCollation.compare table)

instance : OrientedCmp NumericText.compareNumbers :=
  ⟨NumericText.compareNumbers_eq_swap _ _⟩

instance : Std.TransCmp doubleOrder :=
  inferInstanceAs (Std.TransCmp (compareOn NumericText.textToNumber))

instance : OrientedCmp numericOrder :=
  inferInstanceAs (OrientedCmp (exactOr NumericText.parseInt64Text doubleOf))

variable (table : UnicodeCollation.Table)

instance (cls : ValueClass) : OrientedCmp (cellOrder table cls) :=
  inferInstanceAs (OrientedCmp (mixed (numeric cls) numericOrder (UnicodeCollation.compare table)))

instance (cls : ValueClass) : OrientedCmp (groupedOrder table cls) :=
  inferInstanceAs (OrientedCmp (mixed (numericText cls) NumericText.compareNumbers
    (UnicodeCollation.compare table)))

instance : OrientedCmp (setOrder table) :=
  inferInstanceAs (OrientedCmp (mixed _ doubleOrder (UnicodeCollation.compare table)))

variable {table} {cls : ValueClass} {a b s : Bytes}

theorem numbers_of_null (h : isNullText s) :
    NumericText.parseInt64Text s = none ∧ parseNumber s = none := by
  rw [isNullText, decide_eq_true_eq] at h
  subst h
  exact ⟨rfl, rfl⟩

theorem numeric_of_null (h : isNullText s) : numeric cls s = false ∧ numericText cls s = false := by
  obtain ⟨hint, hnumber⟩ := numbers_of_null h
  cases cls <;> simp [numeric, numericText, h, hint, hnumber]

theorem numeric_of_number (hcls : cls ≠ .text) (h : (parseNumber s).isSome) :
    numeric cls s ∧ numericText cls s := by
  have hnull : isNullText s = false := by
    rw [← Bool.not_eq_true]
    intro hnull
    rw [(numbers_of_null hnull).2] at h
    exact nomatch h
  cases cls with
  | text => exact absurd rfl hcls
  | number => simp [numeric, numericText, hnull]
  | unknown => simp [numeric, numericText, h]

theorem numeric_of_int64 (hcls : cls ≠ .text) (h : (NumericText.parseInt64Text s).isSome) :
    numeric cls s := by
  have hnull : isNullText s = false := by
    rw [← Bool.not_eq_true]
    intro hnull
    rw [(numbers_of_null hnull).1] at h
    exact nomatch h
  cases cls with
  | text => exact absurd rfl hcls
  | number => simp [numeric, hnull]
  | unknown => simp [numeric, h]

theorem compare_null (h : isNullText a ∨ isNullText b) :
    UnicodeCollation.compare table a b =
      if isNullText a = isNullText b then .eq else if isNullText a then .lt else .gt := by
  rw [UnicodeCollation.compare, if_pos h]
  revert h
  cases isNullText a <;> cases isNullText b <;> simp

/-! ### The comparisons of the source -/

theorem wholeDouble_of_neg {n : ℤ} (h : n < 0) : wholeDouble n = -(nearest n.natAbs 1 : ℤ) := by
  rw [wholeDouble, NumericText.signedBy, if_pos (decide_eq_true h)]

theorem wholeDouble_of_nonneg {n : ℤ} (h : 0 ≤ n) : wholeDouble n = (nearest n.natAbs 1 : ℤ) := by
  rw [wholeDouble, NumericText.signedBy, decide_eq_false (Int.not_lt.mpr h)]
  rfl

theorem wholeDouble_mono {m n : ℤ} (h : m ≤ n) : wholeDouble m ≤ wholeDouble n := by
  rcases Int.lt_or_le m 0 with hm | hm
  · rw [wholeDouble_of_neg hm]
    rcases Int.lt_or_le n 0 with hn | hn
    · rw [wholeDouble_of_neg hn]
      have habs : n.natAbs ≤ m.natAbs := by omega
      exact Int.neg_le_neg (Int.ofNat_le.mpr (nearest_mono habs))
    · rw [wholeDouble_of_nonneg hn]
      exact (Int.neg_nonpos_of_nonneg (Int.natCast_nonneg _)).trans (Int.natCast_nonneg _)
  · have habs : m.natAbs ≤ n.natAbs := by omega
    rw [wholeDouble_of_nonneg hm, wholeDouble_of_nonneg (hm.trans h)]
    exact Int.ofNat_le.mpr (nearest_mono habs)

theorem wholeDouble_value {w : NumericText.SignedMagnitude} (h : w.negative → 0 < w.magnitude) :
    NumericText.signedBy w.negative (nearest w.magnitude 1) = wholeDouble w.value := by
  have hfalse (m : ℕ) : NumericText.signedBy false m = m := rfl
  have htrue (m : ℕ) : NumericText.signedBy true m = -(m : ℤ) := rfl
  rw [NumericText.SignedMagnitude.value]
  cases hnegative : w.negative with
  | false =>
    rw [hfalse, hfalse, wholeDouble_of_nonneg (Int.natCast_nonneg _), Int.natAbs_natCast]
  | true =>
    have hneg : -(w.magnitude : ℤ) < 0 := Int.neg_neg_of_pos (Int.natCast_pos.mpr (h hnegative))
    rw [htrue, htrue, wholeDouble_of_neg hneg, Int.natAbs_neg, Int.natAbs_natCast]

theorem doubleOf_of_int64 {n : ℤ} (h : NumericText.parseInt64Text s = some n) :
    doubleOf s = wholeDouble n := by
  rw [doubleOf, h]

theorem doubleOf_of_not_int64 (h : NumericText.parseInt64Text s = none) :
    doubleOf s = NumericText.textToNumber s := by
  rw [doubleOf, h]

theorem doubleOf_of_number {v : Double} (h : parseNumber s = some v) : doubleOf s = v := by
  cases hint : NumericText.parseInt64Text s with
  | none => rw [doubleOf_of_not_int64 hint, textToNumber_of_parseNumber h]
  | some n =>
    cases hwide : NumericText.parseWideIntegerText s with
    | none =>
      have hsigns := NumericText.plus_minus_of_int64 hint hwide
      rw [NumericText.parseNumber_plus_minus hsigns] at h
      exact nomatch h
    | some w =>
      rw [doubleOf_of_int64 hint, ← textToNumber_of_parseNumber h,
        NumericText.textToNumber_of_wide hwide]
      rw [NumericText.parseInt64Text_of_wide hwide] at hint
      obtain ⟨_, rfl⟩ := NumericText.int64Of_eq_some.mp hint
      exact (wholeDouble_value (NumericText.negative_of_wide hwide)).symm

theorem doubleOrder_of_numbers {v w : Double} (ha : parseNumber a = some v)
    (hb : parseNumber b = some w) : doubleOrder a b = compare v w := by
  rw [doubleOrder, textToNumber_of_parseNumber ha, textToNumber_of_parseNumber hb]

theorem numericOrder_of_int64 {m n : ℤ} (ha : NumericText.parseInt64Text a = some m)
    (hb : NumericText.parseInt64Text b = some n) : numericOrder a b = compare m n :=
  exactOr_of_exact ha hb

def bothInt64 (a b : Bytes) : Prop :=
  (NumericText.parseInt64Text a).isSome ∧ (NumericText.parseInt64Text b).isSome

def bothNumbers (a b : Bytes) : Prop :=
  (parseNumber a).isSome ∧ (parseNumber b).isSome

theorem numericOrder_of_not_int64 (h : ¬ bothInt64 a b) :
    numericOrder a b = compare (doubleOf a) (doubleOf b) :=
  exactOr_of_not_exact h

theorem readCell_numeric (h : numeric cls s) :
    (readCell cls s).isInt = (NumericText.parseInt64Text s).isSome ∧
      (readCell cls s).num = doubleOf s ∧
      ∀ n, NumericText.parseInt64Text s = some n → (readCell cls s).whole = n := by
  have hnull : isNullText s = false := by
    rw [← Bool.not_eq_true]
    intro hnull
    rw [(numeric_of_null hnull).1] at h
    exact nomatch h
  have hcls : cls ≠ .text := by
    rintro rfl
    exact nomatch h
  rw [readCell, if_pos ⟨hcls, by simp [hnull]⟩]
  cases hint : NumericText.parseInt64Text s with
  | some n => exact ⟨rfl, (doubleOf_of_int64 hint).symm, fun m hm => Option.some.inj hm⟩
  | none =>
    cases hnumber : parseNumber s with
    | some v => exact ⟨rfl, (doubleOf_of_number hnumber).symm, nofun⟩
    | none =>
      cases cls with
      | text => exact absurd rfl hcls
      | number => exact ⟨rfl, (doubleOf_of_not_int64 hint).symm, nofun⟩
      | unknown =>
        rw [numeric, hint, hnumber] at h
        exact nomatch h

theorem readCell_text : (readCell cls s).null = isNullText s ∧ (readCell cls s).text = s := by
  rw [readCell]
  repeat' split
  all_goals exact ⟨rfl, rfl⟩

theorem numeric_readCell : (readCell cls s).numeric = numeric cls s := by
  rw [readCell]
  split
  next h =>
    have hnull : isNullText s = false := by simpa using h.2
    cases hint : NumericText.parseInt64Text s with
    | some n => exact (numeric_of_int64 h.1 (by rw [hint]; rfl)).symm
    | none =>
      cases hnumber : parseNumber s with
      | some v => exact (numeric_of_number h.1 (by rw [hnumber]; rfl)).1.symm
      | none =>
        cases cls with
        | text => exact absurd rfl h.1
        | number => simp [numeric, hnull]
        | unknown => simp [numeric, hnull, hint, hnumber]
  next h =>
    change false = _
    by_cases hcls : cls = .text
    · rw [hcls, numeric]
    · have hnull : isNullText s := by simpa [hcls] using h
      exact (numeric_of_null hnull).1.symm

theorem compareCells_readCell :
    compareCells table (readCell cls a) (readCell cls b) = cellOrder table cls a b := by
  obtain ⟨hanull, hatext⟩ := @readCell_text cls a
  obtain ⟨hbnull, hbtext⟩ := @readCell_text cls b
  rw [compareCells, hanull, hbnull, hatext, hbtext, numeric_readCell, numeric_readCell]
  by_cases hnull : isNullText a ∨ isNullText b = true
  · rw [if_pos hnull, ← compare_null hnull, cellOrder]
    rcases hnull with h | h
    · exact (mixed_of_not_left (numeric_of_null h).1).symm
    · exact (mixed_of_not_right (numeric_of_null h).1).symm
  · rw [if_neg hnull, cellOrder, mixed]
    split
    next h =>
      obtain ⟨haint, hanum, hawhole⟩ := readCell_numeric h.1
      obtain ⟨hbint, hbnum, hbwhole⟩ := readCell_numeric h.2
      rw [haint, hbint]
      split
      next hint =>
        obtain ⟨m, hm⟩ := Option.isSome_iff_exists.mp hint.1
        obtain ⟨n, hn⟩ := Option.isSome_iff_exists.mp hint.2
        rw [hawhole m hm, hbwhole n hn, numericOrder_of_int64 hm hn]
      next hint => rw [hanum, hbnum, numericOrder_of_not_int64 hint]
    next =>
      rw [not_or, Bool.not_eq_true, Bool.not_eq_true] at hnull
      exact UnicodeCollation.compare_sortKey table hnull.1 hnull.2

theorem cmpKey_eq : cmpKey table a b cls = groupedOrder table cls a b := by
  rw [cmpKey]
  by_cases hnull : isNullText a ∨ isNullText b = true
  · rw [if_pos hnull, ← compare_null hnull, groupedOrder]
    rcases hnull with h | h
    · exact (mixed_of_not_left (numeric_of_null h).2).symm
    · exact (mixed_of_not_right (numeric_of_null h).2).symm
  · rw [if_neg hnull, compareClassed, groupedOrder, mixed]
    rw [not_or, Bool.not_eq_true, Bool.not_eq_true] at hnull
    cases cls with
    | text => rfl
    | number => rw [if_pos (.inl rfl), if_pos (by simp [numericText, hnull])]
    | unknown =>
      rw [if_neg (by decide)]
      exact if_congr (and_iff_right (by decide)) rfl rfl

theorem setOps_cmpKey_eq : SetOps.cmpKey table a b = setOrder table a b := by
  rw [SetOps.cmpKey]
  by_cases hnull : isNullText a ∨ isNullText b = true
  · rw [if_pos hnull, ← compare_null hnull, setOrder]
    rcases hnull with h | h
    · exact (mixed_of_not_left (by rw [(numbers_of_null h).2]; rfl)).symm
    · exact (mixed_of_not_right (by rw [(numbers_of_null h).2]; rfl)).symm
  · rw [if_neg hnull, setOrder]
    split
    next pa pb ha hb =>
      rw [mixed_of_num (by rw [ha]; rfl) (by rw [hb]; rfl), doubleOrder_of_numbers ha hb]
    next hnot =>
      refine (if_neg ?_).symm
      rintro ⟨ha, hb⟩
      obtain ⟨pa, ha⟩ := Option.isSome_iff_exists.mp ha
      obtain ⟨pb, hb⟩ := Option.isSome_iff_exists.mp hb
      exact hnot pa pb ha hb

theorem compareKeyPart_of_int64 {m n : ℤ} (hcls : cls ≠ .text)
    (ha : NumericText.parseInt64Text a = some m) (hb : NumericText.parseInt64Text b = some n) :
    compareKeyPart table cls a b = compare m n := by
  rw [compareKeyPart, if_neg hcls, ha, hb]

theorem compareKeyPart_of_numbers {v w : Double} (hcls : cls ≠ .text) (h : ¬ bothInt64 a b)
    (ha : parseNumber a = some v) (hb : parseNumber b = some w) :
    compareKeyPart table cls a b = compare v w := by
  rw [compareKeyPart, if_neg hcls, ha, hb]
  split
  next hm hn => exact absurd ⟨by rw [hm]; rfl, by rw [hn]; rfl⟩ h
  next => rfl

theorem compareKeyPart_of_other (h : ¬ bothInt64 a b) (h' : ¬ bothNumbers a b) :
    compareKeyPart table cls a b = UnicodeCollation.compare table a b := by
  rw [compareKeyPart]
  split
  next => rfl
  next =>
    split
    next hm hn => exact absurd ⟨by rw [hm]; rfl, by rw [hn]; rfl⟩ h
    next =>
      split
      next hv hw => exact absurd ⟨by rw [hv]; rfl, by rw [hw]; rfl⟩ h'
      next => rfl

theorem compareKeyPart_swap :
    compareKeyPart table cls b a = (compareKeyPart table cls a b).swap := by
  have hcollation :
      UnicodeCollation.compare table b a = (UnicodeCollation.compare table a b).swap :=
    OrientedCmp.eq_swap
  by_cases hcls : cls = .text
  · rw [compareKeyPart, compareKeyPart, if_pos hcls, if_pos hcls, hcollation]
  · by_cases hint : bothInt64 a b
    · obtain ⟨m, hm⟩ := Option.isSome_iff_exists.mp hint.1
      obtain ⟨n, hn⟩ := Option.isSome_iff_exists.mp hint.2
      rw [compareKeyPart_of_int64 hcls hm hn, compareKeyPart_of_int64 hcls hn hm]
      exact Std.OrientedOrd.eq_swap
    · by_cases hnumber : bothNumbers a b
      · obtain ⟨v, hv⟩ := Option.isSome_iff_exists.mp hnumber.1
        obtain ⟨w, hw⟩ := Option.isSome_iff_exists.mp hnumber.2
        rw [compareKeyPart_of_numbers hcls hint hv hw,
          compareKeyPart_of_numbers hcls (mt And.symm hint) hw hv]
        exact Std.OrientedOrd.eq_swap
      · rw [compareKeyPart_of_other hint hnumber,
          compareKeyPart_of_other (mt And.symm hint) (mt And.symm hnumber), hcollation]

/-! ### Where they agree -/

def bothWide (a b : Bytes) : Prop :=
  (NumericText.parseWideIntegerText a).isSome ∧ (NumericText.parseWideIntegerText b).isSome

/-- The texts compare alike one by one and as cells. -/
structure TextsAlike (table : UnicodeCollation.Table) (cls : ValueClass) (a b : Bytes) :
    Prop where
  /-- Integers that are not both of 64 bits: their doubles are in the order of the integers. -/
  wide : cls ≠ .text → bothWide a b → ¬ bothInt64 a b →
    compare (doubleOf a) (doubleOf b) =
      compare (wholeValue a) (wholeValue b)
  /-- A text in a column of numbers: an integer with two signs is in the order of its value. -/
  signs : cls = .number → isNullText a = false → isNullText b = false → ¬ bothNumbers a b →
    ¬ bothInt64 a b → compare (doubleOf a) (doubleOf b) = doubleOrder a b
  /-- A column of an unknown class: an integer with two signs is in the order of its letters. -/
  unread : cls = .unknown → numeric cls a → numeric cls b → ¬ bothNumbers a b →
    numericOrder a b = UnicodeCollation.compare table a b

/-- The texts compare alike as parts of a key and as cells: what is read as a number but is none
as a whole is in the order of its letters. -/
def KeysAlike (table : UnicodeCollation.Table) (cls : ValueClass) (a b : Bytes) : Prop :=
  numeric cls a = true → numeric cls b → ¬ bothNumbers a b → ¬ bothInt64 a b →
    compare (doubleOf a) (doubleOf b) = UnicodeCollation.compare table a b

theorem bothNumbers_of_bothWide (h : bothWide a b) : bothNumbers a b := by
  obtain ⟨u, hu⟩ := Option.isSome_iff_exists.mp h.1
  obtain ⟨v, hv⟩ := Option.isSome_iff_exists.mp h.2
  exact ⟨by rw [NumericText.parseNumber_of_wide hu]; rfl,
    by rw [NumericText.parseNumber_of_wide hv]; rfl⟩

theorem compareNumbers_of_int64 {m n : ℤ} (ha : NumericText.parseInt64Text a = some m)
    (hb : NumericText.parseInt64Text b = some n) :
    NumericText.compareNumbers a b = compare m n := by
  rw [NumericText.compareNumbers, ha, hb]

theorem numericOrder_eq_iff_of_numbers (hnumber : bothNumbers a b) (hint : ¬ bothInt64 a b) :
    numericOrder a b = NumericText.compareNumbers a b ↔
      (bothWide a b → compare (doubleOf a) (doubleOf b) =
        compare (wholeValue a) (wholeValue b)) := by
  obtain ⟨v, hv⟩ := Option.isSome_iff_exists.mp hnumber.1
  obtain ⟨w, hw⟩ := Option.isSome_iff_exists.mp hnumber.2
  rw [numericOrder_of_not_int64 hint]
  by_cases hwide : bothWide a b
  · rw [NumericText.compareNumbers_of_bothWhole (.inr hwide)]
    exact ⟨fun heq _ => heq, fun h => h hwide⟩
  · rw [NumericText.compareNumbers_of_not_bothWhole (not_or.mpr ⟨hint, hwide⟩),
      doubleOf_of_number hv, doubleOf_of_number hw, textToNumber_of_parseNumber hv,
      textToNumber_of_parseNumber hw]
    exact iff_of_true rfl fun h => absurd h hwide

theorem groupedOrder_eq_iff_of_numbers (hcls : cls ≠ .text) (hnumber : bothNumbers a b) :
    cellOrder table cls a b = groupedOrder table cls a b ↔ TextsAlike table cls a b := by
  rw [cellOrder, groupedOrder,
    mixed_of_num (numeric_of_number hcls hnumber.1).1
      (numeric_of_number hcls hnumber.2).1,
    mixed_of_num (numeric_of_number hcls hnumber.1).2
      (numeric_of_number hcls hnumber.2).2]
  by_cases hint : bothInt64 a b
  · obtain ⟨m, hm⟩ := Option.isSome_iff_exists.mp hint.1
    obtain ⟨n, hn⟩ := Option.isSome_iff_exists.mp hint.2
    rw [numericOrder_of_int64 hm hn, compareNumbers_of_int64 hm hn]
    exact iff_of_true rfl ⟨fun _ _ h => absurd hint h, fun _ _ _ h => absurd hnumber h,
      fun _ _ _ h => absurd hnumber h⟩
  · rw [numericOrder_eq_iff_of_numbers hnumber hint]
    exact ⟨fun heq => ⟨fun _ hwide _ => heq hwide, fun _ _ _ h => absurd hnumber h,
      fun _ _ _ h => absurd hnumber h⟩, fun h hwide => h.wide hcls hwide hint⟩

theorem groupedOrder_eq_iff :
    cellOrder table cls a b = groupedOrder table cls a b ↔ TextsAlike table cls a b := by
  by_cases hcls : cls = .text
  · subst hcls
    refine iff_of_true ?_ ⟨fun h => absurd rfl h, nofun, nofun⟩
    rw [cellOrder, groupedOrder, mixed_of_not_left rfl, mixed_of_not_left rfl]
  by_cases hnumber : bothNumbers a b
  · exact groupedOrder_eq_iff_of_numbers hcls hnumber
  have hwide : ¬ bothWide a b := mt bothNumbers_of_bothWide hnumber
  cases cls with
  | text => exact absurd rfl hcls
  | number =>
    by_cases hnull : isNullText a = false ∧ isNullText b = false
    · rw [cellOrder, groupedOrder,
        mixed_of_num (by simp [numeric, hnull.1]) (by simp [numeric, hnull.2]),
        mixed_of_num (by simp [numericText, hnull.1]) (by simp [numericText, hnull.2])]
      by_cases hint : bothInt64 a b
      · obtain ⟨m, hm⟩ := Option.isSome_iff_exists.mp hint.1
        obtain ⟨n, hn⟩ := Option.isSome_iff_exists.mp hint.2
        rw [numericOrder_of_int64 hm hn, compareNumbers_of_int64 hm hn]
        exact iff_of_true rfl ⟨fun _ h => absurd h hwide, fun _ _ _ _ h => absurd hint h, nofun⟩
      · rw [numericOrder_of_not_int64 hint,
          NumericText.compareNumbers_of_not_bothWhole (not_or.mpr ⟨hint, hwide⟩)]
        exact ⟨fun heq => ⟨fun _ h => absurd h hwide, fun _ _ _ _ _ => heq, nofun⟩,
          fun h => h.signs rfl hnull.1 hnull.2 hnumber hint⟩
    · have halike : TextsAlike table .number a b :=
        ⟨fun _ h => absurd h hwide, fun _ ha hb => absurd ⟨ha, hb⟩ hnull, nofun⟩
      refine iff_of_true ?_ halike
      rw [not_and_or, Bool.not_eq_false, Bool.not_eq_false] at hnull
      rw [cellOrder, groupedOrder]
      rcases hnull with h | h
      · rw [mixed_of_not_left (numeric_of_null h).1, mixed_of_not_left (numeric_of_null h).2]
      · rw [mixed_of_not_right (numeric_of_null h).1, mixed_of_not_right (numeric_of_null h).2]
  | unknown =>
    have hgrouped : groupedOrder table .unknown a b = UnicodeCollation.compare table a b :=
      if_neg hnumber
    rw [hgrouped, cellOrder, mixed]
    split
    next h =>
      exact ⟨fun heq => ⟨fun _ h => absurd h hwide, nofun, fun _ _ _ _ => heq⟩,
        fun halike => halike.unread rfl h.1 h.2 hnumber⟩
    next h =>
      exact iff_of_true rfl ⟨fun _ h => absurd h hwide, nofun, fun _ ha hb => absurd ⟨ha, hb⟩ h⟩

theorem compareKeyPart_eq_iff :
    compareKeyPart table cls a b = cellOrder table cls a b ↔ KeysAlike table cls a b := by
  by_cases hcls : cls = .text
  · subst hcls
    refine iff_of_true ?_ nofun
    rw [compareKeyPart, if_pos rfl, cellOrder, mixed_of_not_left rfl]
  by_cases hint : bothInt64 a b
  · refine iff_of_true ?_ fun _ _ _ h => absurd hint h
    obtain ⟨m, hm⟩ := Option.isSome_iff_exists.mp hint.1
    obtain ⟨n, hn⟩ := Option.isSome_iff_exists.mp hint.2
    rw [compareKeyPart_of_int64 hcls hm hn, cellOrder,
      mixed_of_num (numeric_of_int64 hcls hint.1) (numeric_of_int64 hcls hint.2),
      numericOrder_of_int64 hm hn]
  by_cases hnumber : bothNumbers a b
  · refine iff_of_true ?_ fun _ _ h => absurd hnumber h
    obtain ⟨v, hv⟩ := Option.isSome_iff_exists.mp hnumber.1
    obtain ⟨w, hw⟩ := Option.isSome_iff_exists.mp hnumber.2
    rw [compareKeyPart_of_numbers hcls hint hv hw, cellOrder,
      mixed_of_num (numeric_of_number hcls hnumber.1).1
        (numeric_of_number hcls hnumber.2).1,
      numericOrder_of_not_int64 hint, doubleOf_of_number hv, doubleOf_of_number hw]
  rw [compareKeyPart_of_other hint hnumber, cellOrder, mixed, KeysAlike]
  split
  next h =>
    rw [numericOrder_of_not_int64 hint]
    exact ⟨fun heq _ _ _ _ => heq.symm, fun heq => (heq h.1 h.2 hnumber hint).symm⟩
  next h => exact iff_of_true rfl fun ha hb => absurd ⟨ha, hb⟩ h

/-! ### Where the cells are in order -/

/-- No number that is not an integer of 64 bits has the double of two different ones. -/
def FractionsApart (texts : List Bytes) : Prop :=
  ∀ a ∈ texts, ∀ b ∈ texts, ∀ c ∈ texts, ∀ x y, NumericText.parseInt64Text a = some x →
    NumericText.parseInt64Text b = some y → NumericText.parseInt64Text c = none →
    doubleOf a = doubleOf c → doubleOf b = doubleOf c → x = y

theorem consistent_cellOrder_iff {texts : List Bytes} :
    Consistent (cellOrder table cls) texts ↔
      FractionsApart (texts.filter (numeric cls)) ∧
        Separated (numeric cls) numericOrder (UnicodeCollation.compare table) texts :=
  consistent_mixed_iff.trans
    (and_congr_left' (consistent_exactOr_iff (fun _ _ h => wholeDouble_mono h)
      doubleOf_of_int64))

theorem consistent_setOrder_iff {texts : List Bytes} :
    Consistent (setOrder table) texts ↔
      Separated (fun s => (parseNumber s).isSome) doubleOrder
        (UnicodeCollation.compare table) texts :=
  consistent_mixed_iff.trans (and_iff_right consistent_of_transCmp)

end RusqlEngine.OrderRows
