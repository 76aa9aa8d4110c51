import RusqlEngine.KeyOrderExact
import RusqlEngine.NumericKey
import RusqlEngine.OrderCells
import RusqlEngine.Where

/-!
# The bounds of a search in an index

A number that an index is searched by is widened to its neighbour among the doubles, and what is
found is checked again. A double strictly between two bounds is found whatever its spelling, but for
the integers that have two signs, which a comparison of doubles does not read.
-/

namespace RusqlEngine.NumericKey

open Buffer (Bytes)
open NumericText KeyOrder Binary64 UnicodeCollation OrderRows

/-- `std::nextafter`, towards minus infinity for a lower bound. -/
def nextAfter (v : Double) (lower : Bool) : Double :=
  if lower then
    if v ≤ 0 then -(nextMagnitude v.natAbs : ℤ) else previousMagnitude v.natAbs
  else
    if 0 ≤ v then nextMagnitude v.natAbs else -(previousMagnitude v.natAbs : ℤ)

/-- Out of range is the infinity, which is not written as a number. -/
def widenNumericBound (key : Bytes) (lower : Bool) : Option Bytes :=
  match parseNumber key with
  | none => some key
  | some v =>
    let w := nextAfter v lower
    if limit ≤ w.natAbs then none
    else if parseNumber (format17 w) = some w then some (format17 w) else none

/-- `tree_bound`: a tree of texts is searched by the key itself. -/
def treeBound (kinds : List KeyKind) (key : Bytes) (lower : Bool) : Option Bytes :=
  if kinds.head? = some .text then some key else widenNumericBound key lower

def keyKindOf : ValueClass → KeyKind
  | .number => .number
  | .text => .text
  | .unknown => .mixed

def twoSigns (s : Bytes) : Prop :=
  (NumericText.parseInt64Text s).isSome ∧ NumericText.parseWideIntegerText s = none

variable {table : Table} {s t rest a b key bound : Bytes} {lower : Bool}
  {v w : Double} {d : Decimal}

theorem nextAfter_lt (v : ℤ) : nextAfter v true < v := by
  rw [nextAfter, if_pos rfl]
  rcases Int.lt_or_le 0 v with h | h
  · rw [if_neg (Int.not_le.mpr h)]
    have := previousMagnitude_lt (Int.natAbs_pos.mpr h.ne')
    change (previousMagnitude v.natAbs : ℤ) < v
    omega
  · rw [if_pos h]
    have := lt_nextMagnitude v.natAbs
    change -(nextMagnitude v.natAbs : ℤ) < v
    omega

theorem lt_nextAfter (v : ℤ) : v < nextAfter v false := by
  rw [nextAfter, if_neg Bool.false_ne_true]
  rcases Int.lt_or_le v 0 with h | h
  · rw [if_neg (Int.not_le.mpr h)]
    have := previousMagnitude_lt (Int.natAbs_pos.mpr h.ne)
    change v < -(previousMagnitude v.natAbs : ℤ)
    omega
  · rw [if_pos h]
    have := lt_nextMagnitude v.natAbs
    change v < (nextMagnitude v.natAbs : ℤ)
    omega

theorem widenNumericBound_number (h : parseNumber key = some v)
    (hbound : widenNumericBound key lower = some bound) :
    ∃ w, parseNumber bound = some w ∧ if lower then w < v else v < w := by
  rw [widenNumericBound, h] at hbound
  dsimp only at hbound
  split at hbound
  next => exact nomatch hbound
  next =>
    split at hbound
    next hback =>
      obtain rfl := Option.some.inj hbound
      refine ⟨_, hback, ?_⟩
      cases lower with
      | false => exact lt_nextAfter v
      | true => exact nextAfter_lt v
    next => exact nomatch hbound

theorem widenNumericBound_text (h : parseNumber key = none) :
    widenNumericBound key lower = some key := by
  rw [widenNumericBound, h]

/-! ### What a number is made of -/

theorem zero_not_mem_digitsOf : 0 ∉ digitsOf s := by
  intro h
  have := List.mem_takeWhile_imp h
  exact absurd this (by decide)

theorem zero_mem_dropSign (h : 0 ∈ s) : 0 ∈ dropSign s := by
  rw [dropSign]
  split
  next hsign =>
    cases s with
    | nil => exact absurd h List.not_mem_nil
    | cons c rest =>
      rcases List.mem_cons.mp h with rfl | h
      · rw [List.head?_cons] at hsign
        exact absurd hsign (by decide)
      · exact h
  next => exact h

theorem zero_mem_afterDigits (h : 0 ∈ s) : 0 ∈ afterDigits s := by
  rw [← digitsOf_append_afterDigits (s := s)] at h
  exact (List.mem_append.mp h).resolve_left zero_not_mem_digitsOf

theorem zero_mem_scanFraction (h : 0 ∈ s) : 0 ∈ (scanFraction s).2 := by
  rw [scanFraction]
  split
  next hpoint =>
    obtain ⟨rest, rfl⟩ := List.head?_eq_some_iff.mp hpoint
    exact zero_mem_afterDigits ((List.mem_cons.mp h).resolve_left (by decide))
  next => exact h

theorem zero_mem_scanExponent (h : 0 ∈ s) : 0 ∈ (scanExponent s).2 := by
  rw [scanExponent]
  split
  next he =>
    refine zero_mem_afterDigits (zero_mem_dropSign ?_)
    cases s with
    | nil => exact absurd h List.not_mem_nil
    | cons c rest =>
      rcases List.mem_cons.mp h with rfl | h
      · have hmark := he.1
        rw [List.head?_cons] at hmark
        exact absurd hmark (by decide)
      · exact h
  next => exact h

theorem zero_not_mem_number (h : parseNumber s = some v) : 0 ∉ s := by
  intro hzero
  rw [parseNumber] at h
  split at h
  next => cases h
  next hsigns =>
    have hsigns : ¬ (s.head? = some plus ∧ s.tail.head? = some minus) :=
      fun h => hsigns ⟨h.1, .inr h.2⟩
    split at h
    next => cases h
    next =>
      split at h
      next =>
        rw [fromChars, (dropMinus_dropPlus hsigns).1] at h
        cases hscan : scanDecimal (dropSign s) with
        | none =>
          rw [hscan] at h
          cases h
        | some scanned =>
          obtain ⟨d, rest⟩ := scanned
          rw [hscan] at h
          cases rest with
          | cons c rest => cases h
          | nil =>
            rw [scanDecimal] at hscan
            dsimp only at hscan
            split at hscan
            next => cases hscan
            next =>
              have hrest := congrArg Prod.snd (Option.some.inj hscan)
              have hmem := zero_mem_scanExponent
                (zero_mem_scanFraction (zero_mem_afterDigits (zero_mem_dropSign hzero)))
              rw [hrest] at hmem
              exact absurd hmem List.not_mem_nil
      next => cases h

/-! ### Values within a bound -/

theorem not_twoSigns (h : parseNumber s = some v) : ¬ twoSigns s := by
  rintro ⟨hint, hwide⟩
  obtain ⟨n, hn⟩ := Option.isSome_iff_exists.mp hint
  rw [parseNumber_plus_minus (plus_minus_of_int64 hn hwide)] at h
  exact nomatch h

theorem wide_of_whole (h : ¬ twoSigns s) (hwhole : (NumericText.parseInt64Text s).isSome) :
    (NumericText.parseWideIntegerText s).isSome :=
  Option.isSome_iff_ne_none.mpr fun hwide => h ⟨hwhole, hwide⟩

theorem bothWide_of_bothWhole (ha : ¬ twoSigns a) (hb : ¬ twoSigns b) (h : bothWhole a b) :
    bothWide a b := by
  rcases h with ⟨hinta, hintb⟩ | h
  · exact ⟨wide_of_whole ha hinta, wide_of_whole hb hintb⟩
  · exact h

theorem textToNumber_of_whole (h : (NumericText.parseWideIntegerText s).isSome) :
    textToNumber s = wholeDouble (wholeValue s) := by
  obtain ⟨w, hw⟩ := Option.isSome_iff_exists.mp h
  rw [textToNumber_of_wide hw, wholeValue_of_wide hw]
  exact wholeDouble_value (negative_of_wide hw)

theorem compareNumbers_of_lt (ha : ¬ twoSigns a) (hb : ¬ twoSigns b)
    (h : textToNumber a < textToNumber b) : NumericText.compareNumbers a b = .lt := by
  by_cases hwhole : bothWhole a b
  · obtain ⟨hwidea, hwideb⟩ := bothWide_of_bothWhole ha hb hwhole
    rw [compareNumbers_of_bothWhole hwhole]
    rw [textToNumber_of_whole hwidea, textToNumber_of_whole hwideb] at h
    exact compare_lt_iff_lt.mpr (lt_of_not_ge fun hle =>
      h.not_ge (wholeDouble_mono hle))
  · rw [compareNumbers_of_not_bothWhole hwhole]
    exact compare_lt_iff_lt.mpr h

theorem cmpKeySegment_number_lt (h : NumericText.compareNumbers a b = .lt) :
    cmpKeySegment table .number a b = .lt := by
  rw [cmpKeySegment_number]
  split
  next hwhole =>
    rw [compareNumbers_of_bothWhole hwhole] at h
    rw [byWhole, h]
    rfl
  next hwhole =>
    rw [compareNumbers_of_not_bothWhole hwhole] at h
    rw [byDouble, h]
    rfl

theorem cmpKeySegment_mixed_lt (ha : parseNumber a = some v) (hb : parseNumber b = some w)
    (h : v < w) : cmpKeySegment table .mixed a b = .lt := by
  rw [cmpKeySegment_mixed, mixedOrder_numbers ha hb, compare_lt_iff_lt.mpr h]
  rfl

theorem cmpKeySegment_mixed_text (ha : a ≠ []) (hb : b ≠ []) (hna : parseNumber a = none)
    (hnb : parseNumber b = none) : cmpKeySegment table .mixed a b = compare table a b := by
  rw [cmpKeySegment_mixed, mixedOrder_eq, rank_other ha hna,
    rank_other hb hnb, spelling, spelling, hna, hnb]
  rfl

/-- The value is on the side of the bound that is searched. -/
def within (table : Table) (kinds : List KeyKind) (bound : Bytes) (lower : Bool)
    (value : Bytes) : Bool :=
  if lower then (cmpKeys table kinds bound value).isLE
  else (cmpKeys table kinds value bound).isLE

def onSide (lower : Bool) (order : Ordering) : Prop :=
  order ≠ if lower then .lt else .gt

/-- A value whose place in a tree is the one the comparison gives it: no NUL byte, no number with
two signs, and in a column of an unknown class the value and the literal are both numbers, or
neither is. -/
def keepsPlace (cls right : ValueClass) (value literal : Bytes) : Prop :=
  0 ∉ value ∧ 0 ∉ literal ∧
    match cls with
    | .text => True
    | .number => ¬ twoSigns value
    | .unknown => ((parseNumber value).isSome ∧ (parseNumber literal).isSome) ∨
        (parseNumber value = none ∧ parseNumber literal = none ∧ value ≠ [] ∧ literal ≠ [] ∧
          right ≠ .number)

theorem cmpKeys_eq {kind : KeyKind} (ha : 0 ∉ a) (hb : 0 ∉ b) :
    cmpKeys table [kind] a b = cmpKeySegment table kind a b := by
  rw [cmpKeys, if_pos ⟨ha, hb⟩]
  rfl

variable {value literal : Bytes}

theorem textToNumber_le (hvalue : ¬ twoSigns value) (hliteral : ¬ twoSigns literal)
    (h : onSide lower (NumericText.compareNumbers value literal)) :
    if lower then textToNumber literal ≤ textToNumber value
    else textToNumber value ≤ textToNumber literal := by
  cases lower with
  | true =>
    exact not_lt.mp fun hlt => h (compareNumbers_of_lt hvalue hliteral hlt)
  | false =>
    refine not_lt.mp fun hlt => h ?_
    rw [compareNumbers_eq_swap, compareNumbers_of_lt hliteral hvalue hlt]
    rfl

theorem within_number {x y : Double} (hzero : 0 ∉ value) (hliteral : parseNumber literal = some x)
    (hbound : widenNumericBound literal lower = some bound)
    (h : if lower then x ≤ textToNumber value else textToNumber value ≤ x) :
    (¬ twoSigns value → within table [.number] bound lower value) ∧
      (parseNumber value = some y → within table [.mixed] bound lower value) := by
  obtain ⟨w, hw, hbeside⟩ := widenNumericBound_number hliteral hbound
  have hzero' : 0 ∉ bound := zero_not_mem_number hw
  have hnumber : textToNumber bound = w := textToNumber_of_parseNumber hw
  cases lower with
  | true =>
    have hlt : w < textToNumber value := lt_of_lt_of_le hbeside h
    refine ⟨fun hsigns => ?_, fun hy => ?_⟩
    · rw [within, if_pos rfl, cmpKeys_eq hzero' hzero, cmpKeySegment_number_lt
        (compareNumbers_of_lt (not_twoSigns hw) hsigns (hnumber ▸ hlt))]
      rfl
    · rw [textToNumber_of_parseNumber hy] at hlt
      rw [within, if_pos rfl, cmpKeys_eq hzero' hzero, cmpKeySegment_mixed_lt hw hy hlt]
      rfl
  | false =>
    have hlt : textToNumber value < w := lt_of_le_of_lt h hbeside
    refine ⟨fun hsigns => ?_, fun hy => ?_⟩
    · rw [within, if_neg Bool.false_ne_true, cmpKeys_eq hzero hzero', cmpKeySegment_number_lt
        (compareNumbers_of_lt hsigns (not_twoSigns hw) (hnumber ▸ hlt))]
      rfl
    · rw [textToNumber_of_parseNumber hy] at hlt
      rw [within, if_neg Bool.false_ne_true, cmpKeys_eq hzero hzero',
        cmpKeySegment_mixed_lt hy hw hlt]
      rfl

/-- A text is within the bound that is the text it is on a side of. -/
theorem within_text {kind : KeyKind} (hzero : 0 ∉ value) (hzero' : 0 ∉ literal)
    (hcmp : cmpKeySegment table kind value literal = compare table value literal)
    (hcmp' : cmpKeySegment table kind literal value = compare table literal value)
    (h : onSide lower (compare table value literal)) : within table [kind] literal lower value := by
  cases lower with
  | true =>
    rw [within, if_pos rfl, cmpKeys_eq hzero' hzero, hcmp', Ordering.isLE_iff_ne_gt]
    exact fun hgt => h (Std.OrientedCmp.lt_of_gt hgt)
  | false =>
    rw [within, if_neg Bool.false_ne_true, cmpKeys_eq hzero hzero', hcmp, Ordering.isLE_iff_ne_gt]
    exact h

theorem within_of_onSide {cls right : ValueClass} (hplace : keepsPlace cls right value literal)
    (htext : cls = .text → right = .text) (hnumber : cls = .number → (parseNumber literal).isSome)
    (hbound : treeBound [keyKindOf cls] literal lower = some bound)
    (h : onSide lower (Where.compareClassed table cls right value literal)) :
    within table [keyKindOf cls] bound lower value := by
  obtain ⟨hzero, hzero', hplace⟩ := hplace
  cases cls with
  | text =>
    obtain rfl := Option.some.inj hbound
    rw [htext rfl, Where.compareClassed, if_neg (by decide), if_neg (by simp)] at h
    exact within_text hzero hzero' cmpKeySegment_text cmpKeySegment_text h
  | number =>
    have hsigns : ¬ twoSigns value := hplace
    obtain ⟨x, hx⟩ := Option.isSome_iff_exists.mp (hnumber rfl)
    rw [Where.compareClassed, if_pos (.inl rfl)] at h
    have hle := textToNumber_le hsigns (not_twoSigns hx) h
    rw [textToNumber_of_parseNumber hx] at hle
    exact (within_number (y := 0) hzero hx hbound hle).1 hsigns
  | unknown =>
    rcases hplace with ⟨hnumber, hnumber'⟩ | ⟨hnone, hnone', hne, hne', hright⟩
    · obtain ⟨y, hy⟩ := Option.isSome_iff_exists.mp hnumber
      obtain ⟨x, hx⟩ := Option.isSome_iff_exists.mp hnumber'
      have hcompare : Where.compareClassed table .unknown right value literal =
          NumericText.compareNumbers value literal := by
        rw [Where.compareClassed]
        split
        next => rfl
        next => exact if_pos ⟨by simp, hnumber, hnumber'⟩
      rw [hcompare] at h
      have hle := textToNumber_le (not_twoSigns hy) (not_twoSigns hx) h
      rw [textToNumber_of_parseNumber hx] at hle
      exact (within_number hzero hx hbound hle).2 hy
    · have hcompare : Where.compareClassed table .unknown right value literal =
          compare table value literal := by
        rw [Where.compareClassed, if_neg (by simp [hright]), if_neg (by simp [hnone])]
      rw [hcompare] at h
      rw [treeBound, if_neg (by decide), widenNumericBound_text hnone'] at hbound
      obtain rfl := Option.some.inj hbound
      exact within_text hzero hzero' (cmpKeySegment_mixed_text hne hne' hnone hnone')
        (cmpKeySegment_mixed_text hne' hne hnone' hnone) h

end RusqlEngine.NumericKey
