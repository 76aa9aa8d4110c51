import RusqlEngine.KeyOrder
import RusqlEngine.Library.Comparison
import RusqlEngine.NumericTextExact

/-!
# Where the order of index keys runs in a circle

The segments of texts and those of an unknown kind are in an order. Two numbers are compared as
integers where both are integers and as doubles otherwise, and each of these is an order, but the
two together are none: an integer can be before another as an integer, and a third number between
them as a double.
-/

namespace RusqlEngine.KeyOrder

open Buffer (Bytes)
open DigitText (IsDigit)
open Std UnicodeCollation NumericText Comparison

variable (table : Table)

def byWhole (a b : Bytes) : Ordering :=
  (compare (wholeValue a) (wholeValue b)).then (bytesOrder a b)

def byDouble (a b : Bytes) : Ordering :=
  (compare (textToNumber a) (textToNumber b)).then (bytesOrder a b)

instance : TransCmp bytesOrder :=
  inferInstanceAs (TransCmp fun a b : Bytes => compare a b)

instance : LawfulEqCmp bytesOrder :=
  inferInstanceAs (LawfulEqCmp fun a b : Bytes => compare a b)

instance : TransCmp byWhole :=
  inferInstanceAs (TransCmp (compareLex (compareOn wholeValue) bytesOrder))

instance : TransCmp byDouble :=
  inferInstanceAs (TransCmp (compareLex (compareOn textToNumber) bytesOrder))

instance : TransCmp (textOrder table) :=
  inferInstanceAs (TransCmp (compare table))

def rank (s : Bytes) : ℕ :=
  if s = [] then 0 else if (parseNumber s).isSome then 1 else 2

def spelling (s : Bytes) : Bytes :=
  if (parseNumber s).isSome then s else []

def mixedOrder : Bytes → Bytes → Ordering :=
  compareLex (compareOn rank) (compareLex (compareOn fun s => (parseNumber s).getD 0)
    (compareLex (compareOn spelling) (textOrder table)))

instance : TransCmp (mixedOrder table) :=
  inferInstanceAs (TransCmp (compareLex _ _))

/-! ### Integers in their shortest spelling -/

variable {table} {a b c : Bytes}

structure PlainUint (s : Bytes) : Prop where
  ne_nil : s ≠ []
  short : s.length ≤ 15
  digits : ∀ b ∈ s, IsDigit b
  noZero : 1 < s.length → s.head? ≠ some 0x30

variable {s : Bytes}

theorem PlainUint.of_plainUint (h : plainUint s) : PlainUint s := by
  rw [plainUint] at h
  split at h
  next => exact nomatch h
  next hlength =>
    split at h
    next => exact nomatch h
    next hzero =>
      obtain ⟨hne, hshort⟩ := not_or.mp hlength
      exact ⟨hne, Nat.le_of_not_lt hshort, by simpa using h, fun hlong h => hzero ⟨hlong, h⟩⟩

namespace PlainUint

theorem value_lt (h : PlainUint s) : DigitText.value s < 10 ^ 15 :=
  (DigitText.value_lt h.digits).trans_le (Nat.pow_le_pow_right (by decide) h.short)

theorem read (h : PlainUint s) :
    NumericText.parseWideIntegerText s = some ⟨false, DigitText.value s⟩ := by
  obtain ⟨d, rest, rfl⟩ := List.exists_cons_of_ne_nil h.ne_nil
  have hd : IsDigit d := h.digits d List.mem_cons_self
  have hplus : d ≠ plus := fun h => absurd (h ▸ hd) (by decide)
  have hminus : d ≠ minus := fun h => absurd (h ▸ hd) (by decide)
  obtain ⟨hdigits, hend⟩ := digitsOf_digits h.digits
  have hlt : DigitText.value (d :: rest) < 2 ^ 64 := h.value_lt.trans (by decide)
  rw [NumericText.parseWideIntegerText, dropSign]
  simp only [List.head?_cons, Option.some.injEq, hplus, hminus, or_self, if_false, false_and,
    fromCharsWhole, hdigits, hend, reduceCtorEq, hlt, if_true, decide_false]

theorem value_lt_of_length_lt {t : Bytes} (hs : PlainUint s) (ht : PlainUint t)
    (h : s.length < t.length) : DigitText.value s < DigitText.value t := by
  obtain ⟨d, rest, rfl⟩ := List.exists_cons_of_ne_nil ht.ne_nil
  have hlong : 1 < (d :: rest).length :=
    Nat.lt_of_le_of_lt (List.length_pos_of_ne_nil hs.ne_nil) h
  have hd : d ≠ 0x30 := fun h => ht.noZero hlong (congrArg some h)
  calc
    DigitText.value s < 10 ^ s.length := DigitText.value_lt hs.digits
    _ ≤ 10 ^ rest.length := Nat.pow_le_pow_right (by decide) (Nat.le_of_lt_succ h)
    _ ≤ DigitText.value (d :: rest) := DigitText.le_value (ht.digits d List.mem_cons_self) hd

theorem order_eq (ha : PlainUint a) (hb : PlainUint b) (hne : a ≠ b) :
    (if a.length ≠ b.length then (if a.length < b.length then Ordering.lt else .gt)
      else if bytesOrder a b = .lt then .lt else .gt) =
      compare (DigitText.value a) (DigitText.value b) := by
  rcases Nat.lt_trichotomy a.length b.length with h | h | h
  · rw [if_pos h.ne, if_pos h, Nat.compare_eq_lt.mpr (value_lt_of_length_lt ha hb h)]
  · rw [if_neg (not_not.mpr h), DigitText.compare_value h ha.digits hb.digits]
    change (if compare a b = .lt then _ else _) = _
    cases hcmp : compare a b with
    | lt => rfl
    | eq => exact absurd (LawfulEqOrd.eq_of_compare hcmp) hne
    | gt => rfl
  · rw [if_pos h.ne', if_neg (Nat.lt_asymm h),
      Nat.compare_eq_gt.mpr (value_lt_of_length_lt hb ha h)]

theorem compare_ne_eq (ha : PlainUint a) (hb : PlainUint b) (hne : a ≠ b) :
    compare (DigitText.value a) (DigitText.value b) ≠ .eq := by
  rw [← order_eq ha hb hne]
  split
  next => split <;> exact nofun
  next => split <;> exact nofun

theorem compare_eq {x y : ℤ} {m : ℕ} (hm : 0 < m) (hx : x = (DigitText.value a * m : ℕ))
    (hy : y = (DigitText.value b * m : ℕ)) :
    compare (DigitText.value a) (DigitText.value b) = compare x y := by
  refine eq_compare ?_ ?_
  · rw [Nat.compare_eq_lt, hx, hy, Int.ofNat_lt, Nat.mul_lt_mul_right hm]
  · rw [Nat.compare_eq_eq, hx, hy, Int.natCast_inj, Nat.mul_left_inj hm.ne']

theorem wholeValue_eq (h : PlainUint s) : wholeValue s = (DigitText.value s * 1 : ℕ) := by
  rw [wholeValue_of_wide h.read, Nat.mul_one]
  rfl

theorem parseNumber_eq (h : PlainUint s) :
    parseNumber s = some ((DigitText.value s * Binary64.one : ℕ) : ℤ) := by
  rw [parseNumber_of_wide h.read, Binary64.nearest_eq_of_lt (h.value_lt.trans (by decide))]
  rfl

end PlainUint

/-! ### The segments -/

theorem cmpKeySegment_self (kind : KeyKind) : cmpKeySegment table kind a a = .eq := by
  rw [cmpKeySegment, if_pos rfl]

theorem cmpKeySegment_text : cmpKeySegment table .text a b = textOrder table a b := by
  rw [cmpKeySegment]
  split
  next h => rw [h, @ReflCmp.compare_self _ (textOrder table)]
  next => rw [if_pos rfl]

/-- Numbers are in the order of the integers where both are integers, and otherwise of the
doubles. -/
theorem cmpKeySegment_number : cmpKeySegment table .number a b =
    if bothWhole a b then byWhole a b else byDouble a b := by
  by_cases hab : a = b
  · subst hab
    rw [cmpKeySegment_self, @ReflCmp.compare_self _ byWhole, @ReflCmp.compare_self _ byDouble,
      ite_self]
  rw [cmpKeySegment, if_neg hab, if_neg (nomatch ·), if_pos rfl]
  split
  next hplain =>
    have ha := PlainUint.of_plainUint hplain.1
    have hb := PlainUint.of_plainUint hplain.2
    have hwhole : bothWhole a b := .inr ⟨by rw [ha.read]; rfl, by rw [hb.read]; rfl⟩
    rw [ha.order_eq hb hab, if_pos hwhole, byWhole,
      ← PlainUint.compare_eq Nat.one_pos ha.wholeValue_eq hb.wholeValue_eq]
    cases hcmp : compare (DigitText.value a) (DigitText.value b) with
    | lt => rfl
    | eq => exact absurd hcmp (ha.compare_ne_eq hb hab)
    | gt => rfl
  next =>
    split
    next h => rw [compareNumbers_of_bothWhole h, byWhole]
    next h => rw [compareNumbers_of_not_bothWhole h, byDouble]

theorem rank_nil : rank [] = 0 :=
  rfl

theorem rank_number {v : Double} (h : parseNumber a = some v) : rank a = 1 := by
  have hne : a ≠ [] := by
    rintro rfl
    exact nomatch h
  rw [rank, if_neg hne, h, Option.isSome_some, if_pos rfl]

theorem rank_other (hne : a ≠ []) (h : parseNumber a = none) : rank a = 2 := by
  rw [rank, if_neg hne, h]
  rfl

theorem rank_pos (h : a ≠ []) : 0 < rank a := by
  rw [rank, if_neg h]
  split
  next => exact Nat.one_pos
  next => exact Nat.two_pos

theorem rank_cases (s : Bytes) : (s = [] ∧ rank s = 0) ∨
    (∃ v, parseNumber s = some v ∧ rank s = 1) ∨ (s ≠ [] ∧ parseNumber s = none ∧ rank s = 2) := by
  by_cases hne : s = []
  · exact .inl ⟨hne, hne ▸ rank_nil⟩
  · cases h : parseNumber s with
    | some v => exact .inr (.inl ⟨v, rfl, rank_number h⟩)
    | none => exact .inr (.inr ⟨hne, rfl, rank_other hne h⟩)

theorem mixedOrder_eq : mixedOrder table a b = (compare (rank a) (rank b)).then
    ((compare ((parseNumber a).getD 0) ((parseNumber b).getD 0)).then
      ((compare (spelling a) (spelling b)).then (textOrder table a b))) :=
  rfl

theorem mixedOrder_numbers {x y : Double} (ha : parseNumber a = some x)
    (hb : parseNumber b = some y) : mixedOrder table a b = (compare x y).then (bytesOrder a b) := by
  rw [mixedOrder_eq, rank_number ha, rank_number hb, spelling, spelling, ha, hb]
  change (compare x y).then ((compare a b).then (textOrder table a b)) =
    (compare x y).then (compare a b)
  cases h : compare a b with
  | lt => rfl
  | gt => rfl
  | eq =>
    rw [LawfulEqOrd.eq_of_compare h, @ReflCmp.compare_self _ (textOrder table)]
    rfl

theorem cmpKeySegment_mixed : cmpKeySegment table .mixed a b = mixedOrder table a b := by
  by_cases hab : a = b
  · subst hab
    rw [cmpKeySegment_self, @ReflCmp.compare_self _ (mixedOrder table)]
  rw [cmpKeySegment, if_neg hab, if_neg (nomatch ·)]
  split
  next hplain =>
    have ha := PlainUint.of_plainUint hplain.1
    have hb := PlainUint.of_plainUint hplain.2
    rw [ha.order_eq hb hab, mixedOrder_numbers ha.parseNumber_eq hb.parseNumber_eq,
      ← PlainUint.compare_eq Binary64.one_pos rfl rfl]
    cases hcmp : compare (DigitText.value a) (DigitText.value b) with
    | lt => rfl
    | eq => exact absurd hcmp (ha.compare_ne_eq hb hab)
    | gt => rfl
  next =>
    rw [if_neg (nomatch ·)]
    split
    next hnil =>
      subst hnil
      have hb : b ≠ [] := fun h => hab h.symm
      rw [mixedOrder_eq, rank_nil, Nat.compare_eq_lt.mpr (rank_pos hb), Ordering.lt_then]
    next ha =>
      split
      next hnil =>
        subst hnil
        rw [mixedOrder_eq, rank_nil, Nat.compare_eq_gt.mpr (rank_pos ha), Ordering.gt_then]
      next hb =>
        split
        next x y hx hy =>
          rw [mixedOrder_numbers hx hy]
          rcases Int.lt_trichotomy x y with h | h | h
          · rw [if_pos h, Int.compare_eq_lt.mpr h, Ordering.lt_then]
          · rw [h, if_neg (lt_irrefl y), if_neg (lt_irrefl y), Int.compare_eq_eq.mpr rfl,
              Ordering.eq_then]
          · rw [if_neg (lt_asymm h), if_pos h, Int.compare_eq_gt.mpr h, Ordering.gt_then]
        next x hx hy =>
          rw [mixedOrder_eq, rank_number hx, rank_other hb hy]
          rfl
        next y hx hy =>
          rw [mixedOrder_eq, rank_other ha hx, rank_number hy]
          rfl
        next hx hy =>
          rw [mixedOrder_eq, rank_other ha hx, rank_other hb hy, spelling, spelling, hx, hy]
          rfl

theorem cmpKeySegment_transCmp (table : Table) {kind : KeyKind}
    (h : kind ≠ .number) : TransCmp (cmpKeySegment table kind) := by
  cases kind with
  | number => exact absurd rfl h
  | text =>
    rw [show cmpKeySegment table .text = textOrder table from
      funext fun a => funext fun b => cmpKeySegment_text]
    infer_instance
  | mixed =>
    rw [show cmpKeySegment table .mixed = mixedOrder table from
      funext fun a => funext fun b => cmpKeySegment_mixed]
    infer_instance

/-! ### Circles of numbers -/

/-- `a` is before `b` as an integer, and as doubles `b` is before `c` and `c` before `a`. -/
def turns (a b c : Bytes) : Prop :=
  bothWhole a b ∧ ¬ bothWhole b c ∧ ¬ bothWhole c a ∧
    byWhole a b = .lt ∧ byDouble b c = .lt ∧ byDouble c a = .lt

/-- Two integers that are not compared as integers: one is an integer of 64 bits only, the other a
magnitude of 64 bits only, and as doubles they are as they are as integers. -/
theorem byDouble_of_apart (hab : bothWhole a b) (hbc : bothWhole b c) (hca : ¬ bothWhole c a)
    (hac : byWhole a c = .lt) : byDouble c a ≠ .lt := by
  intro hlt
  have hdouble : textToNumber c ≤ textToNumber a := by
    rcases Ordering.then_eq_lt.mp hlt with h | ⟨h, _⟩
    · exact Int.le_of_lt (Int.compare_eq_lt.mp h)
    · exact Int.le_of_eq (Int.compare_eq_eq.mp h)
  have hwhole : wholeValue a ≤ wholeValue c := by
    rcases Ordering.then_eq_lt.mp hac with h | ⟨h, _⟩
    · exact Int.le_of_lt (Int.compare_eq_lt.mp h)
    · exact Int.le_of_eq (Int.compare_eq_eq.mp h)
  cases hai : NumericText.parseInt64Text a <;> cases haw : NumericText.parseWideIntegerText a <;>
    cases hci : NumericText.parseInt64Text c <;> cases hcw : NumericText.parseWideIntegerText c <;>
    simp [bothWhole, hai, haw, hci, hcw] at hab hbc hca
  case some.none.none.some n w =>
    obtain ⟨⟨_, _⟩, hzero⟩ := int64_only hai haw
    rcases wide_only hcw hci with ⟨_, hpos⟩ | ⟨_, _⟩
    · exact absurd (hzero ▸ hdouble) (Int.not_le.mpr hpos)
    · omega
  case none.some.some.none w n =>
    obtain ⟨⟨_, _⟩, hzero⟩ := int64_only hci hcw
    rcases wide_only haw hai with ⟨_, _⟩ | ⟨_, hneg⟩
    · omega
    · exact absurd (hzero ▸ hdouble) (Int.not_le.mpr hneg)

/-- Three numbers run in a circle exactly where two of them are compared as integers with the third
between them, as a double, the wrong way round. -/
theorem cycle_number_iff : Cycle (cmpKeySegment table .number) a b c ↔
    turns a b c ∨ turns b c a ∨ turns c a b := by
  rw [Comparison.Cycle, cmpKeySegment_number, cmpKeySegment_number, cmpKeySegment_number]
  constructor
  · rintro ⟨hab, hbc, hca⟩
    split at hab <;> split at hbc <;> split at hca
    next wab wbc wca => exact (not_cycle ⟨hab, hbc, hca⟩).elim
    next wab wbc wca =>
      exact absurd hca (byDouble_of_apart wab wbc wca (TransCmp.lt_trans hab hbc))
    next wab wbc wca =>
      exact absurd hbc (byDouble_of_apart wca wab wbc (TransCmp.lt_trans hca hab))
    next wab wbc wca => exact .inl ⟨wab, wbc, wca, hab, hbc, hca⟩
    next wab wbc wca =>
      exact absurd hab (byDouble_of_apart wbc wca wab (TransCmp.lt_trans hbc hca))
    next wab wbc wca => exact .inr (.inl ⟨wbc, wca, wab, hbc, hca, hab⟩)
    next wab wbc wca => exact .inr (.inr ⟨wca, wab, wbc, hca, hab, hbc⟩)
    next wab wbc wca => exact (not_cycle ⟨hab, hbc, hca⟩).elim
  · rintro (⟨wab, wbc, wca, h⟩ | ⟨wbc, wca, wab, hbc, hca, hab⟩ | ⟨wca, wab, wbc, hca, hab, hbc⟩)
    · rw [if_pos wab, if_neg wbc, if_neg wca]
      exact h
    · rw [if_neg wab, if_pos wbc, if_neg wca]
      exact ⟨hab, hbc, hca⟩
    · rw [if_neg wab, if_neg wbc, if_pos wca]
      exact ⟨hab, hbc, hca⟩

instance (kind : KeyKind) : Congruent (cmpKeySegment table kind) := by
  by_cases h : kind = .number
  · subst h
    refine { eq_swap := ?_, congr_left := ?_ }
    · intro a b
      rw [cmpKeySegment_number, cmpKeySegment_number, if_congr bothWhole_comm rfl rfl,
        apply_ite Ordering.swap, ← OrientedCmp.eq_swap, ← OrientedCmp.eq_swap]
    · intro a b c h
      have hab : a = b := by
        rw [cmpKeySegment_number] at h
        split at h
        next => exact LawfulEqCmp.eq_of_compare (Ordering.then_eq_eq.mp h).2
        next => exact LawfulEqCmp.eq_of_compare (Ordering.then_eq_eq.mp h).2
      rw [hab]
  · have := cmpKeySegment_transCmp table h
    infer_instance

/-! ### The keys -/

theorem cmpSegments_eq_lex (kinds : List KeyKind) : ∀ (segment : ℕ) (as bs : List Bytes),
    cmpSegments table kinds segment as bs =
      lex (fun segment => cmpKeySegment table (kindOf kinds segment)) segment as bs
  | _, [], [] => rfl
  | _, [], _ :: _ => rfl
  | _, _ :: _, [] => rfl
  | segment, a :: as, b :: bs => by
      rw [cmpSegments, lex, cmpSegments_eq_lex]

theorem cmpKeys_eq_lex (kinds : List KeyKind) (a b : Bytes) :
    cmpKeys table kinds a b =
      lex (fun segment => cmpKeySegment table (kindOf kinds segment)) 0
        (segments a) (segments b) := by
  rw [cmpKeys, cmpSegments_eq_lex]
  split
  next h =>
    rw [segments, segments, List.splitOn_eq_singleton h.1, List.splitOn_eq_singleton h.2]
    exact Ordering.then_eq.symm
  next => rfl

instance (kinds : List KeyKind) : Congruent (cmpKeys table kinds) where
  eq_swap {a b} := by
    rw [cmpKeys_eq_lex, cmpKeys_eq_lex]
    exact OrientedCmp.eq_swap
  congr_left {a b c} h := by
    rw [cmpKeys_eq_lex] at h
    rw [cmpKeys_eq_lex kinds a c, cmpKeys_eq_lex kinds b c]
    exact Congruent.congr_left h

theorem cmpKeys_transCmp {kinds : List KeyKind} (h : .number ∉ kinds) :
    TransCmp (cmpKeys table kinds) := by
  have hkind (segment : ℕ) : kindOf kinds segment ≠ .number := by
    rw [kindOf, List.getD_eq_getElem?_getD]
    cases hget : kinds[min segment (kinds.length - 1)]? with
    | none => exact nofun
    | some kind => exact fun hnumber => h (hnumber ▸ List.mem_of_getElem? hget)
  have (segment : ℕ) := cmpKeySegment_transCmp table (hkind segment)
  refine transCmp_of_not_cycle fun a b c hcycle => ?_
  rw [Comparison.Cycle, cmpKeys_eq_lex, cmpKeys_eq_lex, cmpKeys_eq_lex] at hcycle
  exact not_cycle hcycle

instance : TransCmp (cmpKeys table []) :=
  cmpKeys_transCmp List.not_mem_nil

variable (table)

/-- Texts that are one segment: the same, or equal in the collation where texts are compared. -/
def alike (kind : KeyKind) (a b : Bytes) : Prop :=
  match kind with
  | .number => a = b
  | .text => equal table a b
  | .mixed => a = b ∨
      (a ≠ [] ∧ b ≠ [] ∧ parseNumber a = none ∧ parseNumber b = none ∧
        equal table a b)

/-- Three keys of which, at the first segments not all alike, two are integers with the third number
between them the wrong way round. -/
def circleIn (kinds : List KeyKind) : ℕ → List Bytes → List Bytes → List Bytes → Prop
  | segment, a :: as, b :: bs, c :: cs =>
    (kindOf kinds segment = .number ∧ (turns a b c ∨ turns b c a ∨ turns c a b)) ∨
      (alike table (kindOf kinds segment) a b ∧ alike table (kindOf kinds segment) b c ∧
        circleIn kinds (segment + 1) as bs cs)
  | _, _, _, _ => False

/-- What a total preorder has for three keys. -/
structure OrderedAt (cmp : Bytes → Bytes → Ordering) (a b c : Bytes) : Prop where
  self : cmp a a = .eq
  swap : cmp a b = (cmp b a).swap
  trans : (cmp a b).isLE → (cmp b c).isLE → (cmp a c).isLE
  interchangeable : cmp a b = .eq → cmp a c = cmp b c ∧ cmp c a = cmp c b

variable {table}

theorem equal_iff : equal table a b ↔ textOrder table a b = .eq := by
  rw [equal, decide_eq_true_eq, textOrder, or_iff_right_iff_imp]
  rintro rfl
  exact ReflCmp.compare_self

theorem cmpKeySegment_eq_eq {kind : KeyKind} :
    cmpKeySegment table kind a b = .eq ↔ alike table kind a b := by
  cases kind with
  | text => rw [cmpKeySegment_text, alike, equal_iff]
  | number =>
    refine ⟨fun h => ?_, fun h => h ▸ cmpKeySegment_self _⟩
    rw [cmpKeySegment_number] at h
    split at h
    next => exact LawfulEqCmp.eq_of_compare (Ordering.then_eq_eq.mp h).2
    next => exact LawfulEqCmp.eq_of_compare (Ordering.then_eq_eq.mp h).2
  | mixed =>
    rw [cmpKeySegment_mixed, alike, equal_iff]
    constructor
    · intro h
      rw [mixedOrder_eq, Ordering.then_eq_eq, Ordering.then_eq_eq, Ordering.then_eq_eq,
        Nat.compare_eq_eq] at h
      obtain ⟨hrank, _, hspelling, htext⟩ := h
      rcases rank_cases a with ⟨rfl, ha⟩ | ⟨x, hx, ha⟩ | ⟨hane, hx, ha⟩ <;>
        rcases rank_cases b with ⟨rfl, hb⟩ | ⟨y, hy, hb⟩ | ⟨hbne, hy, hb⟩
      case inl.inl => exact .inl rfl
      case inr.inl.inr.inl =>
        rw [spelling, spelling, hx, hy] at hspelling
        exact .inl (LawfulEqOrd.eq_of_compare hspelling)
      case inr.inr.inr.inr => exact .inr ⟨hane, hbne, hx, hy, htext⟩
      all_goals exact absurd (ha.symm.trans (hrank.trans hb)) (by decide)
    · rintro (rfl | ⟨ha, hb, hx, hy, htext⟩)
      · exact ReflCmp.compare_self
      · rw [mixedOrder_eq, rank_other ha hx, rank_other hb hy, spelling, spelling, hx, hy]
        exact htext

theorem circleIn_iff {kinds : List KeyKind} : ∀ {segment : ℕ} {as bs cs : List Bytes},
    circleIn table kinds segment as bs cs ↔
      CycleIn (fun segment => cmpKeySegment table (kindOf kinds segment)) segment as bs cs
  | segment, a :: as, b :: bs, c :: cs => by
      rw [circleIn, CycleIn, circleIn_iff, cmpKeySegment_eq_eq, cmpKeySegment_eq_eq]
      refine or_congr ⟨?_, ?_⟩ Iff.rfl
      · rintro ⟨hkind, h⟩
        rw [hkind]
        exact cycle_number_iff.mpr h
      · intro h
        by_cases hkind : kindOf kinds segment = .number
        · rw [hkind] at h
          exact ⟨hkind, cycle_number_iff.mp h⟩
        · have := cmpKeySegment_transCmp table hkind
          exact (not_cycle h).elim
  | _, [], _, _ | _, _ :: _, [], _ | _, _ :: _, _ :: _, [] => Iff.rfl

/-- Three keys are compared as in a total preorder exactly where they do not run in a circle. -/
theorem cmpKeys_ordered_iff (table : UnicodeCollation.Table) (kinds : List KeyKind)
    (a b c : Bytes) :
    OrderedAt (cmpKeys table kinds) a b c ↔
      ¬ circleIn table kinds 0 (segments a) (segments b) (segments c) := by
  have hcycle : Comparison.Cycle (cmpKeys table kinds) a b c ↔
      circleIn table kinds 0 (segments a) (segments b) (segments c) := by
    rw [circleIn_iff, ← cycle_lex_iff, Comparison.Cycle, cmpKeys_eq_lex, cmpKeys_eq_lex,
      cmpKeys_eq_lex, Comparison.Cycle]
  rw [← hcycle, ← isLE_trans_iff]
  exact ⟨OrderedAt.trans, fun h => ⟨ReflCmp.compare_self, OrientedCmp.eq_swap, h,
    fun heq => ⟨Comparison.Congruent.congr_left heq, Comparison.Congruent.congr_right heq⟩⟩⟩

/-- `-9007199254740993` is before `-9007199254740992` and this before `-9007199254740992.0`, which
is before the first: as a double the three are one. -/
theorem cmpKeys_circle : ¬ OrderedAt (cmpKeys ⟨[], []⟩ [.number])
    [0x2D, 0x39, 0x30, 0x30, 0x37, 0x31, 0x39, 0x39, 0x32, 0x35, 0x34, 0x37, 0x34, 0x30, 0x39,
      0x39, 0x33]
    [0x2D, 0x39, 0x30, 0x30, 0x37, 0x31, 0x39, 0x39, 0x32, 0x35, 0x34, 0x37, 0x34, 0x30, 0x39,
      0x39, 0x32]
    [0x2D, 0x39, 0x30, 0x30, 0x37, 0x31, 0x39, 0x39, 0x32, 0x35, 0x34, 0x37, 0x34, 0x30, 0x39,
      0x39, 0x32, 0x2E, 0x30] :=
  fun h => absurd (h.trans (by decide +kernel) (by decide +kernel)) (by decide +kernel)

end RusqlEngine.KeyOrder
