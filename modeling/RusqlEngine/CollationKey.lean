import RusqlEngine.UnicodeCollation
import Mathlib.Data.List.Nodup

/-!
# The keys of a text

Two texts have the same key exactly where they are equal in the collation, and the bytes of their
sort keys are ordered as the texts are. What the table of weights is asked for is in its generated
data: a printable ASCII character has one weight, of its own but for the case of a letter.
-/

namespace RusqlEngine.UnicodeCollation

open Buffer (Byte Bytes)

/-- One weight for a printable ASCII character, the same for a letter in both cases. -/
structure PrintableWeights (table : Table) : Prop where
  single : ∀ c : Byte, printable c → (table.weightsOf c.val).length = 1
  upper : ∀ c : Byte, isUpper c → table.weightsOf c.val = table.weightsOf (lowerCase c).val
  apart : (asciiCharacters.map fun c => table.weightsOf c.val).Nodup

/-- The generated data of the printable ASCII characters. -/
def asciiTable : Table where
  kRuns := [
      ⟨0x20, 1, 0, 1, 1⟩, ⟨0x21, 1, 0, 1, 2⟩, ⟨0x22, 1, 0, 1, 3⟩, ⟨0x23, 1, 0, 1, 4⟩,
      ⟨0x24, 1, 0, 1, 5⟩, ⟨0x25, 1, 0, 1, 6⟩, ⟨0x26, 1, 0, 1, 7⟩, ⟨0x27, 1, 0, 1, 8⟩,
      ⟨0x28, 2, 1, 1, 9⟩, ⟨0x2A, 1, 0, 1, 10⟩, ⟨0x2B, 1, 0, 1, 11⟩, ⟨0x2C, 1, 0, 1, 12⟩,
      ⟨0x2D, 1, 0, 1, 13⟩, ⟨0x2E, 1, 0, 1, 14⟩, ⟨0x2F, 1, 0, 1, 15⟩, ⟨0x30, 10, 1, 1, 16⟩,
      ⟨0x3A, 1, 0, 1, 17⟩, ⟨0x3B, 1, 0, 1, 18⟩, ⟨0x3C, 3, 1, 1, 19⟩, ⟨0x3F, 1, 0, 1, 20⟩,
      ⟨0x40, 1, 0, 1, 21⟩, ⟨0x41, 1, 0, 1, 22⟩, ⟨0x42, 1, 0, 1, 23⟩, ⟨0x43, 1, 0, 1, 24⟩,
      ⟨0x44, 1, 0, 1, 25⟩, ⟨0x45, 1, 0, 1, 26⟩, ⟨0x46, 1, 0, 1, 27⟩, ⟨0x47, 1, 0, 1, 28⟩,
      ⟨0x48, 1, 0, 1, 29⟩, ⟨0x49, 1, 0, 1, 30⟩, ⟨0x4A, 1, 0, 1, 31⟩, ⟨0x4B, 1, 0, 1, 32⟩,
      ⟨0x4C, 1, 0, 1, 33⟩, ⟨0x4D, 1, 0, 1, 34⟩, ⟨0x4E, 1, 0, 1, 35⟩, ⟨0x4F, 1, 0, 1, 36⟩,
      ⟨0x50, 1, 0, 1, 37⟩, ⟨0x51, 1, 0, 1, 38⟩, ⟨0x52, 1, 0, 1, 39⟩, ⟨0x53, 1, 0, 1, 40⟩,
      ⟨0x54, 1, 0, 1, 41⟩, ⟨0x55, 1, 0, 1, 42⟩, ⟨0x56, 1, 0, 1, 43⟩, ⟨0x57, 1, 0, 1, 44⟩,
      ⟨0x58, 1, 0, 1, 45⟩, ⟨0x59, 1, 0, 1, 46⟩, ⟨0x5A, 1, 0, 1, 47⟩, ⟨0x5B, 1, 0, 1, 48⟩,
      ⟨0x5C, 1, 0, 1, 49⟩, ⟨0x5D, 1, 0, 1, 50⟩, ⟨0x5E, 1, 0, 1, 51⟩, ⟨0x5F, 1, 0, 1, 52⟩,
      ⟨0x60, 1, 0, 1, 53⟩, ⟨0x61, 1, 0, 1, 54⟩, ⟨0x62, 1, 0, 1, 55⟩, ⟨0x63, 1, 0, 1, 56⟩,
      ⟨0x64, 1, 0, 1, 57⟩, ⟨0x65, 1, 0, 1, 58⟩, ⟨0x66, 1, 0, 1, 59⟩, ⟨0x67, 1, 0, 1, 60⟩,
      ⟨0x68, 1, 0, 1, 61⟩, ⟨0x69, 1, 0, 1, 62⟩, ⟨0x6A, 1, 0, 1, 63⟩, ⟨0x6B, 1, 0, 1, 64⟩,
      ⟨0x6C, 1, 0, 1, 65⟩, ⟨0x6D, 1, 0, 1, 66⟩, ⟨0x6E, 1, 0, 1, 67⟩, ⟨0x6F, 1, 0, 1, 68⟩,
      ⟨0x70, 1, 0, 1, 69⟩, ⟨0x71, 1, 0, 1, 70⟩, ⟨0x72, 1, 0, 1, 71⟩, ⟨0x73, 1, 0, 1, 72⟩,
      ⟨0x74, 1, 0, 1, 73⟩, ⟨0x75, 1, 0, 1, 74⟩, ⟨0x76, 1, 0, 1, 75⟩, ⟨0x77, 1, 0, 1, 76⟩,
      ⟨0x78, 1, 0, 1, 77⟩, ⟨0x79, 1, 0, 1, 78⟩, ⟨0x7A, 1, 0, 1, 79⟩, ⟨0x7B, 1, 0, 1, 80⟩,
      ⟨0x7C, 1, 0, 1, 81⟩, ⟨0x7D, 1, 0, 1, 82⟩, ⟨0x7E, 1, 0, 1, 83⟩]
  kPool := [
      0x201, 0x209, 0x260, 0x30C, 0x398, 0x1C12, 0x399, 0x396, 0x305, 0x317, 0x38F, 0x616, 0x222,
      0x20D, 0x277, 0x394, 0x1C3D, 0x239, 0x234, 0x61A, 0x266, 0x38E, 0x1C47, 0x1C60, 0x1C7A,
      0x1C8F, 0x1CAA, 0x1CE5, 0x1CF4, 0x1D18, 0x1D32, 0x1D4C, 0x1D65, 0x1D77, 0x1DAA, 0x1DB9,
      0x1DDD, 0x1E0C, 0x1E21, 0x1E33, 0x1E71, 0x1E95, 0x1EB5, 0x1EE3, 0x1EF5, 0x1EFF, 0x1F0B,
      0x1F21, 0x319, 0x395, 0x31A, 0x485, 0x20B, 0x482, 0x1C47, 0x1C60, 0x1C7A, 0x1C8F, 0x1CAA,
      0x1CE5, 0x1CF4, 0x1D18, 0x1D32, 0x1D4C, 0x1D65, 0x1D77, 0x1DAA, 0x1DB9, 0x1DDD, 0x1E0C,
      0x1E21, 0x1E33, 0x1E71, 0x1E95, 0x1EB5, 0x1EE3, 0x1EF5, 0x1EFF, 0x1F0B, 0x1F21, 0x31B,
      0x61E, 0x31C, 0x620]

theorem asciiTable_printableWeights : PrintableWeights asciiTable where
  single := by decide +kernel
  upper := by decide +kernel
  apart := by decide

theorem mem_asciiCharacters {c : Byte} : c ∈ asciiCharacters ↔ printable c ∧ isUpper c = false := by
  rw [asciiCharacters, List.mem_filter, Bool.and_eq_true, Bool.not_eq_true']
  exact and_iff_right (List.mem_finRange c)

theorem lowerCase_mem (c : Byte) (hc : printable c) : lowerCase c ∈ asciiCharacters := by
  rw [mem_asciiCharacters, lowerCase]
  grind [printable, isUpper]

theorem ne_zero_of_printable (c : Byte) (h : printable c) : c ≠ 0 ∧ c < 0x80 := by
  rw [printable, decide_eq_true_eq] at h
  exact ⟨fun hc => absurd (hc ▸ h.1) (by decide), h.2.trans_lt (by decide)⟩

theorem lowerCase_of_not_upper {c : Byte} (h : isUpper c = false) : lowerCase c = c := by
  rw [lowerCase, h]
  rfl

theorem weightBytes_injective : ∀ {as bs : List Weight},
    as.flatMap weightBytes = bs.flatMap weightBytes → as = bs
  | [], [], _ => rfl
  | [], _ :: _, h => nomatch h
  | _ :: _, [], h => nomatch h
  | a :: as, b :: bs, h => by
      rw [List.flatMap_cons, List.flatMap_cons, weightBytes, weightBytes] at h
      obtain ⟨hhigh, h⟩ := List.cons.inj h
      obtain ⟨hlow, htail⟩ := List.cons.inj h
      have hhigh := congrArg Fin.val hhigh
      have hlow := congrArg Fin.val hlow
      rw [Fin.val_ofNat, Fin.val_ofNat] at hhigh hlow
      have hab : a = b := Fin.ext (by omega)
      rw [hab, weightBytes_injective htail]

/-- The key that a list of weights has. -/
def keyOfWeights (table : Table) (ws : List Weight) : Bytes :=
  match ws.mapM (asciiOfWeight table) with
  | some plain => plain
  | none => 0x01 :: ws.flatMap weightBytes

section

variable {table : Table}

theorem asciiOfWeight_eq_some {w : Weight} {c : Byte} (hc : asciiOfWeight table w = some c) :
    c ∈ asciiCharacters ∧ (table.asciiWeights c).headD 0 = w := by
  rw [asciiOfWeight] at hc
  exact ⟨List.mem_of_find?_eq_some hc, by simpa using List.find?_some hc⟩

theorem mapM_asciiOfWeight {ws : List Weight} : ∀ {plain : Bytes},
    ws.mapM (asciiOfWeight table) = some plain →
      (∀ c ∈ plain, c ∈ asciiCharacters) ∧
        ws = plain.map fun c => (table.asciiWeights c).headD 0 := by
  induction ws with
  | nil =>
    intro plain h
    obtain rfl := Option.some.inj h
    exact ⟨nofun, rfl⟩
  | cons w ws ih =>
    intro plain h
    rw [List.mapM_cons] at h
    obtain ⟨c, hc, h⟩ := Option.bind_eq_some_iff.mp h
    obtain ⟨rest, hrest, h⟩ := Option.bind_eq_some_iff.mp h
    obtain rfl := Option.some.inj h
    obtain ⟨hmem, hw⟩ := asciiOfWeight_eq_some hc
    obtain ⟨hall, hws⟩ := ih hrest
    exact ⟨List.forall_mem_cons.mpr ⟨hmem, hall⟩, by rw [List.map_cons, hw, ← hws]⟩

theorem keyOfWeights_injective : Function.Injective (keyOfWeights table) := by
  intro as bs h
  rw [keyOfWeights, keyOfWeights] at h
  have hone {plain rest : Bytes} (hall : ∀ c ∈ plain, c ∈ asciiCharacters) :
      plain ≠ 0x01 :: rest := by
    rintro rfl
    exact absurd (hall 0x01 List.mem_cons_self) (by decide)
  cases has : as.mapM (asciiOfWeight table) <;> cases hbs : bs.mapM (asciiOfWeight table) <;>
    rw [has, hbs] at h
  case none.none => exact weightBytes_injective (List.cons.inj h).2
  case none.some => exact absurd h.symm (hone (mapM_asciiOfWeight hbs).1)
  case some.none => exact absurd h (hone (mapM_asciiOfWeight has).1)
  case some.some plain plain' =>
    have hplain : plain = plain' := h
    rw [(mapM_asciiOfWeight has).2, (mapM_asciiOfWeight hbs).2, hplain]

theorem keyOfWeights_ne_null {ws : List Weight} : keyOfWeights table ws ≠ [0x02, 0x4E] := by
  rw [keyOfWeights]
  split
  next plain hplain =>
    rintro rfl
    exact absurd ((mapM_asciiOfWeight hplain).1 0x02 List.mem_cons_self) (by decide)
  next => exact fun h => absurd (List.cons.inj h).1 (by decide)

variable (h : PrintableWeights table)
include h

theorem asciiWeights_eq {c : Byte} (hc : printable c) :
    table.asciiWeights c = table.weightsOf c.val := by
  rw [Table.asciiWeights, if_neg (ne_zero_of_printable c hc).1, List.take_of_length_le]
  exact Nat.le_of_eq (h.single c hc)

theorem weightsOf_lowerCase (c : Byte) :
    table.weightsOf c.val = table.weightsOf (lowerCase c).val := by
  cases hupper : isUpper c with
  | true => exact h.upper c hupper
  | false => rw [lowerCase_of_not_upper hupper]

theorem asciiOfWeight_eq {c : Byte} {w : Weight} (hc : printable c)
    (hw : table.weightsOf c.val = [w]) : asciiOfWeight table w = some (lowerCase c) := by
  have hmem := lowerCase_mem c hc
  have hlower := (mem_asciiCharacters.mp hmem).1
  have hweight : (table.asciiWeights (lowerCase c)).headD 0 = w := by
    rw [asciiWeights_eq h hlower, ← weightsOf_lowerCase h, hw]
    rfl
  cases hfind : asciiOfWeight table w with
  | none => exact absurd (decide_eq_true hweight) (List.find?_eq_none.mp hfind _ hmem)
  | some d =>
    obtain ⟨hd, hdw⟩ := asciiOfWeight_eq_some hfind
    have hdp := (mem_asciiCharacters.mp hd).1
    obtain ⟨u, hu⟩ := List.length_eq_one_iff.mp (h.single d hdp)
    rw [asciiWeights_eq h hdp, hu, List.headD_cons] at hdw
    have heq : table.weightsOf d.val = table.weightsOf (lowerCase c).val := by
      rw [← weightsOf_lowerCase h c, hw, hu, hdw]
    rw [List.inj_on_of_nodup_map h.apart hd hmem heq]

theorem mapM_weights {s : Bytes} (hs : s.all printable) :
    (table.weights s).mapM (asciiOfWeight table) = some (s.map lowerCase) := by
  rw [Table.weights]
  induction s with
  | nil => rfl
  | cons c s ih =>
    rw [List.all_cons, Bool.and_eq_true] at hs
    obtain ⟨w, hw⟩ := List.length_eq_one_iff.mp (h.single c hs.1)
    rw [Table.cursor, if_pos (ne_zero_of_printable c hs.1).2, asciiWeights_eq h hs.1, hw,
      List.singleton_append, List.mapM_cons, asciiOfWeight_eq h hs.1 hw, ih hs.2]
    rfl

theorem key_eq {s : Bytes} (hs : isNullText s = false) :
    key table s = keyOfWeights table (table.weights s) := by
  rw [key, hs, keyOfWeights]
  split
  next hnull => exact nomatch hnull
  next =>
    split
    next hprintable => rw [mapM_weights h hprintable]
    next => rfl

theorem key_eq_iff {a b : Bytes} : key table a = key table b ↔ equal table a b := by
  rw [equal, decide_eq_true_eq, compare_eq_eq]
  have hnull {s : Bytes} (hs : isNullText s) : key table s = [0x02, 0x4E] := by
    rw [key, hs, if_pos rfl]
  constructor
  · intro hkey
    refine .inr ?_
    rw [orderedBy, orderedBy]
    cases ha : isNullText a <;> cases hb : isNullText b
    case false.false =>
      rw [key_eq h ha, key_eq h hb] at hkey
      exact congrArg some (keyOfWeights_injective hkey)
    case false.true =>
      rw [key_eq h ha, hnull hb] at hkey
      exact absurd hkey keyOfWeights_ne_null
    case true.false =>
      rw [hnull ha, key_eq h hb] at hkey
      exact absurd hkey.symm keyOfWeights_ne_null
    case true.true => rfl
  · rintro (rfl | hequal)
    · rfl
    · rw [orderedBy, orderedBy] at hequal
      cases ha : isNullText a <;> cases hb : isNullText b <;> rw [ha, hb] at hequal
      case false.false => rw [key_eq h ha, key_eq h hb, Option.some.inj hequal]
      case false.true => cases hequal
      case true.false => cases hequal
      case true.true => rw [hnull ha, hnull hb]

omit h in
theorem key_self {s : Bytes} (hs : ∀ c ∈ s, c ∈ asciiCharacters) : key table s = s := by
  have hnull : isNullText s = false := by
    by_contra hnull
    rw [Bool.not_eq_false, isNullText, decide_eq_true_eq] at hnull
    exact absurd (hs 0x4E (hnull ▸ List.mem_cons_self)) (by decide)
  have hprintable : s.all printable :=
    List.all_eq_true.mpr fun c hc => (mem_asciiCharacters.mp (hs c hc)).1
  rw [key, hnull, if_neg Bool.false_ne_true, if_pos hprintable, List.map_congr_left, List.map_id]
  exact fun c hc => lowerCase_of_not_upper (mem_asciiCharacters.mp (hs c hc)).2

end

theorem compare_bytes (a b : Weight) :
    (Ord.compare (Fin.ofNat 256 (a.val / 256)) (Fin.ofNat 256 (b.val / 256))).then
      (Ord.compare (Fin.ofNat 256 a.val) (Fin.ofNat 256 b.val)) = Ord.compare a b := by
  have ha := a.isLt
  have hb := b.isLt
  change (Ord.compare (a.val / 256 % 256) (b.val / 256 % 256)).then
    (Ord.compare (a.val % 256) (b.val % 256)) = Ord.compare a.val b.val
  rw [Nat.mod_eq_of_lt (by omega), Nat.mod_eq_of_lt (by omega)]
  rcases lt_trichotomy (a.val / 256) (b.val / 256) with h | h | h
  · have hlt : a.val < b.val := by omega
    rw [Nat.compare_eq_lt.mpr h, Nat.compare_eq_lt.mpr hlt, Ordering.lt_then]
  · rw [Nat.compare_eq_eq.mpr h, Ordering.eq_then]
    rcases lt_trichotomy (a.val % 256) (b.val % 256) with h' | h' | h'
    · have hlt : a.val < b.val := by omega
      rw [Nat.compare_eq_lt.mpr h', Nat.compare_eq_lt.mpr hlt]
    · have heq : a.val = b.val := by omega
      rw [Nat.compare_eq_eq.mpr h', Nat.compare_eq_eq.mpr heq]
    · have hgt : b.val < a.val := by omega
      rw [Nat.compare_eq_gt.mpr h', Nat.compare_eq_gt.mpr hgt]
  · have hgt : b.val < a.val := by omega
    rw [Nat.compare_eq_gt.mpr h, Nat.compare_eq_gt.mpr hgt, Ordering.gt_then]

theorem compare_flatMap_weightBytes : ∀ as bs : List Weight,
    Ord.compare (as.flatMap weightBytes) (bs.flatMap weightBytes) = Ord.compare as bs
  | [], [] => rfl
  | [], _ :: _ => rfl
  | _ :: _, [] => rfl
  | a :: as, b :: bs => by
      rw [List.flatMap_cons, List.flatMap_cons]
      change Ord.compare (_ :: _ :: as.flatMap weightBytes) (_ :: _ :: bs.flatMap weightBytes) = _
      rw [List.compare_cons_cons, List.compare_cons_cons, compare_flatMap_weightBytes as bs,
        List.compare_cons_cons, ← Ordering.then_assoc, compare_bytes]

theorem compare_sortKey (table : Table) {a b : Bytes} (ha : isNullText a = false)
    (hb : isNullText b = false) :
    Ord.compare (sortKey table a) (sortKey table b) = compare table a b := by
  rw [compare_eq, orderedBy, orderedBy, ha, hb, sortKey, sortKey, compare_flatMap_weightBytes]
  rfl

/-- The keys, the order of the texts and the order of the sort keys fit each other. -/
theorem keys_agree {table : Table} (h : PrintableWeights table) :
    (∀ a b, key table a = key table b ↔ compare table a b = .eq) ∧
      ((∀ a, compare table a a = .eq) ∧
        (∀ a b, compare table b a = (compare table a b).swap) ∧
        ∀ a b c, (compare table a b).isLE → (compare table b c).isLE →
          (compare table a c).isLE) ∧
      ∀ a b, isNullText a = false → isNullText b = false →
        Ord.compare (sortKey table a) (sortKey table b) = compare table a b := by
  have hkey (a b : Bytes) : key table a = key table b ↔ compare table a b = .eq := by
    rw [key_eq_iff h, equal, decide_eq_true_eq]
    refine or_iff_right_of_imp ?_
    rintro rfl
    exact Std.ReflCmp.compare_self
  exact ⟨hkey, ⟨fun _ => Std.ReflCmp.compare_self, fun _ _ => Std.OrientedCmp.eq_swap,
    fun _ _ _ => Std.TransCmp.isLE_trans⟩, fun _ _ => compare_sortKey table⟩

/-- `A`, `a` and `b`. -/
theorem keys_agree_letters :
    key asciiTable [0x41] = key asciiTable [0x61] ∧
      Ord.compare (sortKey asciiTable [0x41]) (sortKey asciiTable [0x62]) = .lt := by
  obtain ⟨hkey, -, hsort⟩ := keys_agree asciiTable_printableWeights
  refine ⟨(hkey _ _).mpr ?_, (hsort _ _ rfl rfl).trans ?_⟩
  · decide
  · decide

end RusqlEngine.UnicodeCollation
