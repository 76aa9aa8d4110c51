import RusqlEngine.Like

/-!
# The two walks of LIKE

The table of the ASCII characters gives NUL no weights, the table of the runs gives it the two of a
code point nobody has assigned. So the walk over bytes takes NUL for any other control character and
the walk over code points does not; apart from that they agree, and both find what the tokens of the
pattern mean.
-/

namespace RusqlEngine.UnicodeCollation

open Wildcard
open Buffer (Byte Bytes)

/-- What the generated data says of the ASCII characters: no run has NUL, any other one has a weight
at most. -/
structure AsciiWeights (table : Table) : Prop where
  nul : table.fromRuns 0 = none
  single : ∀ c : Byte, c ≠ 0 → c < 0x80 → (table.weightsOf c.val).length ≤ 1

/-- The generated data of all ASCII characters. -/
def controlTable : Table where
  kRuns := [⟨0x1, 8, 0, 0, 0⟩, ⟨0x9, 5, 1, 1, 0⟩, ⟨0xE, 18, 0, 0, 1⟩] ++ asciiTable.kRuns ++
    [⟨0x7F, 6, 0, 0, 84⟩]
  kPool := asciiTable.kPool

theorem controlTable_asciiWeights : AsciiWeights controlTable where
  nul := rfl
  single := by decide +kernel

variable {table : Table}

/-- Where the value can be divided with NUL as a character without weights, it can be with no NUL
opposite another character. -/
def NulsApart (table : Table) (tokens : List (Wildcard.Token ℕ)) (value : List ℕ) : Prop :=
  Matches (sameAscii table) tokens value →
    Matches (fun a b => sameAscii table a b && decide (a = 0 ↔ b = 0)) tokens value

/-- The answer is whether the value can be divided among the tokens of the pattern. -/
def LikeRight (table : Table) (value pattern : Bytes) : Prop :=
  ∃ answer : Bool, like table value pattern = some answer ∧
    (answer ↔ Matches (sameWeights table) (tokens (codePoints pattern)) (codePoints value))

section

theorem val_ofNat_of_lt {c : ℕ} (hc : c < 0x80) : (Fin.ofNat 256 c : Byte).val = c :=
  Nat.mod_eq_of_lt (by omega)

theorem eq_nil_or_singleton {α : Type*} {weights : List α} (h : weights.length ≤ 1) :
    weights = [] ∨ ∃ w, weights = [w] := by
  rcases Nat.le_one_iff_eq_zero_or_eq_one.mp h with hnil | hone
  · exact .inl (List.eq_nil_of_length_eq_zero hnil)
  · exact .inr (List.length_eq_one_iff.mp hone)

theorem sameAscii_iff {a b : ℕ} : sameAscii table a b ↔
    a = b ∨ table.asciiWeights (Fin.ofNat 256 a) = table.asciiWeights (Fin.ofNat 256 b) := by
  have hone (c : Byte) : (table.asciiWeights c).length ≤ 1 := by
    rw [Table.asciiWeights]
    split
    · exact Nat.zero_le 1
    · exact List.length_take_le 1 _
  rw [sameAscii, Bool.or_eq_true, decide_eq_true_iff]
  refine or_congr Iff.rfl ?_
  rw [asciiCount, asciiCount, asciiWeight, asciiWeight]
  have ha := hone (Fin.ofNat 256 a)
  have hb := hone (Fin.ofNat 256 b)
  generalize table.asciiWeights (Fin.ofNat 256 a) = as at ha ⊢
  generalize table.asciiWeights (Fin.ofNat 256 b) = bs at hb ⊢
  obtain rfl | ⟨x, rfl⟩ := eq_nil_or_singleton ha <;>
    obtain rfl | ⟨y, rfl⟩ := eq_nil_or_singleton hb <;> simp

variable (h : AsciiWeights table)
include h

theorem asciiWeights_of_lt {c : ℕ} (hc : c < 0x80) (hne : c ≠ 0) :
    table.asciiWeights (Fin.ofNat 256 c) = table.weightsOf c := by
  have hval := val_ofNat_of_lt hc
  have hzero : (Fin.ofNat 256 c : Byte) ≠ 0 := fun hz => hne (by rw [← hval, hz]; rfl)
  rw [Table.asciiWeights, if_neg hzero, List.take_of_length_le, hval]
  exact h.single _ hzero (by rw [Fin.lt_def, hval]; exact hc)

theorem length_weightsOf_le {c : ℕ} (hc : c < 0x80) (hne : c ≠ 0) :
    (table.weightsOf c).length ≤ 1 := by
  rw [← asciiWeights_of_lt h hc hne, Table.asciiWeights]
  split
  · exact Nat.zero_le 1
  · exact List.length_take_le 1 _

theorem length_weightsOf_nul : (table.weightsOf 0).length = 2 := by
  rw [Table.weightsOf, h.nul]
  rfl

/-- Two ASCII characters have the same weights where the table says so and none of them alone is
NUL. -/
theorem sameAscii_and_nul {a b : ℕ} (ha : a < 0x80) (hb : b < 0x80) :
    (sameAscii table a b && decide (a = 0 ↔ b = 0)) = sameWeights table a b := by
  rw [Bool.eq_iff_iff, Bool.and_eq_true, sameAscii_iff, sameWeights, Bool.or_eq_true,
    decide_eq_true_iff, decide_eq_true_iff, decide_eq_true_iff]
  by_cases hab : a = b
  · simp [hab]
  by_cases ha0 : a = 0
  · have hb0 : b ≠ 0 := fun hb0 => hab (ha0.trans hb0.symm)
    have hlen : table.weightsOf 0 ≠ table.weightsOf b := fun heq => by
      have := length_weightsOf_le h hb hb0
      rw [← heq, length_weightsOf_nul h] at this
      omega
    subst ha0
    simp [hab, hb0, hlen]
  by_cases hb0 : b = 0
  · have hlen : table.weightsOf a ≠ table.weightsOf 0 := fun heq => by
      have := length_weightsOf_le h ha ha0
      rw [heq, length_weightsOf_nul h] at this
      omega
    subst hb0
    simp [hab, hlen]
  rw [asciiWeights_of_lt h ha ha0, asciiWeights_of_lt h hb hb0]
  simp [ha0, hb0]

end

section

theorem codePoints_of_allAscii {s : Bytes} (hs : allAscii s) : codePoints s = s.map Fin.val := by
  rw [codePoints]
  induction s with
  | nil => rfl
  | cons c s ih =>
    rw [allAscii, List.all_cons, Bool.and_eq_true, decide_eq_true_iff] at hs
    have hdecode : decode c s = (c.val, 1) := by
      rw [decode]
      exact if_pos hs.1
    rw [codePointsFrom, hdecode, List.map_cons, Nat.sub_self, ih hs.2]

theorem lt_of_mem_codePoints {s : Bytes} (hs : allAscii s) : ∀ c ∈ codePoints s, c < 0x80 := by
  rw [codePoints_of_allAscii hs]
  intro c hc
  obtain ⟨b, hb, rfl⟩ := List.mem_map.mp hc
  exact decide_eq_true_iff.mp (List.all_eq_true.mp hs b hb)

theorem mem_of_item_mem_tokens {b : ℕ} : ∀ {pattern : List ℕ}, .item b ∈ tokens pattern →
    b ∈ pattern
  | [], h => nomatch h
  | [c], h => by
      rw [tokens, List.mem_singleton, plainToken] at h
      split at h
      next => cases h
      next =>
        split at h
        next => cases h
        next => exact List.mem_singleton.mpr (Token.item.inj h)
  | c :: x :: rest, h => by
      rw [tokens] at h
      split at h
      next =>
        rcases List.mem_cons.mp h with heq | h
        · exact List.mem_cons_of_mem c (Token.item.inj heq ▸ List.mem_cons_self)
        · exact List.mem_cons_of_mem c (List.mem_cons_of_mem x (mem_of_item_mem_tokens h))
      next =>
        rcases List.mem_cons.mp h with heq | h
        · rw [plainToken] at heq
          split at heq
          next => cases heq
          next =>
            split at heq
            next => cases heq
            next => exact List.mem_cons.mpr (.inl (Token.item.inj heq))
        · exact List.mem_cons_of_mem c (mem_of_item_mem_tokens h)

theorem matches_ascii_iff (h : AsciiWeights table) {ts : List (Wildcard.Token ℕ)} {value : List ℕ}
    (hts : ∀ b, .item b ∈ ts → b < 0x80) (hvalue : ∀ c ∈ value, c < 0x80) :
    (Matches (sameAscii table) ts value ↔ Matches (sameWeights table) ts value) ↔
      NulsApart table ts value := by
  have hfine : Matches (fun a b => sameAscii table a b && decide (a = 0 ↔ b = 0)) ts value ↔
      Matches (sameWeights table) ts value := by
    constructor
    · intro hm
      refine hm.imp fun b c hb hc hsame => ?_
      rwa [sameAscii_and_nul h (hts b hb) (hvalue c hc)] at hsame
    · intro hm
      refine hm.imp fun b c hb hc hsame => ?_
      rwa [sameAscii_and_nul h (hts b hb) (hvalue c hc)]
  have hcoarse : Matches (sameWeights table) ts value → Matches (sameAscii table) ts value := by
    intro hm
    refine hm.imp fun b c hb hc hsame => ?_
    rw [← sameAscii_and_nul h (hts b hb) (hvalue c hc), Bool.and_eq_true] at hsame
    exact hsame.1
  rw [NulsApart, hfine]
  exact ⟨fun hiff => hiff.mp, fun himp => ⟨himp, hcoarse⟩⟩

theorem like_spec (table : Table) {value : Bytes} (pattern : Bytes)
    (hnull : isNullText value = false) : ∃ answer : Bool, like table value pattern = some answer ∧
      (answer ↔ Matches
        (if allAscii value && allAscii pattern then sameAscii table else sameWeights table)
        (tokens (codePoints pattern)) (codePoints value)) := by
  rw [like, hnull, if_neg Bool.false_ne_true]
  by_cases hascii : (allAscii value && allAscii pattern) = true
  · obtain ⟨hvalue, hpattern⟩ := (Bool.and_eq_true _ _).mp hascii
    rw [if_pos hascii, if_pos hascii, likeAscii, ← codePoints_of_allAscii hvalue,
      ← codePoints_of_allAscii hpattern]
    exact likeWalk_spec (sameAscii table) _ _
  · rw [if_neg hascii, if_neg hascii]
    exact likeWalk_spec (sameWeights table) _ _

/-- LIKE divides the value among the tokens of the pattern, but where both are ASCII and a NUL
stands for another character. -/
theorem like_answers_iff (h : AsciiWeights table) {value pattern : Bytes}
    (hnull : isNullText value = false) :
    (∃ answer : Bool, like table value pattern = some answer ∧ (answer ↔
      Matches (sameWeights table) (tokens (codePoints pattern)) (codePoints value))) ↔
    (allAscii value → allAscii pattern →
      NulsApart table (tokens (codePoints pattern)) (codePoints value)) := by
  obtain ⟨answer, hlike, hanswer⟩ := like_spec table pattern hnull
  have hexists : (∃ answer : Bool, like table value pattern = some answer ∧ (answer ↔
      Matches (sameWeights table) (tokens (codePoints pattern)) (codePoints value))) ↔
      (answer ↔
        Matches (sameWeights table) (tokens (codePoints pattern)) (codePoints value)) := by
    simp only [hlike, Option.some.injEq, exists_eq_left']
  rw [hexists, hanswer]
  by_cases hascii : (allAscii value && allAscii pattern) = true
  · obtain ⟨hvalue, hpattern⟩ := (Bool.and_eq_true _ _).mp hascii
    rw [if_pos hascii, imp_iff_right hvalue, imp_iff_right hpattern]
    exact matches_ascii_iff h
      (fun b hb => lt_of_mem_codePoints hpattern b (mem_of_item_mem_tokens hb))
      (lt_of_mem_codePoints hvalue)
  · rw [if_neg hascii]
    refine iff_of_true Iff.rfl fun hvalue hpattern => ?_
    exact absurd (by rw [hvalue, hpattern]; rfl) hascii

variable (h : AsciiWeights table) {value pattern : Bytes}
include h

/-- The walk over the bytes of ASCII texts answers as the walk over code points does, where NULs are
apart. -/
theorem likeAscii_eq_iff (hvalue : allAscii value) (hpattern : allAscii pattern) :
    likeAscii table value pattern =
        likeWalk (sameWeights table) (codePoints value) (codePoints pattern) ↔
      NulsApart table (tokens (codePoints pattern)) (codePoints value) := by
  obtain ⟨fast, hfast, hfast'⟩ :=
    likeWalk_spec (sameAscii table) (codePoints value) (codePoints pattern)
  obtain ⟨slow, hslow, hslow'⟩ :=
    likeWalk_spec (sameWeights table) (codePoints value) (codePoints pattern)
  rw [← matches_ascii_iff h
    (fun b hb => lt_of_mem_codePoints hpattern b (mem_of_item_mem_tokens hb))
    (lt_of_mem_codePoints hvalue), ← hfast', ← hslow', likeAscii, ← codePoints_of_allAscii hvalue,
    ← codePoints_of_allAscii hpattern, hfast, hslow, Option.some.injEq, Bool.eq_iff_iff]

/-- LIKE means what its pattern says, but for ASCII texts in which a NUL has to stand for another
character. -/
theorem likeRight_iff (hnull : isNullText value = false) : LikeRight table value pattern ↔
    (allAscii value → allAscii pattern →
      NulsApart table (tokens (codePoints pattern)) (codePoints value)) :=
  like_answers_iff h hnull

end

/-- `Aéb` and `a%_`. -/
theorem likeRight_letters :
    like controlTable [0x41, 0xC3, 0xA9, 0x62] [0x61, 0x25, 0x5F] = some true ∧
      LikeRight controlTable [0x41, 0xC3, 0xA9, 0x62] [0x61, 0x25, 0x5F] :=
  ⟨by decide +kernel, (likeRight_iff controlTable_asciiWeights rfl).mpr nofun⟩

/-- The byte 1 matches the pattern NUL, which has other weights. -/
theorem not_likeRight_nul : ¬ LikeRight controlTable [0x01] [0x00] := by
  rintro ⟨answer, hlike, hanswer⟩
  have htrue : like controlTable [0x01] [0x00] = some true := by decide
  obtain rfl := Option.some.inj (htrue.symm.trans hlike)
  obtain ⟨c, rest, hvalue, hsame, -⟩ := (Wildcard.matches_single (by decide)).mp (hanswer.mp rfl)
  obtain ⟨rfl, -⟩ := List.cons.inj hvalue
  exact absurd hsame (by decide)

/-- `ab` and `%b`. -/
theorem likeAscii_eq_letters :
    likeAscii controlTable [0x61, 0x62] [0x25, 0x62] =
      likeWalk (sameWeights controlTable) (codePoints [0x61, 0x62]) (codePoints [0x25, 0x62]) := by
  refine (likeAscii_eq_iff controlTable_asciiWeights rfl rfl).mpr fun _ => ?_
  refine Wildcard.matches_any.mpr ⟨[0x61], [0x62], rfl, ?_⟩
  exact (Wildcard.matches_single (by decide)).mpr
    ⟨0x62, [], rfl, by decide, Wildcard.matches_nil.mpr rfl⟩

theorem likeAscii_ne_nul : likeAscii controlTable [0x01] [0x00] ≠
    likeWalk (sameWeights controlTable) (codePoints [0x01]) (codePoints [0x00]) := by
  decide

end RusqlEngine.UnicodeCollation
