import RusqlEngine.LikeExact
import RusqlEngine.RowsJson

/-!
# LIKE with an escape character

`like_pattern_with_escape` rewrites a pattern with any escape character, or with none, into one
whose escape character is the backslash. A pattern that is UTF-8 comes out as the UTF-8 of the
characters that say the same with backslashes.
-/

namespace RusqlEngine.UnicodeCollation

open Wildcard
open Buffer (Byte Bytes)
open RowJson (encodeChar)

def likeUtf8Length (lead : Byte) (rest : Bytes) : ℕ :=
  min (if 0xF0 ≤ lead then 4 else if 0xE0 ≤ lead then 3 else if 0xC0 ≤ lead then 2 else 1)
    (rest.length + 1)

/-- The loop of `like_pattern_with_escape` behind the bytes that it has already read. -/
def rewriteFrom (escape : Bytes) : ℕ → Bytes → Bytes
  | _, [] => []
  | skip + 1, _ :: s => rewriteFrom escape skip s
  | 0, c :: s =>
    let n := likeUtf8Length c s
    let ch := (c :: s).take n
    if !escape.isEmpty && ch = escape then
      match (c :: s).drop n with
      | [] => 0x5C :: ch ++ rewriteFrom escape (n - 1) s
      | d :: t =>
        let m := likeUtf8Length d t
        0x5C :: (d :: t).take m ++ rewriteFrom escape (n + m - 1) s
    else (if ch = [0x5C] then [0x5C] else []) ++ ch ++ rewriteFrom escape (n - 1) s

def likePatternWithEscape (pattern escape : Bytes) : Bytes :=
  rewriteFrom escape 0 pattern

/-- The tokens of a pattern with this escape character, or with none: it makes the character behind
it stand for itself, and stands for itself at the end. -/
def escapeTokens (escape : Option Char) : List Char → List (Wildcard.Token ℕ)
  | [] => []
  | [c] => [if escape = some c then .item c.toNat else plainToken c.toNat]
  | c :: x :: rest =>
    if escape = some c then .item x.toNat :: escapeTokens escape rest
    else plainToken c.toNat :: escapeTokens escape (x :: rest)

/-- The answer for a pattern with an escape character is whether the value can be divided among its
tokens. -/
def LikeEscapeRight (table : Table) (value : Bytes) (pattern : List Char) (escape : Option Char) :
    Prop :=
  ∃ answer : Bool, like table value
      (likePatternWithEscape (pattern.flatMap encodeChar) (escape.toList.flatMap encodeChar)) =
        some answer ∧
    (answer ↔
      Matches (sameWeights table) (escapeTokens escape pattern) (codePoints value))

variable (c : Char)

/-- The bytes of a sequence by its lead byte, and the bits of the code point in that. -/
def leadBits (c : Byte) : ℕ × ℕ :=
  if 0xC2 ≤ c ∧ c ≤ 0xDF then (2, c.val % 0x20)
  else if 0xE0 ≤ c ∧ c ≤ 0xEF then (3, c.val % 0x10)
  else if 0xF0 ≤ c ∧ c ≤ 0xF4 then (4, c.val % 0x08)
  else (1, 0)

theorem leadBits_two : ∀ q : Fin 32, 2 ≤ q.val →
    leadBits (Fin.ofNat 256 (q.val + 192)) = (2, q.val) := by
  decide

theorem leadBits_three : ∀ q : Fin 16, leadBits (Fin.ofNat 256 (q.val + 224)) = (3, q.val) := by
  decide

theorem leadBits_four : ∀ q : Fin 5, leadBits (Fin.ofNat 256 (q.val + 240)) = (4, q.val) := by
  decide

theorem leadBits_ascii (c : Byte) (hc : c < 0x80) : (leadBits c).1 = 1 := by
  have hlead {b d : Byte} (hb : 0x80 ≤ b) : ¬ (b ≤ c ∧ c ≤ d) :=
    fun h => absurd (hb.trans h.1) (not_le.mpr hc)
  rw [leadBits, if_neg (hlead (by decide)), if_neg (hlead (by decide)), if_neg (hlead (by decide))]

theorem decode_ascii {c : Byte} (hc : c < 0x80) (rest : Bytes) : decode c rest = (c.val, 1) := by
  rw [decode]
  exact if_pos hc

theorem not_ascii_of_leadBits (c : Byte) (h : (leadBits c).1 ≠ 1) : ¬ c < 0x80 :=
  mt (leadBits_ascii c) h

def followByte (d : ℕ) : Byte :=
  Fin.ofNat 256 (d % 64 + 128)

theorem followByte_val (d : ℕ) : (followByte d).val = d % 64 + 128 :=
  Nat.mod_eq_of_lt (by omega)

theorem decode_sequence {c : Byte} {lead cp : ℕ} {ds : List ℕ}
    (h : leadBits c = (ds.length + 1, lead)) (hne : ds.length ≠ 0)
    (hcp : ds.foldl (fun cp d => cp * 64 + d % 64) lead = cp)
    (hleast : ds.length = 2 → 0x800 ≤ cp) (hplanes : ds.length = 3 → 0x10000 ≤ cp ∧ cp ≤ 0x10FFFF)
    (rest : Bytes) : decode c (ds.map followByte ++ rest) = (cp, ds.length + 1) := by
  have hc : ¬ c < 0x80 := by
    refine not_ascii_of_leadBits c ?_
    rw [h]
    exact fun hone => hne (Nat.succ_injective hone)
  have htake : (ds.map followByte ++ rest).take (ds.length + 1 - 1) = ds.map followByte := by
    rw [Nat.add_sub_cancel, List.take_left' (List.length_map _)]
  have hfold (cp : ℕ) : (ds.map followByte).foldl (fun cp d => cp * 64 + d.val % 64) cp =
      ds.foldl (fun cp d => cp * 64 + d % 64) cp := by
    rw [List.foldl_map]
    refine congrArg (fun f => ds.foldl f cp) (funext₂ fun cp d => ?_)
    rw [followByte_val]
    omega
  have hwhole : ¬ (ds.length + 1 = 1 ∨ (ds.map followByte ++ rest).length + 1 < ds.length + 1 ∨
      ∃ d ∈ ds.map followByte, d.val / 64 ≠ 2) := by
    rintro (hone | hshort | ⟨_, hd, htail⟩)
    · exact hne (Nat.succ_injective hone)
    · rw [List.length_append, List.length_map] at hshort
      omega
    · obtain ⟨d, -, rfl⟩ := List.mem_map.mp hd
      rw [followByte_val] at htail
      omega
  have hfit : ¬ (ds.length + 1 = 3 ∧ cp < 0x800 ∨
      ds.length + 1 = 4 ∧ (cp < 0x10000 ∨ 0x10FFFF < cp)) := by
    omega
  rw [leadBits] at h
  rw [decode, h]
  dsimp only
  rw [htake, hfold, hcp, if_neg hc, if_neg hwhole, if_neg hfit]

theorem lengthByLead (lead : Byte) (h : lead < 0x80 ∨ (leadBits lead).1 ≠ 1) :
    (if 0xF0 ≤ lead then 4 else if 0xE0 ≤ lead then 3 else if 0xC0 ≤ lead then 2 else 1) =
      (leadBits lead).1 := by
  rw [leadBits] at h ⊢
  grind

theorem likeUtf8Length_follow {lead : Byte} {follow : Bytes}
    (hlead : lead < 0x80 ∨ (leadBits lead).1 ≠ 1) (hlength : (leadBits lead).1 = follow.length + 1)
    (rest : Bytes) : likeUtf8Length lead (follow ++ rest) = follow.length + 1 := by
  rw [likeUtf8Length, lengthByLead lead hlead, hlength, List.length_append]
  omega

theorem decode_encodeChar : ∃ lead follow, encodeChar c = lead :: follow ∧
    (∀ rest, decode lead (follow ++ rest) = (c.toNat, follow.length + 1)) ∧
    ∀ rest, likeUtf8Length lead (follow ++ rest) = follow.length + 1 := by
  have hvalid : c.val.toNat < 0xD800 ∨ 0xDFFF < c.val.toNat ∧ c.val.toNat < 0x110000 := c.valid
  rw [encodeChar, String.utf8EncodeChar]
  change ∃ lead follow, _ ∧ (∀ rest, _ = (c.val.toNat, _)) ∧ _
  generalize c.val.toNat = v at hvalid
  have hsequence (ds : List ℕ) {c : Byte} {lead : ℕ} (h : leadBits c = (ds.length + 1, lead))
      (hne : ds.length ≠ 0) (hcp : ds.foldl (fun cp d => cp * 64 + d % 64) lead = v)
      (hleast : ds.length = 2 → 0x800 ≤ v) (hplanes : ds.length = 3 → 0x10000 ≤ v ∧ v ≤ 0x10FFFF) :
      ∃ lead follow, c :: ds.map followByte = lead :: follow ∧
        (∀ rest, decode lead (follow ++ rest) = (v, follow.length + 1)) ∧
        ∀ rest, likeUtf8Length lead (follow ++ rest) = follow.length + 1 := by
    refine ⟨c, ds.map followByte, rfl, fun rest => ?_, fun rest => ?_⟩
    · rw [List.length_map]
      exact decode_sequence h hne hcp hleast hplanes rest
    · refine likeUtf8Length_follow (.inr ?_) (by rw [h, List.length_map]) rest
      rw [h]
      exact fun hone => hne (Nat.succ_injective hone)
  split_ifs with h1 h2 h3
  · have hval : (Fin.ofNat 256 v : Byte).val = v := Nat.mod_eq_of_lt (by omega)
    have hascii : (Fin.ofNat 256 v : Byte) < 0x80 := by
      rw [Fin.lt_def, hval]
      exact Nat.lt_succ_of_le h1
    refine ⟨Fin.ofNat 256 v, [], rfl, fun rest => ?_, fun rest => ?_⟩
    · rw [List.nil_append, decode_ascii hascii, hval]
      rfl
    · exact @likeUtf8Length_follow _ [] (.inl hascii) (leadBits_ascii _ hascii) rest
  · have hlow : 2 ≤ v / 64 % 32 := by omega
    exact hsequence [v] (leadBits_two ⟨v / 64 % 32, Nat.mod_lt _ (by decide)⟩ hlow)
      (by simp) (by simp; omega) (by simp) (by simp)
  · exact hsequence [v / 64, v]
      (leadBits_three ⟨v / 4096 % 16, Nat.mod_lt _ (by decide)⟩)
      (by simp) (by simp; omega) (by simp; omega) (by simp)
  · have hsmall : v / 262144 % 8 < 5 := by omega
    exact hsequence [v / 4096, v / 64, v] (leadBits_four ⟨v / 262144 % 8, hsmall⟩)
      (by simp) (by simp; omega) (by simp) (by simp; omega)

theorem encodeChar_injective {c d : Char} (h : encodeChar c = encodeChar d) : c = d := by
  obtain ⟨lead, follow, hc, hdecode, -⟩ := decode_encodeChar c
  obtain ⟨lead', follow', hd, hdecode', -⟩ := decode_encodeChar d
  rw [hc, hd] at h
  obtain ⟨rfl, rfl⟩ := List.cons.inj h
  exact Char.toNat_inj.mp (Prod.mk.inj ((hdecode []).symm.trans (hdecode' []))).1

theorem codePointsFrom_skip (s : Bytes) : ∀ follow : Bytes,
    codePointsFrom follow.length (follow ++ s) = codePoints s
  | [] => rfl
  | _ :: follow => codePointsFrom_skip s follow

theorem codePoints_encodeChar (s : Bytes) :
    codePoints (encodeChar c ++ s) = c.toNat :: codePoints s := by
  obtain ⟨lead, follow, hc, hdecode, -⟩ := decode_encodeChar c
  rw [hc, List.cons_append, codePoints, codePointsFrom, hdecode, Nat.add_sub_cancel,
    codePointsFrom_skip]

theorem codePoints_flatMap (chars : List Char) :
    codePoints (chars.flatMap encodeChar) = chars.map Char.toNat := by
  induction chars with
  | nil => rfl
  | cons c chars ih => rw [List.flatMap_cons, codePoints_encodeChar, ih, List.map_cons]

section

/-- The pattern that says with backslashes what the pattern says with its escape character. -/
def backslashed (escape : Option Char) : List Char → List Char
  | [] => []
  | [c] => if escape = some c then ['\\', c] else (if c = '\\' then ['\\'] else []) ++ [c]
  | c :: x :: rest =>
    if escape = some c then '\\' :: x :: backslashed escape rest
    else (if c = '\\' then ['\\'] else []) ++ c :: backslashed escape (x :: rest)

theorem rewriteFrom_skip (escape s : Bytes) : ∀ follow : Bytes,
    rewriteFrom escape follow.length (follow ++ s) = rewriteFrom escape 0 s
  | [] => rfl
  | _ :: follow => rewriteFrom_skip escape s follow

theorem isEscape_eq (escape : Option Char) (c : Char) :
    (!(escape.toList.flatMap encodeChar).isEmpty &&
      decide (encodeChar c = escape.toList.flatMap encodeChar)) = decide (escape = some c) := by
  cases escape with
  | none => rfl
  | some e =>
    obtain ⟨lead, follow, he, -⟩ := decode_encodeChar e
    have hsingle : (some e).toList.flatMap encodeChar = encodeChar e := List.append_nil _
    have hnonempty : (encodeChar e).isEmpty = false := by rw [he]; rfl
    rw [hsingle, hnonempty, Bool.not_false, Bool.true_and, decide_eq_decide, Option.some.injEq]
    exact ⟨fun h => (encodeChar_injective h).symm, fun h => h ▸ rfl⟩

theorem encodeChar_backslash_iff : encodeChar c = [0x5C] ↔ c = '\\' := by
  have hbackslash : encodeChar '\\' = [0x5C] := by decide
  rw [← hbackslash]
  exact ⟨encodeChar_injective, fun h => h ▸ rfl⟩

variable {escape : Option Char}

theorem rewriteFrom_plain {c : Char} (hc : escape ≠ some c) (s : Bytes) :
    rewriteFrom (escape.toList.flatMap encodeChar) 0 (encodeChar c ++ s) =
      (if c = '\\' then [0x5C] else []) ++ encodeChar c ++
        rewriteFrom (escape.toList.flatMap encodeChar) 0 s := by
  obtain ⟨lead, follow, henc, -, hlength⟩ := decode_encodeChar c
  have hescape := isEscape_eq escape c
  have hbackslash := encodeChar_backslash_iff c
  rw [henc] at hescape hbackslash ⊢
  rw [List.cons_append, rewriteFrom, hlength, List.take_succ_cons, List.take_left, hescape,
    decide_eq_false hc, if_neg Bool.false_ne_true, Nat.add_sub_cancel, rewriteFrom_skip]
  simp only [hbackslash]

theorem rewriteFrom_escape_last {c : Char} (hc : escape = some c) :
    rewriteFrom (escape.toList.flatMap encodeChar) 0 (encodeChar c) = 0x5C :: encodeChar c := by
  obtain ⟨lead, follow, henc, -, hlength⟩ := decode_encodeChar c
  have hescape := isEscape_eq escape c
  have hlength := hlength []
  have hskip := rewriteFrom_skip (escape.toList.flatMap encodeChar) [] follow
  rw [List.append_nil] at hlength hskip
  rw [henc] at hescape ⊢
  rw [rewriteFrom, hlength, List.take_succ_cons, List.take_length, hescape, decide_eq_true hc,
    if_pos rfl, List.drop_succ_cons, List.drop_length, Nat.add_sub_cancel, hskip]
  exact List.append_nil _

theorem rewriteFrom_escape {c x : Char} (hc : escape = some c) (s : Bytes) :
    rewriteFrom (escape.toList.flatMap encodeChar) 0 (encodeChar c ++ (encodeChar x ++ s)) =
      0x5C :: encodeChar x ++ rewriteFrom (escape.toList.flatMap encodeChar) 0 s := by
  obtain ⟨lead, follow, henc, -, hlength⟩ := decode_encodeChar c
  obtain ⟨lead', follow', henc', -, hlength'⟩ := decode_encodeChar x
  have hescape := isEscape_eq escape c
  have hskip := rewriteFrom_skip (escape.toList.flatMap encodeChar) s (follow ++ lead' :: follow')
  rw [List.append_assoc, List.length_append, List.length_cons] at hskip
  rw [henc] at hescape ⊢
  rw [henc', List.cons_append, rewriteFrom, hlength, List.take_succ_cons, List.take_left, hescape,
    decide_eq_true hc, if_pos rfl, List.drop_succ_cons, List.drop_left]
  dsimp only [List.cons_append]
  rw [hlength', List.take_succ_cons, List.take_left]
  have hcount : follow.length + 1 + (follow'.length + 1) - 1 =
      follow.length + (follow'.length + 1) := by
    omega
  rw [hcount]
  exact congrArg (fun rest => 0x5C :: lead' :: (follow' ++ rest)) hskip

theorem flatMap_backslash (s : Bytes) :
    ((if c = '\\' then ['\\'] else []) : List Char).flatMap encodeChar ++ s =
      (if c = '\\' then [0x5C] else []) ++ s := by
  by_cases hc : c = '\\'
  · rw [if_pos hc, if_pos hc]
    rfl
  · rw [if_neg hc, if_neg hc]
    rfl

/-- A pattern of UTF-8 is rewritten into one of UTF-8. -/
theorem likePatternWithEscape_eq : ∀ pattern : List Char,
    likePatternWithEscape (pattern.flatMap encodeChar) (escape.toList.flatMap encodeChar) =
      (backslashed escape pattern).flatMap encodeChar
  | [] => rfl
  | [c] => by
      rw [likePatternWithEscape, List.flatMap_singleton, backslashed]
      by_cases hc : escape = some c
      · rw [rewriteFrom_escape_last hc, if_pos hc]
        exact congrArg (0x5C :: ·) (List.append_nil _).symm
      · have hplain := rewriteFrom_plain hc []
        rw [List.append_nil, rewriteFrom, List.append_nil] at hplain
        rw [hplain, if_neg hc, List.flatMap_append, flatMap_backslash, List.flatMap_singleton]
  | c :: x :: rest => by
      have ih := likePatternWithEscape_eq (x :: rest)
      have ih' := likePatternWithEscape_eq rest
      rw [likePatternWithEscape] at ih ih' ⊢
      rw [backslashed]
      by_cases hc : escape = some c
      · rw [List.flatMap_cons, List.flatMap_cons, rewriteFrom_escape hc, ih', if_pos hc]
        rfl
      · rw [List.flatMap_cons, rewriteFrom_plain hc, ih, if_neg hc, List.flatMap_append,
          flatMap_backslash, List.flatMap_cons, List.append_assoc]

theorem tokens_backslash (x : Char) (rest : List Char) :
    tokens (('\\' :: x :: rest).map Char.toNat) = .item x.toNat :: tokens (rest.map Char.toNat) :=
  tokens_escaped rfl

theorem tokens_plain (rest : List Char) :
    tokens (((if c = '\\' then ['\\'] else []) ++ c :: rest).map Char.toNat) =
      plainToken c.toNat :: tokens (rest.map Char.toNat) := by
  by_cases hc : c = '\\'
  · subst hc
    rw [if_pos rfl, List.singleton_append, tokens_backslash]
    rfl
  · have hne : c.toNat ≠ backslash := fun h => hc (Char.toNat_inj.mp h)
    rw [if_neg hc, List.nil_append, List.map_cons]
    refine tokens_cons ?_
    cases rest with
    | nil => rfl
    | cons x rest => rw [List.map_cons, escaped, if_neg hne]

/-- The rewritten pattern has the tokens of the pattern with its escape character. -/
theorem tokens_backslashed : ∀ pattern : List Char,
    tokens ((backslashed escape pattern).map Char.toNat) = escapeTokens escape pattern
  | [] => rfl
  | [c] => by
      rw [backslashed, escapeTokens]
      by_cases hc : escape = some c
      · rw [if_pos hc, if_pos hc, tokens_backslash]
        rfl
      · rw [if_neg hc, if_neg hc, tokens_plain]
        rfl
  | c :: x :: rest => by
      rw [backslashed, escapeTokens]
      by_cases hc : escape = some c
      · rw [if_pos hc, if_pos hc, tokens_backslash, tokens_backslashed rest]
      · rw [if_neg hc, if_neg hc, tokens_plain, tokens_backslashed (x :: rest)]

theorem tokens_likePatternWithEscape (escape : Option Char) (pattern : List Char) :
    tokens (codePoints (likePatternWithEscape (pattern.flatMap encodeChar)
      (escape.toList.flatMap encodeChar))) = escapeTokens escape pattern := by
  rw [likePatternWithEscape_eq, codePoints_flatMap, tokens_backslashed]

theorem allAscii_encodeChar : allAscii (encodeChar c) ↔ c.toNat < 0x80 := by
  constructor
  · intro h
    obtain ⟨lead, follow, hc, hdecode, -⟩ := decode_encodeChar c
    rw [hc, allAscii, List.all_cons, Bool.and_eq_true, decide_eq_true_iff] at h
    have hval := (Prod.mk.inj ((hdecode []).symm.trans (decode_ascii h.1 _))).1
    rw [hval]
    exact h.1
  · intro h
    have hsmall : c.val.toNat ≤ 0x7F := Nat.le_of_lt_succ h
    rw [encodeChar, String.utf8EncodeChar, if_pos hsmall, allAscii, List.map_singleton,
      List.all_cons, List.all_nil, Bool.and_true, decide_eq_true_iff]
    change c.val.toNat % 256 < 128
    omega

theorem allAscii_flatMap (chars : List Char) :
    allAscii (chars.flatMap encodeChar) ↔ ∀ c ∈ chars, c.toNat < 0x80 := by
  induction chars with
  | nil => exact iff_of_true rfl (List.forall_mem_nil _)
  | cons c chars ih =>
    rw [List.flatMap_cons, List.forall_mem_cons, ← ih, ← allAscii_encodeChar, allAscii, allAscii,
      allAscii, List.all_append, Bool.and_eq_true]

def AsciiItems (tokens : List (Wildcard.Token ℕ)) : Prop :=
  ∀ b, .item b ∈ tokens → b < 0x80

theorem asciiItems_item (b : ℕ) (ts : List (Wildcard.Token ℕ)) :
    AsciiItems (.item b :: ts) ↔ b < 0x80 ∧ AsciiItems ts := by
  simp only [AsciiItems, List.mem_cons, Token.item.injEq, or_imp, forall_and, forall_eq]

theorem asciiItems_plain (b : ℕ) (ts : List (Wildcard.Token ℕ)) :
    AsciiItems (plainToken b :: ts) ↔ b < 0x80 ∧ AsciiItems ts := by
  rw [plainToken]
  split
  next hb => simp [AsciiItems, hb, percent]
  next =>
    split
    next hb => simp [AsciiItems, hb, underscore]
    next => exact asciiItems_item b ts

theorem asciiItems_nil : AsciiItems [] :=
  nofun

theorem forall_ascii_plain (rest : List Char) :
    (∀ d ∈ (if c = '\\' then ['\\'] else []) ++ c :: rest, d.toNat < 0x80) ↔
      c.toNat < 0x80 ∧ ∀ d ∈ rest, d.toNat < 0x80 := by
  by_cases hc : c = '\\'
  · subst hc
    rw [if_pos rfl, List.singleton_append, List.forall_mem_cons, List.forall_mem_cons]
    exact and_iff_right (by decide)
  · rw [if_neg hc, List.nil_append, List.forall_mem_cons]

/-- The rewritten pattern is ASCII where the characters that stand for themselves are. -/
theorem forall_ascii_backslashed : ∀ pattern : List Char,
    (∀ c ∈ backslashed escape pattern, c.toNat < 0x80) ↔ AsciiItems (escapeTokens escape pattern)
  | [] => iff_of_true (List.forall_mem_nil _) asciiItems_nil
  | [c] => by
      rw [backslashed, escapeTokens]
      by_cases hc : escape = some c
      · rw [if_pos hc, if_pos hc, List.forall_mem_cons, List.forall_mem_singleton, asciiItems_item,
          and_iff_left asciiItems_nil]
        exact and_iff_right (by decide)
      · rw [if_neg hc, if_neg hc, forall_ascii_plain, asciiItems_plain,
          and_iff_left asciiItems_nil, and_iff_left (List.forall_mem_nil _)]
  | c :: x :: rest => by
      rw [backslashed, escapeTokens]
      by_cases hc : escape = some c
      · rw [if_pos hc, if_pos hc, List.forall_mem_cons, List.forall_mem_cons, asciiItems_item,
          forall_ascii_backslashed rest]
        exact and_iff_right (by decide)
      · rw [if_neg hc, if_neg hc, forall_ascii_plain, asciiItems_plain,
          forall_ascii_backslashed (x :: rest)]

end

section

variable {table : Table} {value : Bytes} {pattern : List Char} {escape : Option Char}

/-- LIKE with an escape character means what its pattern says, but for ASCII texts in which a NUL
has to stand for another character. -/
theorem likeEscapeRight_iff (h : AsciiWeights table) (hnull : isNullText value = false) :
    LikeEscapeRight table value pattern escape ↔
      (allAscii value → AsciiItems (escapeTokens escape pattern) →
        NulsApart table (escapeTokens escape pattern) (codePoints value)) := by
  rw [LikeEscapeRight, ← forall_ascii_backslashed, ← allAscii_flatMap, ← likePatternWithEscape_eq,
    ← tokens_likePatternWithEscape escape pattern]
  exact like_answers_iff h hnull

/-- `é%b` and the pattern `_!%%`, with `!` as the escape character. -/
theorem likeEscapeRight_letters :
    like controlTable [0xC3, 0xA9, 0x25, 0x62]
        (likePatternWithEscape (['_', '!', '%', '%'].flatMap encodeChar)
          ((some '!').toList.flatMap encodeChar)) = some true ∧
      LikeEscapeRight controlTable [0xC3, 0xA9, 0x25, 0x62] ['_', '!', '%', '%'] (some '!') :=
  ⟨by decide +kernel, (likeEscapeRight_iff controlTable_asciiWeights rfl).mpr nofun⟩

/-- The byte 1 matches the pattern NUL, which has other weights. -/
theorem not_likeEscapeRight_nul : ¬ LikeEscapeRight controlTable [0x01] ['\x00'] none := by
  rintro ⟨answer, hlike, hanswer⟩
  have htrue : like controlTable [0x01] (likePatternWithEscape (['\x00'].flatMap encodeChar)
      ((none : Option Char).toList.flatMap encodeChar)) = some true := by
    decide
  obtain rfl := Option.some.inj (htrue.symm.trans hlike)
  obtain ⟨c, rest, hvalue, hsame, -⟩ := (Wildcard.matches_single (by decide)).mp (hanswer.mp rfl)
  obtain ⟨rfl, -⟩ := List.cons.inj hvalue
  exact absurd hsame (by decide)

end

end RusqlEngine.UnicodeCollation
