import RusqlEngine.Library.Buffer
import Mathlib.Order.Fin.Basic

/-!
# The default collation

The order of texts in `utf8mb4_0900_ai_ci`. A text is read as code points, each of which has a list
of weights in the table of the Unicode collation; two texts are compared by their weights, one after
the other. The text that stands for NULL is before all others. The key of a text is the text that
all texts equal to it have for a key.
-/

namespace RusqlEngine.UnicodeCollation

open Buffer (Byte Bytes)

abbrev Weight := Fin 65536

/-- Code points in a row and the place of their weights in the pool. With `kind` 1 the last weight
goes up by one each time. -/
structure Run where
  start : ℕ
  count : ℕ
  kind : ℕ
  n : ℕ
  pool : ℕ

/-- The generated data: the runs, by their start, and the pool of weights. -/
structure Table where
  kRuns : List Run
  kPool : List Weight

def isNullText (s : Bytes) : Bool :=
  s = [0x4E, 0x55, 0x4C, 0x4C]

def raiseLast (weights : List Weight) (offset : ℕ) : List Weight :=
  weights.dropLast ++ weights.getLast?.toList.map fun w => w + Fin.ofNat 65536 offset

namespace Table

variable (table : Table)

/-- The weights of a code point that has a run. -/
def fromRuns (cp : ℕ) : Option (List Weight) :=
  match (table.kRuns.takeWhile fun run => run.start ≤ cp).getLast? with
  | none => none
  | some run =>
    if run.start + run.count ≤ cp then none
    else
      let weights := (table.kPool.drop run.pool).take run.n
      some (if run.kind = 1 then raiseLast weights (cp - run.start) else weights)

end Table

/-- An ideograph or a code point nobody has assigned: two weights, the first by its block. -/
def implicitWeights (cp : ℕ) : List Weight :=
  let base :=
    if (0x4E00 ≤ cp ∧ cp ≤ 0x9FFF) ∨ cp = 0xFA0E ∨ cp = 0xFA0F ∨ cp = 0xFA11 ∨ cp = 0xFA13 ∨
        cp = 0xFA14 ∨ cp = 0xFA1F ∨ cp = 0xFA21 ∨ cp = 0xFA23 ∨ cp = 0xFA24 ∨ cp = 0xFA27 ∨
        cp = 0xFA28 ∨ cp = 0xFA29 then 0xFB40
    else if (0x3400 ≤ cp ∧ cp ≤ 0x4DBF) ∨ (0x20000 ≤ cp ∧ cp ≤ 0x2A6DF) ∨
        (0x2A700 ≤ cp ∧ cp ≤ 0x2EBEF) then 0xFB80
    else 0xFBC0
  [Fin.ofNat 65536 (base + cp / 0x8000), Fin.ofNat 65536 (cp % 0x8000 + 0x8000)]

namespace Table

variable (table : Table)

/-- The weights of a code point; a Hangul syllable weighs what its jamo weigh. -/
def weightsOf (cp : ℕ) : List Weight :=
  match table.fromRuns cp with
  | some weights => weights
  | none =>
    if 0xAC00 ≤ cp ∧ cp ≤ 0xD7A3 then
      let s := cp - 0xAC00
      let jamo := [0x1100 + s / 588, 0x1161 + s % 588 / 28, 0x11A7 + s % 28]
      (jamo.take (if s % 28 = 0 then 2 else 3)).flatMap fun j => (table.fromRuns j).getD []
    else implicitWeights cp

def asciiWeights (c : Byte) : List Weight :=
  if c = 0 then [] else (table.weightsOf c.val).take 1

end Table

/-- The code point at the start of a text that is not empty, and the number of its bytes. A byte
that is not part of a well-formed sequence counts as U+FFFD. -/
def decode (c : Byte) (rest : Bytes) : ℕ × ℕ :=
  let (len, lead) :=
    if 0xC2 ≤ c ∧ c ≤ 0xDF then (2, c.val % 0x20)
    else if 0xE0 ≤ c ∧ c ≤ 0xEF then (3, c.val % 0x10)
    else if 0xF0 ≤ c ∧ c ≤ 0xF4 then (4, c.val % 0x08)
    else (1, 0)
  let follow := rest.take (len - 1)
  let cp := follow.foldl (fun cp d => cp * 64 + d.val % 64) lead
  if c < 0x80 then (c.val, 1)
  else if len = 1 ∨ rest.length + 1 < len ∨ ∃ d ∈ follow, d.val / 64 ≠ 2 then (0xFFFD, 1)
  else if (len = 3 ∧ cp < 0x800) ∨ (len = 4 ∧ (cp < 0x10000 ∨ 0x10FFFF < cp)) then (0xFFFD, 1)
  else (cp, len)

namespace Table

variable (table : Table)

/-- The weights of a text behind the bytes that belong to a code point already read. -/
def cursor : ℕ → Bytes → List Weight
  | _, [] => []
  | skip + 1, _ :: s => cursor skip s
  | 0, c :: s =>
    if c < 0x80 then table.asciiWeights c ++ cursor 0 s
    else table.weightsOf (decode c s).1 ++ cursor ((decode c s).2 - 1) s

def weights (s : Bytes) : List Weight :=
  table.cursor 0 s

end Table

def compareWeights : List Weight → List Weight → Ordering
  | [], [] => .eq
  | [], _ :: _ => .lt
  | _ :: _, [] => .gt
  | a :: as, b :: bs => if a ≠ b then (if a < b then .lt else .gt) else compareWeights as bs

variable (table : Table)

def compare (a b : Bytes) : Ordering :=
  if isNullText a ∨ isNullText b then
    if isNullText a then (if isNullText b then .eq else .lt) else .gt
  else compareWeights (table.weights a) (table.weights b)

def orderedBy (s : Bytes) : Option (List Weight) :=
  if isNullText s then none else some (table.weights s)

theorem compareWeights_eq : ∀ as bs : List Weight, compareWeights as bs = Ord.compare as bs
  | [], [] => rfl
  | [], _ :: _ => rfl
  | _ :: _, [] => rfl
  | a :: as, b :: bs => by
      rw [compareWeights, List.compare_cons_cons, compareWeights_eq as bs]
      change _ = (Ord.compare a.val b.val).then _
      rcases lt_trichotomy a b with h | rfl | h
      · rw [if_pos h.ne, if_pos h, Nat.compare_eq_lt.mpr h, Ordering.lt_then]
      · rw [if_neg (fun h => h rfl), Nat.compare_eq_eq.mpr rfl, Ordering.eq_then]
      · rw [if_pos h.ne', if_neg (lt_asymm h), Nat.compare_eq_gt.mpr h, Ordering.gt_then]

theorem compare_eq (a b : Bytes) :
    compare table a b = Ord.compare (orderedBy table a) (orderedBy table b) := by
  rw [compare, orderedBy, orderedBy, compareWeights_eq]
  cases isNullText a <;> cases isNullText b <;> rfl

instance : Std.TransCmp (compare table) where
  eq_swap {a b} := by
    rw [compare_eq, compare_eq]
    exact Std.OrientedOrd.eq_swap
  isLE_trans {a b c} hab hbc := by
    rw [compare_eq] at *
    exact Std.TransOrd.isLE_trans hab hbc

theorem compare_eq_eq {a b : Bytes} :
    compare table a b = .eq ↔ orderedBy table a = orderedBy table b := by
  rw [compare_eq]
  exact Std.LawfulEqCmp.compare_eq_iff_eq

def equal (a b : Bytes) : Bool :=
  a = b ∨ compare table a b = .eq

def printable (c : Byte) : Bool :=
  0x20 ≤ c ∧ c ≤ 0x7E

def isUpper (c : Byte) : Bool :=
  0x41 ≤ c ∧ c ≤ 0x5A

def lowerCase (c : Byte) : Byte :=
  if isUpper c then c + 0x20 else c

def asciiCharacters : List Byte :=
  (List.finRange 256).filter fun c => printable c && !isUpper c

def asciiOfWeight (w : Weight) : Option Byte :=
  asciiCharacters.find? fun c => (table.asciiWeights c).headD 0 = w

def weightBytes (w : Weight) : Bytes :=
  [Fin.ofNat 256 (w.val / 256), Fin.ofNat 256 w.val]

def sortKey (s : Bytes) : Bytes :=
  (table.weights s).flatMap weightBytes

def key (s : Bytes) : Bytes :=
  if isNullText s then [0x02, 0x4E]
  else if s.all printable then s.map lowerCase
  else
    match (table.weights s).mapM (asciiOfWeight table) with
    | some plain => plain
    | none => 0x01 :: (table.weights s).flatMap weightBytes

end RusqlEngine.UnicodeCollation
