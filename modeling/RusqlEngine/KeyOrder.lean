import RusqlEngine.UnicodeCollation
import RusqlEngine.NumericText

/-!
# The order of index keys

A key of an index is a text, or several joined by NUL bytes. The segments are compared one after
the other, each as the kind of its column asks: numbers by value and then by their bytes, texts in
the default collation, and in a column of an unknown kind the empty text first, then the numbers,
then the other texts.
-/

namespace RusqlEngine

open Buffer (Bytes)
open DigitText (IsDigit)

inductive KeyKind where
  | mixed
  | number
  | text
  deriving DecidableEq

namespace KeyOrder

/-- An integer of at most 15 digits in its shortest spelling. -/
def plainUint (s : Bytes) : Bool :=
  if s = [] ∨ 15 < s.length then false
  else if 1 < s.length ∧ s.head? = some 0x30 then false
  else s.all fun c => decide (IsDigit c)

def bytesOrder (a b : Bytes) : Ordering :=
  compare a b

variable (table : UnicodeCollation.Table)

def textOrder (a b : Bytes) : Ordering :=
  UnicodeCollation.compare table a b

def cmpKeySegment (kind : KeyKind) (a b : Bytes) : Ordering :=
  if a = b then .eq
  else if kind = .text then textOrder table a b
  else if plainUint a ∧ plainUint b then
    if a.length ≠ b.length then (if a.length < b.length then .lt else .gt)
    else if bytesOrder a b = .lt then .lt else .gt
  else if kind = .number then (NumericText.compareNumbers a b).then (bytesOrder a b)
  else if a = [] then .lt
  else if b = [] then .gt
  else
    match NumericText.parseNumber a, NumericText.parseNumber b with
    | some x, some y => if x < y then .lt else if y < x then .gt else bytesOrder a b
    | some _, none => .lt
    | none, some _ => .gt
    | none, none => textOrder table a b

def kindOf (kinds : List KeyKind) (segment : ℕ) : KeyKind :=
  kinds.getD (min segment (kinds.length - 1)) .mixed

/-- The segments from `segment` on, one after the other; the shorter key first. -/
def cmpSegments (kinds : List KeyKind) : ℕ → List Bytes → List Bytes → Ordering
  | _, [], [] => .eq
  | _, [], _ :: _ => .lt
  | _, _ :: _, [] => .gt
  | segment, a :: as, b :: bs =>
    (cmpKeySegment table (kindOf kinds segment) a b).then (cmpSegments kinds (segment + 1) as bs)

def segments (key : Bytes) : List Bytes :=
  key.splitOn 0

def cmpKeys (kinds : List KeyKind) (a b : Bytes) : Ordering :=
  if 0 ∉ a ∧ 0 ∉ b then cmpKeySegment table (kindOf kinds 0) a b
  else cmpSegments table kinds 0 (segments a) (segments b)

end KeyOrder

end RusqlEngine
