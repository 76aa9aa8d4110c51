import RusqlEngine.Library.Binary64
import RusqlEngine.Library.DigitText

/-!
# Texts as numbers

Column values are text. What a text is worth: as an integer of 64 bits, as a sign and a magnitude of
64 bits, or as a double, which reads the whole text or the number the text starts with. Two texts
are compared as integers where both are integers, and as doubles otherwise.
-/

namespace RusqlEngine

open DigitText
open Buffer (Byte Bytes)

/-- A finite double in units of `2 ^ -1074`; the two zeros are one. -/
abbrev Double := ℤ

namespace NumericText

def plus : Byte := 0x2B

def minus : Byte := 0x2D

def point : Byte := 0x2E

def dropPlus (s : Bytes) : Bytes :=
  if s.head? = some plus then s.tail else s

def dropMinus (s : Bytes) : Bytes :=
  if s.head? = some minus then s.tail else s

def dropSign (s : Bytes) : Bytes :=
  if s.head? = some plus ∨ s.head? = some minus then s.tail else s

def digitsOf (s : Bytes) : Bytes :=
  s.takeWhile fun b => decide (IsDigit b)

def afterDigits (s : Bytes) : Bytes :=
  s.dropWhile fun b => decide (IsDigit b)

def signedBy (negative : Bool) (magnitude : ℕ) : ℤ :=
  if negative then -(magnitude : ℤ) else magnitude

/-- The digits of a number, and the power of ten of the last of them. -/
structure Decimal where
  digits : Bytes
  exponent : ℤ
  deriving DecidableEq

/-- The magnitude of the nearest double; none out of the range of a double. -/
def Decimal.magnitude (d : Decimal) : Option ℕ :=
  if 0 ≤ d.exponent then Binary64.ofRatio (value d.digits * 10 ^ d.exponent.toNat) 1
  else Binary64.ofRatio (value d.digits) (10 ^ (-d.exponent).toNat)

def scanFraction (s : Bytes) : Bytes × Bytes :=
  if s.head? = some point then (digitsOf s.tail, afterDigits s.tail) else ([], s)

/-- An exponent, if there is one: an `e`, a sign perhaps, and a digit at least. -/
def scanExponent (s : Bytes) : ℤ × Bytes :=
  if (s.head? = some 0x65 ∨ s.head? = some 0x45) ∧ digitsOf (dropSign s.tail) ≠ [] then
    (signedBy (s.tail.head? = some minus) (value (digitsOf (dropSign s.tail))),
      afterDigits (dropSign s.tail))
  else (0, s)

/-- The number without a sign that the text starts with, and what follows it. -/
def scanDecimal (s : Bytes) : Option (Decimal × Bytes) :=
  let fraction := scanFraction (afterDigits s)
  let digits := digitsOf s ++ fraction.1
  if digits = [] then none
  else
    let exponent := scanExponent fraction.2
    some (⟨digits, exponent.1 - fraction.1.length⟩, exponent.2)

/-- `std::from_chars` of a double: none when no number starts the text; otherwise the value, none
when it is out of range, and what follows the number. -/
def fromChars (s : Bytes) : Option (Option Double × Bytes) :=
  (scanDecimal (dropMinus s)).map fun (decimal, rest) =>
    (decimal.magnitude.map (signedBy (s.head? = some minus)), rest)

def numberLength (s : Bytes) : ℕ :=
  match scanDecimal (dropSign s) with
  | none => 0
  | some (_, rest) => s.length - rest.length

def numberValue (number : Bytes) : Double :=
  match fromChars (dropPlus number) with
  | some (some value, _) => value
  | _ => 0

def parseNumber (s : Bytes) : Option Double :=
  if s.head? = some plus ∧ (s.tail.head? = some plus ∨ s.tail.head? = some minus) then none
  else
    match (dropMinus (dropPlus s)).head? with
    | none => none
    | some c =>
      if IsDigit c ∨ c = point then
        match fromChars (dropPlus s) with
        | some (value, []) => value
        | _ => none
      else none

def isSpace (b : Byte) : Bool :=
  b = 0x20 ∨ (0x09 ≤ b ∧ b ≤ 0x0D)

def textToNumber (s : Bytes) : Double :=
  let s := s.dropWhile isSpace
  numberValue (s.take (numberLength s))

/-- `std::from_chars` of an integer without a sign: its value, and what follows it. -/
def fromCharsWhole (s : Bytes) : Option (ℕ × Bytes) :=
  if digitsOf s = [] then none else some (value (digitsOf s), afterDigits s)

def inInt64 (n : ℤ) : Prop :=
  -2 ^ 63 ≤ n ∧ n < 2 ^ 63

instance (n : ℤ) : Decidable (inInt64 n) :=
  inferInstanceAs (Decidable (-2 ^ 63 ≤ n ∧ n < 2 ^ 63))

/-- An integer in the range of `int64`. -/
def int64Of (n : ℤ) : Option ℤ :=
  if inInt64 n then some n else none

def parseInt64Text (s : Bytes) : Option ℤ :=
  match fromCharsWhole (dropMinus (dropPlus s)) with
  | some (magnitude, []) => int64Of (signedBy ((dropPlus s).head? = some minus) magnitude)
  | _ => none

structure SignedMagnitude where
  negative : Bool
  magnitude : ℕ
  deriving DecidableEq

def parseWideIntegerText (s : Bytes) : Option SignedMagnitude :=
  match fromCharsWhole (dropSign s) with
  | some (magnitude, []) =>
    if magnitude < 2 ^ 64 then
      some ⟨s.head? = some minus ∧ magnitude ≠ 0, magnitude⟩
    else none
  | _ => none

/-- The order of two integers given by sign and magnitude. -/
def SignedMagnitude.order (u v : SignedMagnitude) : Ordering :=
  if u.negative ≠ v.negative then (if u.negative then .lt else .gt)
  else if u.negative then (compare u.magnitude v.magnitude).swap
  else compare u.magnitude v.magnitude

def compareNumbers (a b : Bytes) : Ordering :=
  match parseInt64Text a, parseInt64Text b with
  | some x, some y => compare x y
  | _, _ =>
    match parseWideIntegerText a, parseWideIntegerText b with
    | some u, some v => u.order v
    | _, _ => compare (textToNumber a) (textToNumber b)

end NumericText

end RusqlEngine
