import RusqlEngine.Num
import RusqlEngine.NumericText
import Mathlib.Data.List.DropRight

/-!
# Decimals by their digits

A `Decimal` is a sign and the digits before and behind the point. It is read from a text with an
exponent perhaps, whose digits move over the point one by one, it is rounded on its digits, and it
is written with a number of places or without the zeros at the end.
-/

namespace RusqlEngine.SqlVal

open Buffer (Byte Bytes)
open DigitText (IsDigit)
open NumericText (afterDigits digitsOf dropSign int64Of minus point scanFraction signedBy)

structure Decimal where
  negative : Bool
  integer : Bytes
  fraction : Bytes
deriving DecidableEq

namespace Decimal

def blank : Byte := 0x20

def dropBlanks (s : Bytes) : Bytes :=
  s.dropWhile (· = blank)

/-- The loop over the digits of an exponent; from a thousand on no digit is read. -/
def exponentLoop : ℕ → Bytes → ℕ × Bytes
  | e, [] => (e, [])
  | e, c :: rest =>
    if IsDigit c ∧ e < 1000 then exponentLoop (e * 10 + digit c) rest else (e, c :: rest)

/-- An exponent, if there is one, and what follows. -/
def scanPower (s : Bytes) : ℤ × Bytes :=
  if (s.head? = some 0x65 ∨ s.head? = some 0x45) ∧ digitsOf (dropSign s.tail) ≠ [] then
    let e := exponentLoop 0 (dropSign s.tail)
    (signedBy (s.tail.head? = some minus) e.1, e.2)
  else (0, s)

def digitUp (parts : Bytes × Bytes) : Bytes × Bytes :=
  (parts.1 ++ [parts.2.headD 0x30], parts.2.tail)

def digitDown (parts : Bytes × Bytes) : Bytes × Bytes :=
  (parts.1.dropLast, parts.1.getLastD 0x30 :: parts.2)

def shifted (exponent : ℤ) (parts : Bytes × Bytes) : Bytes × Bytes :=
  if 0 < exponent then digitUp^[exponent.toNat] parts else digitDown^[(-exponent).toNat] parts

def parse (text : Bytes) : Option Decimal :=
  let s := dropBlanks text
  let fraction := scanFraction (afterDigits (dropSign s))
  if digitsOf (dropSign s) = [] ∧ fraction.1 = [] then none
  else
    let power := scanPower fraction.2
    if dropBlanks power.2 = [] then
      let parts := shifted power.1 (digitsOf (dropSign s), fraction.1)
      some ⟨s.head? = some minus, stripZeros parts.1, parts.2⟩
    else none

def isZero (d : Decimal) : Bool :=
  d.integer = zeroDigits ∧ ∀ b ∈ d.fraction, b = 0x30

/-- `std::string::resize` with zeros. -/
def resize (s : Bytes) (size : ℕ) : Bytes :=
  s.take size ++ List.replicate (size - s.length) 0x30

def front (d : Decimal) : Bytes :=
  (if d.negative && !d.isZero then [minus] else []) ++ d.integer

def str (d : Decimal) (scale : ℕ) : Bytes :=
  d.front ++ if 0 < scale then point :: resize d.fraction scale else []

def compact (d : Decimal) : Bytes :=
  let f := d.fraction.rdropWhile (· = 0x30)
  d.front ++ if f ≠ [] then point :: f else []

/-- The loop of `add_unit`, over the digits from their end. -/
def increment : Bytes → Bytes
  | [] => [0x31]
  | c :: rest => if c = 0x39 then 0x30 :: increment rest else (c + 1) :: rest

def addUnit (d : Decimal) (places : ℕ) : Decimal :=
  let digits := (increment (d.integer ++ d.fraction.take places).reverse).reverse
  let integer := digits.take (digits.length - places)
  { d with
    integer := if integer = [] then zeroDigits else integer
    fraction := digits.drop (digits.length - places) }

/-- Rounding behind the point. -/
def roundedBehind (d : Decimal) (places : ℕ) (cut : Bool) : Decimal :=
  if d.fraction.length ≤ places then d
  else
    let up := !cut && decide (0x35 ≤ d.fraction.getD places 0)
    let r := { d with fraction := resize d.fraction places }
    if up then r.addUnit places else r

/-- Rounding before the point. -/
def roundedBefore (d : Decimal) (drop : ℕ) (cut : Bool) : Decimal :=
  if d.integer.length < drop then ⟨d.negative, zeroDigits, []⟩
  else
    let kept := d.integer.take (d.integer.length - drop)
    let up := !cut && decide (0x35 ≤ d.integer.getD (d.integer.length - drop) 0)
    let out : Decimal := ⟨d.negative, if kept = [] then zeroDigits else kept, []⟩
    let out := if up then out.addUnit 0 else out
    let integer := out.integer ++ List.replicate drop 0x30
    { out with integer := if ∀ b ∈ integer, b = 0x30 then zeroDigits else integer }

/-- `rounded`, for 64-bit places; none where their negation overflows. -/
def rounded (d : Decimal) (places : ℤ) (cut : Bool) : Option Decimal :=
  if 0 ≤ places then some (d.roundedBehind places.toNat cut)
  else (int64Of (-places)).map fun drop => d.roundedBefore drop.toNat cut

end Decimal

def castInt (size : ℕ) : ℤ :=
  let low : ℤ := size % 4294967296
  if low ≤ intMax then low else low - 4294967296

namespace Num

def fromDecimal (d : Decimal) : Num :=
  let digits := stripZeros (d.integer ++ d.fraction)
  ⟨d.negative && digits ≠ zeroDigits, digits, castInt d.fraction.length⟩

/-- `Num::to_decimal`; none where a text is to be longer than texts are, or is cut behind its
end. -/
def toDecimal (n : Num) : Option Decimal :=
  if n.scale < 0 ∨ castInt n.digits.length ≤ n.scale ∧ n.scale + 1 < n.digits.length then none
  else
    let all :=
      if castInt n.digits.length ≤ n.scale then
        List.replicate (n.scale - n.digits.length + 1).toNat 0x30 ++ n.digits
      else n.digits
    let point := all.length - n.scale.toNat
    some ⟨n.negative && !n.isZero, all.take point, all.drop point⟩

end Num

end RusqlEngine.SqlVal
