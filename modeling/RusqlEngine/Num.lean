import RusqlEngine.Library.Numeral
import RusqlEngine.Library.Loop

/-!
# Exact decimal arithmetic

A `Num` is a sign, a text of digits and a scale: the digits divided by a power of ten. Its
operations work on the digits as one does on paper. The scales are ints, and an operation whose int
arithmetic overflows has no result here.
-/

namespace RusqlEngine.SqlVal

open Buffer (Byte Bytes)
open DigitText (digitByte)

def intMin : ℤ := -2147483648

def intMax : ℤ := 2147483647

def toInt (v : ℤ) : Option ℤ :=
  if intMin ≤ v ∧ v ≤ intMax then some v else none

/-- The text `0`. -/
def zeroDigits : Bytes := [0x30]

structure Num where
  negative : Bool
  digits : Bytes
  scale : ℤ
deriving DecidableEq

def digit (b : Byte) : ℕ :=
  b.val - 0x30

def cmpAbsDigits (a b : Bytes) : Ordering :=
  if a.length ≠ b.length then (if a.length < b.length then .lt else .gt) else compare a b

def stripZeros (s : Bytes) : Bytes :=
  let rest := s.dropWhile (· = 0x30)
  if rest = [] then zeroDigits else rest

def lastDigit (reversed : Bytes) : ℕ :=
  (reversed.head?.map digit).getD 0

/-- The loop of `add_abs_digits` where one text is read; behind it the digits of the carry. -/
def addCarry : Bytes → ℕ → Bytes
  | [], carry => (Nat.digits 10 carry).map digitByte
  | y :: ys, carry =>
    let sum := digit y + carry
    digitByte (sum % 10) :: addCarry ys (sum / 10)

/-- The loop of `add_abs_digits`, over the texts from their ends. -/
def addLoop : Bytes → Bytes → ℕ → Bytes
  | [], ys, carry => addCarry ys carry
  | x :: xs, ys, carry =>
    let sum := digit x + lastDigit ys + carry
    digitByte (sum % 10) :: addLoop xs ys.tail (sum / 10)

def addAbsDigits (a b : Bytes) : Bytes :=
  let out := (addLoop a.reverse b.reverse 0).reverse
  if out = [] then zeroDigits else out

/-- A turn of `sub_abs_digits`: the digit of the difference and what is borrowed for it. -/
def subDigit (x y borrow : ℕ) : ℕ × ℕ :=
  if x < y + borrow then (x + 10 - (y + borrow), 1) else (x - (y + borrow), 0)

/-- The loop of `sub_abs_digits`, over the texts from their ends. -/
def subLoop : Bytes → Bytes → ℕ → Bytes
  | [], _, _ => []
  | x :: xs, ys, borrow =>
    let out := subDigit (digit x) (lastDigit ys) borrow
    digitByte out.1 :: subLoop xs ys.tail out.2

def subAbsDigits (a b : Bytes) : Bytes :=
  stripZeros (subLoop a.reverse b.reverse 0).reverse

/-- The inner loop of `mul_abs_digits`: the products of one digit, from the cell `at` on. -/
def mulRow (x : ℕ) : Bytes → ℕ → List ℕ → List ℕ
  | [], _, cells => cells
  | y :: ys, cell, cells => mulRow x ys (cell + 1) (cells.modify cell (· + x * digit y))

/-- The outer loop; the first digit has the products of the first place. -/
def mulRows : Bytes → Bytes → ℕ → List ℕ → List ℕ
  | [], _, _, cells => cells
  | x :: xs, b, i, cells => mulRows xs b (i + 1) (mulRow (digit x) b (i + 1) cells)

def carried : List ℕ → List ℕ
  | [] => []
  | c :: rest =>
    match carried rest with
    | [] => [c]
    | d :: ds => (c + d / 10) :: d :: ds

def cellDigits : List ℕ → Bytes
  | [] => []
  | c :: rest => digitByte c :: rest.map fun d => digitByte (d % 10)

/-- The cells only grow, until their carries are taken: no int overflows where none of these sums
does. -/
def mulAbsDigits (a b : Bytes) : Option Bytes :=
  if a = zeroDigits ∨ b = zeroDigits then some zeroDigits
  else
    let sums := carried (mulRows a b 0 (List.replicate (a.length + b.length) 0))
    if ∀ c ∈ sums, (c : ℤ) ≤ intMax then some (stripZeros (cellDigits sums)) else none

/-- A turn of the inner loop of `div_abs_digits`. -/
def divTurn (den : Bytes) (s : Bytes × ℕ) : (Bytes × ℕ) ⊕ (Bytes × ℕ) :=
  if cmpAbsDigits s.1 den ≠ .lt then .inr (subAbsDigits s.1 den, s.2 + 1) else .inl s

/-- The inner loop of `div_abs_digits`, with nine subtractions at most. -/
def divDigit (den rem : Bytes) : Option (Bytes × ℕ) :=
  Loop.run (divTurn den) 10 (rem, 0)

/-- The outer loop, with the quotient and the remainder so far. -/
def divLoop (den : Bytes) : Bytes → Bytes → Bytes → Option Bytes
  | [], q, _ => some q
  | ch :: num, q, rem =>
    (divDigit den (stripZeros (rem ++ [ch]))).bind fun (rem, count) =>
      divLoop den num (q ++ [digitByte count]) rem

def divAbsDigits (num den : Bytes) : Option Bytes :=
  (divLoop den num [] zeroDigits).map stripZeros

def zeros (n : ℤ) : Bytes :=
  List.replicate n.toNat 0x30

namespace Num

def isZero (n : Num) : Bool :=
  n.digits = zeroDigits

/-- `Num::from_int`, for a 64-bit integer. -/
def fromInt (v : ℤ) : Num :=
  ⟨v < 0, DigitText.numeral v.natAbs, 0⟩

end Num

def alignScale (n : Num) (scale : ℤ) : Option Num :=
  if n.scale < scale ∧ n.digits ≠ zeroDigits then
    (toInt (scale - n.scale)).map fun behind =>
      { n with digits := n.digits ++ zeros behind, scale := scale }
  else some { n with scale := scale }

/-- The sum of two numbers of one scale. -/
def addAligned (a b : Num) (scale : ℤ) : Num :=
  let r : Num :=
    if a.negative = b.negative then ⟨a.negative, addAbsDigits a.digits b.digits, scale⟩
    else
      match cmpAbsDigits a.digits b.digits with
      | .eq => ⟨false, zeroDigits, scale⟩
      | .gt => ⟨a.negative, subAbsDigits a.digits b.digits, scale⟩
      | .lt => ⟨b.negative, subAbsDigits b.digits a.digits, scale⟩
  if r.digits = zeroDigits then { r with negative := false } else r

def numAdd (a b : Num) (subtract : Bool) : Option Num :=
  let b := if subtract then { b with negative := !b.negative } else b
  let scale := max a.scale b.scale
  (alignScale a scale).bind fun a =>
    (alignScale b scale).map fun b => addAligned a b scale

def numMul (a b : Num) : Option Num :=
  (mulAbsDigits a.digits b.digits).bind fun digits =>
    (toInt (a.scale + b.scale)).map fun scale =>
      ⟨digits ≠ zeroDigits && a.negative != b.negative, digits, scale⟩

def numRound (n : Num) (scale : ℤ) (cut : Bool) : Option Num :=
  if n.scale ≤ scale then alignScale n scale
  else
    (toInt (n.scale - scale)).map fun drop =>
      let drop := drop.toNat
      let digits :=
        if n.digits.length ≤ drop then
          List.replicate (drop - n.digits.length + 1) 0x30 ++ n.digits
        else n.digits
      let up := !cut && decide (0x35 ≤ digits.getD (digits.length - drop) 0)
      let kept := digits.take (digits.length - drop)
      let rounded := stripZeros (if up then addAbsDigits kept [0x31] else kept)
      ⟨rounded ≠ zeroDigits && n.negative, rounded, scale⟩

/-- The numerator and the denominator of `num_div`. -/
def divOperands (a b : Num) (shift : ℤ) : Option (Bytes × Bytes) :=
  if 0 ≤ shift then some (a.digits ++ zeros shift, b.digits)
  else (toInt (-shift)).map fun behind => (a.digits, b.digits ++ zeros behind)

def numDiv (a b : Num) (scale : ℤ) (cut : Bool) : Option Num :=
  (toInt (scale + 1)).bind fun guard =>
    (toInt (guard + b.scale)).bind fun sum =>
      (toInt (sum - a.scale)).bind fun shift =>
        (divOperands a b shift).bind fun (numerator, denominator) =>
          (divAbsDigits numerator denominator).bind fun digits =>
            numRound ⟨digits ≠ zeroDigits && a.negative != b.negative, digits, guard⟩ scale cut

def u64 (n : ℕ) : ℕ :=
  n % 2 ^ 64

/-- A turn of the loop of `int_quotient`: the remainder and the digits of the fraction. -/
def quotientTurn (ub : ℕ) (s : ℕ × ℕ) : ℕ × ℕ :=
  let rest := u64 (s.1 * 10)
  (rest % ub, u64 (u64 (s.2 * 10) + rest / ub))

/-- `int_quotient`, for 64-bit integers of which `b` is not zero. -/
def intQuotient (a b : ℤ) : Option Num :=
  let ua := a.natAbs
  let ub := b.natAbs
  if 900000000000000000 < ub then none
  else
    let fraction := ((quotientTurn ub)^[9] (ua % ub, 0)).2
    let digits := stripZeros (DigitText.numeral (ua / ub) ++ DigitText.padded 9 fraction)
    some ⟨digits ≠ zeroDigits && decide (a < 0) != decide (b < 0), digits, 9⟩

end RusqlEngine.SqlVal
