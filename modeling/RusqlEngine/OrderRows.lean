import RusqlEngine.CollationKey
import RusqlEngine.NumericText
import RusqlEngine.RowJson
import RusqlEngine.SelectValues

/-!
# The orders of ORDER BY

Rows are compared in four places: by the texts of their columns in a `SELECT` that groups, by cells
read first in a scan, to see whether a table lies in the order of its key, and by texts of unknown
class in a set operation. An item compares by the class of its column. How a column is found in a
row is a parameter of the first three.
-/

namespace RusqlEngine.OrderRows

open NumericText (parseNumber compareNumbers)
open UnicodeCollation
open Buffer (Bytes)

structure OrderBy where
  column : Bytes
  ascending : Bool
  cls : ValueClass

abbrev RowLookup := ByteRow → Bytes → Option Bytes

def directed (ascending : Bool) (c : Ordering) : Ordering :=
  if ascending then c else c.swap

def textAt (lookup : RowLookup) (column : Bytes) (row : ByteRow) : Bytes :=
  (lookup row column).getD []

section

variable (table : Table)

def compareClassed (a b : ValueClass) (x y : Bytes) : Ordering :=
  if a = .number ∨ b = .number then compareNumbers x y
  else if ¬ (a = .text ∧ b = .text) ∧ (parseNumber x).isSome ∧
      (parseNumber y).isSome then compareNumbers x y
  else compare table x y

def cmpKey (a b : Bytes) (cls : ValueClass) : Ordering :=
  if isNullText a ∨ isNullText b then
    if isNullText a = isNullText b then .eq else if isNullText a then .lt else .gt
  else compareClassed table cls cls a b

def rowOrderLess (lookup : RowLookup) (a b : ByteRow) : List OrderBy → Bool
  | [] => false
  | ord :: rest =>
    let c := directed ord.ascending
      (cmpKey table (textAt lookup ord.column a) (textAt lookup ord.column b) ord.cls)
    if c ≠ .eq then c = .lt else rowOrderLess lookup a b rest

end

/-! ### The cells of a scan -/

/-- What `order_rows` reads of a text before it sorts. -/
structure Cell where
  numeric : Bool
  null : Bool
  isInt : Bool
  whole : ℤ
  num : Double
  text : Bytes

/-- An `int64` as a double. -/
def wholeDouble (n : ℤ) : Double :=
  NumericText.signedBy (n < 0) (Binary64.nearest n.natAbs 1)

def readCell (cls : ValueClass) (text : Bytes) : Cell :=
  let cell : Cell := ⟨false, isNullText text, false, 0, 0, text⟩
  if cls ≠ .text ∧ ¬ cell.null then
    match NumericText.parseInt64Text text with
    | some whole =>
      { cell with numeric := true, isInt := true, whole := whole, num := wholeDouble whole }
    | none =>
      match parseNumber text with
      | some v => { cell with numeric := true, num := v }
      | none =>
        if cls = .number then
          { cell with numeric := true, num := NumericText.textToNumber text }
        else cell
  else cell

section

variable (table : Table)

def compareCells (x y : Cell) : Ordering :=
  if x.null ∨ y.null then
    if x.null = y.null then .eq else if x.null then .lt else .gt
  else if x.numeric ∧ y.numeric then
    if x.isInt ∧ y.isInt then compare x.whole y.whole else compare x.num y.num
  else compare (sortKey table x.text) (sortKey table y.text)

/-- The cells of a row, one for each item. -/
def readCells (lookup : RowLookup) (orderBy : List OrderBy) (row : ByteRow) : List Cell :=
  orderBy.map fun ord => readCell ord.cls (textAt lookup ord.column row)

def cellsLess : List OrderBy → List Cell → List Cell → Bool
  | ord :: rest, x :: xs, y :: ys =>
    let cmp := directed ord.ascending (compareCells table x y)
    if cmp ≠ .eq then cmp = .lt else cellsLess rest xs ys
  | _, _, _ => false

/-- The relation of `order_rows`. -/
def orderRowsLess (lookup : RowLookup) (orderBy : List OrderBy) (a b : ByteRow) : Bool :=
  cellsLess table orderBy (readCells lookup orderBy a) (readCells lookup orderBy b)

/-! ### The order of a key -/

def compareKeyPart (cls : ValueClass) (x y : Bytes) : Ordering :=
  if cls = .text then compare table x y
  else
    match NumericText.parseInt64Text x, NumericText.parseInt64Text y with
    | some xi, some yi => compare xi yi
    | _, _ =>
      match parseNumber x, parseNumber y with
      | some xf, some yf => compare xf yf
      | _, _ => compare table x y

/-- The parts of a key are ascending: their direction is not read. Rows without a part of the key
are left as they are. -/
def beforeOrEqual (lookup : RowLookup) (a b : ByteRow) : List OrderBy → Bool
  | [] => true
  | part :: rest =>
    match lookup a part.column, lookup b part.column with
    | some x, some y =>
      let cmp := compareKeyPart table part.cls x y
      if cmp ≠ .eq then cmp = .lt else beforeOrEqual lookup a b rest
    | _, _ => true

end

/-! ### Set operations -/

namespace SetOps

variable (table : Table)

def cmpKey (a b : Bytes) : Ordering :=
  if isNullText a ∨ isNullText b then
    if isNullText a = isNullText b then .eq else if isNullText a then .lt else .gt
  else
    match parseNumber a, parseNumber b with
    | some pa, some pb => compare pa pb
    | _, _ => compare table a b

def find : RowLookup :=
  fun row column => row.lookup column

def rowOrderLess (a b : ByteRow) : List OrderBy → Bool
  | [] => false
  | ord :: rest =>
    let c := directed ord.ascending
      (cmpKey table (textAt find ord.column a) (textAt find ord.column b))
    if c ≠ .eq then c = .lt else rowOrderLess a b rest

end SetOps

end RusqlEngine.OrderRows
