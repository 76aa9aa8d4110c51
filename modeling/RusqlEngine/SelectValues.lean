import RusqlEngine.Keys
import RusqlEngine.Library.RowList

/-!
# How SELECT compares values

Values are texts. A column of numbers compares by value, a text by the weights of the default
collation, and a column of unknown class as numbers when both values are numbers. `order_rows` sorts
by cells it has read once, `row_order_less` compares two rows of groups. A double is a rational
here; reading one from a text is a parameter.
-/

namespace RusqlEngine

inductive ValueClass
  | unknown
  | number
  | text
deriving DecidableEq, Repr

structure OrderBy where
  column : String
  ascending : Bool
  cls : ValueClass
deriving DecidableEq, Repr

def readDigits (digits : List Char) : Option Nat :=
  if digits ≠ [] ∧ digits.all Char.isDigit then some (Nat.ofDigitChars 10 digits 0) else none

def negateIf (neg : Bool) (n : Nat) : Int :=
  if neg then -n else n

def parseInt64Text (text : String) : Option Int :=
  let chars := match text.toList with
    | '+' :: cs => cs
    | cs => cs
  let (neg, digits) := match chars with
    | '-' :: cs => (true, cs)
    | cs => (false, cs)
  match readDigits digits with
  | none => none
  | some n =>
    let value := negateIf neg n
    if -2 ^ 63 ≤ value ∧ value < 2 ^ 63 then some value else none

/-- `parse_wide_integer_text`: the sign and the magnitude as one integer. -/
def parseWideIntegerText (text : String) : Option Int :=
  let (neg, digits) := takeSign text.toList
  match readDigits digits with
  | none => none
  | some n => if n ≤ uint64Max then some (negateIf neg n) else none

/-- The collation weights of a text (`collation::sort_key`) and the doubles it can be read
as. -/
structure ValueReader where
  weights : String → List Nat
  parseNumber : String → Option ℚ
  textToNumber : String → ℚ
  double : Int → ℚ

/-- The order of two lists of weights. -/
def compareWeights : List Nat → List Nat → Ordering
  | [], [] => .eq
  | [], _ :: _ => .lt
  | _ :: _, [] => .gt
  | a :: as, b :: bs => (compare a b).then (compareWeights as bs)

namespace ValueReader

variable (reader : ValueReader)

/-- `collation::compare` of two texts that are not NULL. -/
def compareText (a b : String) : Ordering :=
  compareWeights (reader.weights a) (reader.weights b)

def compareNumbers (a b : String) : Ordering :=
  match parseInt64Text a, parseInt64Text b with
  | some x, some y => compare x y
  | _, _ =>
    match parseWideIntegerText a, parseWideIntegerText b with
    | some u, some v => compare u v
    | _, _ => compare (reader.textToNumber a) (reader.textToNumber b)

/-- `compare_classed` with one class on both sides. -/
def compareClassed (cls : ValueClass) (a b : String) : Ordering :=
  match cls with
  | .number => reader.compareNumbers a b
  | .text => reader.compareText a b
  | .unknown =>
    if (reader.parseNumber a).isSome && (reader.parseNumber b).isSome then
      reader.compareNumbers a b
    else reader.compareText a b

/-- `cmp_key`: NULL is before every value. -/
def cmpKey (cls : ValueClass) (a b : String) : Ordering :=
  if a = executorNull then (if b = executorNull then .eq else .lt)
  else if b = executorNull then .gt
  else reader.compareClassed cls a b

/-- What `order_rows` reads of a value. -/
inductive Cell
  | null
  | whole (n : Int)
  | number (q : ℚ)
  | text (weights : List Nat)
deriving DecidableEq

def readCell (cls : ValueClass) (text : String) : Cell :=
  if text = executorNull then .null
  else
    match cls with
    | .text => .text (reader.weights text)
    | .number =>
      match parseInt64Text text, reader.parseNumber text with
      | some n, _ => .whole n
      | none, some q => .number q
      | none, none => .number (reader.textToNumber text)
    | .unknown =>
      match parseInt64Text text, reader.parseNumber text with
      | some n, _ => .whole n
      | none, some q => .number q
      | none, none => .text (reader.weights text)

/-- The comparison of two cells in `order_rows`; the text is read again when the other one is no
number. -/
def compareCells (cls : ValueClass) (a b : String) : Ordering :=
  match reader.readCell cls a, reader.readCell cls b with
  | .null, .null => .eq
  | .null, _ => .lt
  | _, .null => .gt
  | .whole x, .whole y => compare x y
  | .whole x, .number q => compare (reader.double x) q
  | .number p, .whole y => compare p (reader.double y)
  | .number p, .number q => compare p q
  | _, _ => reader.compareText a b

end ValueReader

/-- The value an item of `ORDER BY` reads of a row. -/
def orderValue (lookup : Row → String → Option String) (ord : OrderBy) (row : Row) : String :=
  (lookup row ord.column).getD ""

/-- Two rows compared item by item of `ORDER BY`. With `cmpKey` this is `row_order_less`, with
`compareCells` the comparison of `order_rows`. -/
def compareRows (cmp : ValueClass → String → String → Ordering)
    (lookup : Row → String → Option String) : List OrderBy → Row → Row → Ordering
  | [], _, _ => .eq
  | ord :: rest, a, b =>
    let c := cmp ord.cls (orderValue lookup ord a) (orderValue lookup ord b)
    (if ord.ascending then c else c.swap).then (compareRows cmp lookup rest a b)

/-- On the values that `ORDER BY` reads of the rows, each comparison is a weak order, and the two
comparisons of the source agree. -/
structure SortsWell (reader : ValueReader) (lookup : Row → String → Option String)
    (order : List OrderBy) (rows : List Row) : Prop where
  trans : ∀ ord ∈ order, ∀ a ∈ rows, ∀ b ∈ rows, ∀ c ∈ rows,
    reader.cmpKey ord.cls (orderValue lookup ord a) (orderValue lookup ord b) ≠ .gt →
    reader.cmpKey ord.cls (orderValue lookup ord b) (orderValue lookup ord c) ≠ .gt →
    reader.cmpKey ord.cls (orderValue lookup ord a) (orderValue lookup ord c) ≠ .gt
  agree : ∀ ord ∈ order, ∀ a ∈ rows, ∀ b ∈ rows,
    reader.compareCells ord.cls (orderValue lookup ord a) (orderValue lookup ord b) =
      reader.cmpKey ord.cls (orderValue lookup ord a) (orderValue lookup ord b)

theorem compareWeights_swap (as bs : List Nat) :
    compareWeights bs as = (compareWeights as bs).swap := by
  induction as generalizing bs with
  | nil => cases bs <;> rfl
  | cons a as ih =>
    cases bs with
    | nil => rfl
    | cons b bs =>
      rw [compareWeights, compareWeights, ih bs, Ordering.swap_then, Nat.compare_swap]

namespace ValueReader

variable (reader : ValueReader)

theorem compareNumbers_swap (a b : String) :
    reader.compareNumbers b a = (reader.compareNumbers a b).swap := by
  have hint : ∀ x y : Int, compare y x = (compare x y).swap := fun _ _ => Std.OrientedCmp.eq_swap
  have hrat : ∀ x y : ℚ, compare y x = (compare x y).swap := fun _ _ => Std.OrientedCmp.eq_swap
  unfold compareNumbers
  cases parseInt64Text a <;> cases parseInt64Text b <;> cases parseWideIntegerText a <;>
    cases parseWideIntegerText b <;> first | exact hint _ _ | exact hrat _ _

theorem compareClassed_swap (cls : ValueClass) (a b : String) :
    reader.compareClassed cls b a = (reader.compareClassed cls a b).swap := by
  cases cls with
  | number => exact reader.compareNumbers_swap a b
  | text => exact compareWeights_swap _ _
  | unknown =>
    simp only [compareClassed, Bool.and_comm (reader.parseNumber b).isSome]
    split
    · exact reader.compareNumbers_swap a b
    · exact compareWeights_swap _ _

theorem cmpKey_swap (cls : ValueClass) (a b : String) :
    reader.cmpKey cls b a = (reader.cmpKey cls a b).swap := by
  unfold cmpKey
  split
  · split <;> rfl
  · split
    · rfl
    · exact reader.compareClassed_swap cls a b

end ValueReader

variable {reader : ValueReader} {lookup : Row → String → Option String} {order : List OrderBy}
  {rows rows' : List Row}

theorem SortsWell.subset (h : SortsWell reader lookup order rows) (hsub : rows' ⊆ rows) :
    SortsWell reader lookup order rows' where
  trans ord ho a ha b hb c hc := h.trans ord ho a (hsub ha) b (hsub hb) c (hsub hc)
  agree ord ho a ha b hb := h.agree ord ho a (hsub ha) b (hsub hb)

theorem SortsWell.tail {ord : OrderBy} (h : SortsWell reader lookup (ord :: order) rows) :
    SortsWell reader lookup order rows where
  trans o ho := h.trans o (.tail _ ho)
  agree o ho := h.agree o (.tail _ ho)

theorem SortsWell.consistent_item {ord : OrderBy}
    (h : SortsWell reader lookup (ord :: order) rows) :
    RowList.Consistent (fun a b =>
      let c := reader.cmpKey ord.cls (orderValue lookup ord a) (orderValue lookup ord b)
      if ord.ascending then c else c.swap) rows where
  swap a _ b _ := by
    dsimp only
    rw [reader.cmpKey_swap ord.cls (orderValue lookup ord a) (orderValue lookup ord b)]
    split <;> rfl
  trans a ha b hb c hc := by
    dsimp only
    split
    · exact h.trans ord List.mem_cons_self a ha b hb c hc
    · rw [← reader.cmpKey_swap, ← reader.cmpKey_swap, ← reader.cmpKey_swap]
      intro hab hbc
      exact h.trans ord List.mem_cons_self c hc b hb a ha hbc hab

theorem SortsWell.consistent (h : SortsWell reader lookup order rows) :
    RowList.Consistent (compareRows reader.cmpKey lookup order) rows := by
  induction order with
  | nil =>
    exact ⟨fun _ _ _ _ => rfl, fun _ _ _ _ _ _ _ _ => Ordering.noConfusion⟩
  | cons ord rest ih =>
    exact RowList.Consistent.then h.consistent_item (ih h.tail)

theorem SortsWell.compareRows_eq (h : SortsWell reader lookup order rows) {a b : Row}
    (ha : a ∈ rows) (hb : b ∈ rows) :
    compareRows reader.compareCells lookup order a b =
      compareRows reader.cmpKey lookup order a b := by
  induction order with
  | nil => rfl
  | cons ord rest ih =>
    simp only [compareRows]
    rw [h.agree ord List.mem_cons_self a ha b hb, ih h.tail]

end RusqlEngine
