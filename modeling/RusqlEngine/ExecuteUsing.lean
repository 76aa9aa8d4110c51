import RusqlEngine.BoundParams
import RusqlEngine.Substitution

/-!
# EXECUTE with values

`prepared_statement` scans a prepared text itself for strings and quoted names, puts the value of
the next variable in the place of each other `?`, as a number, `NULL` or a string, and hands the
result to the parser. What the text says is the lexer's reading of it, in which each `?` outside
strings, names and comments stands for one literal.
-/

namespace RusqlEngine

def nullWord : List Char :=
  "NULL".toList

/-- A string or a quoted name to the scan, after its opening quote: the text with its closing quote,
and what follows. -/
def scanQuoted (quote : Char) : List Char → List Char × List Char
  | [] => ([], [])
  | [c] => ([c], [])
  | c :: d :: cs =>
    if c = '\\' ∧ quote ≠ '`' then (scanQuoted quote cs).map (c :: d :: ·) id
    else if c = quote then
      if d = quote then (scanQuoted quote cs).map (c :: d :: ·) id else ([c], d :: cs)
    else (scanQuoted quote (d :: cs)).map (c :: ·) id

/-- The loop that sets `number` and counts the digits. -/
def looksNumeric : List Char → Bool
  | [] => false
  | c :: cs =>
    (c.isDigit || c == '-' || c == '+') && cs.all (fun d => d.isDigit || d == '.') &&
      (c :: cs).any Char.isDigit

def quoteValue (value : List Char) : List Char :=
  '\'' :: value.flatMap (fun ch => if ch = '\'' ∨ ch = '\\' then [ch, ch] else [ch]) ++ ['\'']

def pasteValue (value : List Char) : List Char :=
  if value = nullWord ∨ looksNumeric value = true then value else quoteValue value

/-- `user_vars.find(to_lower_str(name))`. -/
def variableValue (userVars : VarMap) (name : List Char) : List Char :=
  (userVars.lookup (lowerText name)).getD nullWord

/-- The loop over the prepared text; none where there are more marks than variables. -/
def substituteLoop (userVars : VarMap) :
    Nat → List (List Char) → List Char → Option (List Char × List (List Char))
  | 0, names, _ => some ([], names)
  | _ + 1, names, [] => some ([], names)
  | fuel + 1, names, c :: cs =>
    if c = '\'' ∨ c = '"' ∨ c = '`' then
      (substituteLoop userVars fuel names (scanQuoted c cs).2).map
        (Prod.map (c :: (scanQuoted c cs).1 ++ ·) id)
    else if c ≠ '?' then (substituteLoop userVars fuel names cs).map (Prod.map (c :: ·) id)
    else match names with
      | [] => none
      | name :: names =>
        (substituteLoop userVars fuel names cs).map
          (Prod.map (pasteValue (variableValue userVars name) ++ ·) id)

/-- The text that `prepared_statement` hands to the parser. -/
def preparedQuery (userVars : VarMap) (usingVars : List (List Char)) (prepared : List Char) :
    Except String (List Char) :=
  match substituteLoop userVars prepared.length usingVars prepared with
  | some (query, []) => .ok query
  | _ => .error "Incorrect arguments to EXECUTE"

/-- The number of a text of digits with a point at most. -/
def decimalValue (text : List Char) : Option ℚ :=
  let whole := text.takeWhile Char.isDigit
  let rest := text.dropWhile Char.isDigit
  let fraction := rest.drop 1
  if (rest = [] ∨ rest.head? = some '.' ∧ fraction.all Char.isDigit) ∧
      (whole ≠ [] ∨ fraction ≠ []) then
    some (Nat.ofDigitChars 10 whole 0 + Nat.ofDigitChars 10 fraction 0 / 10 ^ fraction.length)
  else none

/-- The number of a text that may have a sign. -/
def signedValue : List Char → Option ℚ
  | [] => none
  | c :: cs =>
    if c = '-' then (decimalValue cs).map (-·)
    else if c = '+' then decimalValue cs
    else decimalValue (c :: cs)

/-- The tokens of one literal that holds a value. -/
inductive LiteralOf (env : LexerEnv) : List Char → List Token → Prop
  | null : LiteralOf env nullWord [identToken env nullWord]
  | string {value} (h : value ≠ nullWord) : LiteralOf env value [⟨.stringLit, value⟩]
  | number {value text q} (hvalue : signedValue value = some q)
      (htext : signedValue text = some q) :
      LiteralOf env value [⟨.numberLit, text⟩]
  | negative {value text q} (hvalue : signedValue value = some (-q))
      (htext : decimalValue text = some q) :
      LiteralOf env value [⟨.minus, []⟩, ⟨.numberLit, text⟩]
  | positive {value text q} (hvalue : signedValue value = some q)
      (htext : decimalValue text = some q) :
      LiteralOf env value [⟨.plus, []⟩, ⟨.numberLit, text⟩]

/-- The tokens of a text between its marks, a `?` outside strings, names and comments; `ends` says
of each mark whether its literal is a value to the lexer. -/
def segmentsLoop (env : LexerEnv) :
    Nat → Bool → List Bool → List Char → List Token × List (List Token)
  | 0, _, _, _ => ([], [])
  | fuel + 1, afterValue, ends, cs =>
    if cs = [] then ([], [])
    else if peekIs cs (· == '?') then
      let segments := segmentsLoop env fuel (ends.headD true) ends.tail cs.tail
      ([], segments.1 :: segments.2)
    else
      let lexed := nextLexeme env afterValue cs
      (segmentsLoop env fuel (endsValue afterValue lexed.tokens) ends lexed.rest).map
        (lexed.tokens ++ ·) id

/-- The tokens of a prepared text between its marks. -/
def readSegments (env : LexerEnv) (ends : List Bool) (prepared : List Char) :
    List Token × List (List Token) :=
  let input := expandExecutableComments prepared
  segmentsLoop env input.length false ends input

/-- The segments with a literal in the place of each mark. -/
def fillSegments : List (List Token) → List Token → List (List Token) → List Token
  | _, segment, [] => segment
  | literals, segment, next :: segments =>
    segment ++ literals.headD [] ++ fillSegments literals.tail next segments

def literalEnds (literals : List (List Token)) : List Bool :=
  literals.map (endsValue false)

/-- The query is read as the prepared text with each mark replaced by one literal of its value. -/
def ExecutedRight (env : LexerEnv) (prepared query : List Char) (values : List (List Char)) :
    Prop :=
  ∃ literals, List.Forall₂ (LiteralOf env) values literals ∧
    tokenize env query = fillSegments literals
      (readSegments env (literalEnds literals) prepared).1
      (readSegments env (literalEnds literals) prepared).2

/-- The three ways in which a value is pasted. -/
inductive ValueKind
  | null
  | number
  | string
deriving DecidableEq

def valueKind (value : List Char) : ValueKind :=
  if value = nullWord then .null
  else if looksNumeric value then .number
  else .string

/-- Two queries of one prepared text differ in the literals of their values only. -/
def DifferInLiterals (env : LexerEnv) (query query' : List Char)
    (values values' : List (List Char)) : Prop :=
  ∃ segment segments literals literals',
    List.Forall₂ (LiteralOf env) values literals ∧
    List.Forall₂ (LiteralOf env) values' literals' ∧
    tokenize env query = fillSegments literals segment segments ∧
    tokenize env query' = fillSegments literals' segment segments

/-- The prepared text cut at the marks that the scan finds. -/
def cutPrepared : Nat → List Char → List Char × List (List Char)
  | 0, _ => ([], [])
  | _ + 1, [] => ([], [])
  | fuel + 1, c :: cs =>
    if c = '\'' ∨ c = '"' ∨ c = '`' then
      (cutPrepared fuel (scanQuoted c cs).2).map (c :: (scanQuoted c cs).1 ++ ·) id
    else if c ≠ '?' then (cutPrepared fuel cs).map (c :: ·) id
    else ([], (cutPrepared fuel cs).1 :: (cutPrepared fuel cs).2)

/-- The lexer finds no mark in a text, ends everything inside it, and reads each of its lexemes
alike with `more` behind the text. -/
def lexApart (env : LexerEnv) (more : List Char) : Nat → Bool → List Char → Bool
  | 0, _, cs => cs = []
  | fuel + 1, afterValue, cs =>
    let lexed := nextLexeme env afterValue cs
    cs = [] || (!peekIs cs (· == '?') && lexed.closed &&
      nextLexeme env afterValue (cs ++ more) = lexed.append more &&
      lexApart env more fuel (endsValue afterValue lexed.tokens) lexed.rest)

def valueAfter (env : LexerEnv) (afterValue : Bool) (cs : List Char) : Bool :=
  endsValue afterValue (tokensOf env afterValue cs)

/-- The pieces between the marks and the literals of the values are read by themselves: nothing runs
over a mark, the lexer finds no other mark, no lexeme of a piece runs on into the literal behind it,
and none of a literal into what stands behind that. -/
def PiecesApart (env : LexerEnv) : Bool → List (List Char) → List Char → List (List Char) → Prop
  | afterValue, _, piece, [] =>
    lexClosed env false (expandOf piece).length afterValue (expandOf piece) = true
  | afterValue, values, piece, next :: pieces =>
    let literal := pasteValue (values.headD [])
    let behind := joinPieces (values.tail.map pasteValue) (expandOf next) (pieces.map expandOf)
    let before := valueAfter env afterValue (expandOf piece)
    (expandClosed piece.length piece ∧
      (piece.getLast? = some '-' → peekIs literal (· == '-') = false)) ∧
      lexApart env (literal ++ behind) (expandOf piece).length afterValue (expandOf piece) ∧
      lexApart env behind literal.length before literal ∧
      PiecesApart env (valueAfter env before literal) values.tail next pieces

instance decidablePiecesApart (env : LexerEnv) : ∀ (afterValue : Bool) (values : List (List Char))
    (piece : List Char) (pieces : List (List Char)),
    Decidable (PiecesApart env afterValue values piece pieces)
  | _, _, _, [] => inferInstanceAs (Decidable (_ = true))
  | afterValue, values, piece, next :: pieces =>
    have := decidablePiecesApart env (valueAfter env (valueAfter env afterValue (expandOf piece))
      (pasteValue (values.headD []))) values.tail next pieces
    inferInstanceAs (Decidable ((_ = true ∧ (_ → _ = false)) ∧ _ = true ∧ _ = true ∧
      PiecesApart env _ values.tail next pieces))

/-- The condition on a prepared text and the values of its marks. -/
def PreparedApart (env : LexerEnv) (prepared : List Char) (values : List (List Char)) : Prop :=
  PiecesApart env false values (cutPrepared prepared.length prepared).1
    (cutPrepared prepared.length prepared).2

instance (env : LexerEnv) (prepared : List Char) (values : List (List Char)) :
    Decidable (PreparedApart env prepared values) :=
  inferInstanceAs (Decidable (PiecesApart env false _ _ _))

def unsignedPart (value : List Char) : List Char :=
  if peekIs value fun c => c == '-' || c == '+' then value.drop 1 else value

/-- A value that looks like a number is one to the lexer: it begins with a digit behind its sign,
and has a point at most. -/
def WellSpelled (value : List Char) : Prop :=
  looksNumeric value = true →
    peekIs (unsignedPart value) Char.isDigit ∧ value.count '.' ≤ 1

instance (value : List Char) : Decidable (WellSpelled value) :=
  inferInstanceAs (Decidable (_ → _))

end RusqlEngine
