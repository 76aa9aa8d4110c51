import RusqlEngine.LexerPieces
import RusqlEngine.Library.Scanner
import Mathlib.Data.List.DropRight

/-!
# Where statements end

The server and its clients cut their input at the semicolons that end a statement: those outside
comments, strings, quoted names and the bodies of stored programs. Whether a BEGIN or an END
belongs to a body is decided by what stands before it and by what follows it, so a part of the
input must not be cut otherwise than the whole.
-/

namespace RusqlEngine.StatementSplit

def wordStart (c : Char) : Bool :=
  c.isAlpha || c == '_'

def wordChar (c : Char) : Bool :=
  c.isAlphanum || c == '_'

def upperCase (word : List Char) : List Char :=
  word.map Char.toUpper

def opensLine (c : Char) (cs : List Char) : Bool :=
  c == '#' || (c == '-' && peekIs cs (· == '-'))

def opensBlock (c : Char) (cs : List Char) : Bool :=
  c == '/' && peekIs cs (· == '*')

def pastBlock : List Char → List Char
  | [] => []
  | [_] => []
  | c :: d :: cs => if c = '*' ∧ d = '/' then cs else pastBlock (d :: cs)

/-- The loop of `skip_blank`; every turn reads a character at least. -/
def skipBlankLoop : Nat → List Char → List Char
  | 0, cs => cs
  | _ + 1, [] => []
  | fuel + 1, c :: cs =>
    if isSpace c then skipBlankLoop fuel cs
    else if opensLine c cs then skipBlankLoop fuel ((c :: cs).dropWhile (· ≠ '\n'))
    else if opensBlock c cs then skipBlankLoop fuel (pastBlock (cs.drop 1))
    else c :: cs

/-- `skip_blank`: what follows the blanks and comments. -/
def skipBlank (cs : List Char) : List Char :=
  skipBlankLoop cs.length cs

def wordAt (cs : List Char) : List Char :=
  if peekIs cs wordStart then upperCase (cs.takeWhile wordChar) else []

def signsBeforeName : List Char :=
  ",(.=<>!+-*/%".toList

def signsAfterName : List Char :=
  ",).=<>!+-*/%".toList

def wordsBeforeName : List (List Char) :=
  ["SELECT", "DISTINCT", "BY", "WHERE", "AND", "OR", "NOT", "SET", "ON", "HAVING", "WHEN", "AS",
    "BETWEEN", "IN", "LIKE", "IS"].map String.toList

def wordsAfterName : List (List Char) :=
  ["FROM", "AS", "ASC", "DESC", "IS", "IN", "BETWEEN", "LIKE", "AND", "OR", "NOT", "THEN", "INT",
    "INTEGER", "BIGINT", "SMALLINT", "TINYINT", "MEDIUMINT", "VARCHAR", "CHAR", "TEXT", "DATE",
    "DATETIME", "TIMESTAMP", "TIME", "YEAR", "DECIMAL", "NUMERIC", "FLOAT", "DOUBLE", "REAL",
    "BOOLEAN", "BOOL", "ENUM", "JSON", "BLOB"].map String.toList

/-- `used_as_name`; before the first character no sign stands, and `'\0'` is none. -/
def usedAsName (prev : Char) (prevWord after : List Char) (lookAhead : Bool) : Bool :=
  if prevWord.isEmpty && signsBeforeName.contains prev then true
  else if wordsBeforeName.contains prevWord then true
  else if !lookAhead then false
  else
    let next := skipBlank after
    peekIs next signsAfterName.contains || wordsAfterName.contains (wordAt next)

/-- What `scan` remembers of the text before its position. -/
structure ScanState where
  beginDepth : Nat
  caseDepth : Nat
  prev : Char
  prevWord : List Char
deriving DecidableEq, Repr

namespace ScanState

def start : ScanState :=
  ⟨0, 0, '\x00', []⟩

def sign (st : ScanState) (c : Char) : ScanState :=
  { st with prev := c, prevWord := [] }

/-- A transaction's BEGIN has no END. -/
def atBegin (st : ScanState) (after : List Char) : ScanState :=
  if usedAsName st.prev st.prevWord after true then st
  else
    let next := skipBlank after
    if next.isEmpty || peekIs next (· == ';') || wordAt next == "WORK".toList then st
    else { st with beginDepth := st.beginDepth + 1 }

def atCase (st : ScanState) : ScanState :=
  if st.prevWord = "END".toList then st else { st with caseDepth := st.caseDepth + 1 }

def endsPart : List (List Char) :=
  ["IF", "WHILE", "LOOP", "REPEAT"].map String.toList

/-- A depth of 0 stays. -/
def atEnd (st : ScanState) (after : List Char) : ScanState :=
  if st.prevWord = "THEN".toList ∨ st.prevWord = "ELSE".toList ∨
      usedAsName st.prev st.prevWord after (st.caseDepth == 0) = true then st
  else
    let next := wordAt (skipBlank after)
    if next = "CASE".toList then { st with caseDepth := st.caseDepth - 1 }
    else if endsPart.contains next then st
    else if 0 < st.caseDepth then { st with caseDepth := st.caseDepth - 1 }
    else { st with beginDepth := st.beginDepth - 1 }

/-- The last character ended a word. -/
def word (st : ScanState) (text after : List Char) : ScanState :=
  let upper := upperCase text
  let counted :=
    if upper = "BEGIN".toList then st.atBegin after
    else if upper = "CASE".toList then st.atCase
    else if upper = "END".toList then st.atEnd after
    else st
  { counted with prev := text.getLastD '\x00', prevWord := upper }

def other (st : ScanState) (c : Char) : ScanState :=
  (if c = ';' ∧ st.beginDepth = 0 then { st with caseDepth := 0 } else st).sign c

end ScanState

/-- What follows a string, after its opening quote: a doubled quote begins another one. -/
def pastString : List Char → List Char
  | [] => []
  | [_] => []
  | c :: d :: cs =>
    if c = '\\' then pastString cs else if c = '\'' then d :: cs else pastString (d :: cs)

def pastQuoted (quote : Char) (cs : List Char) : List Char :=
  (cs.dropWhile (· ≠ quote)).tail

/-- One turn of the loop of `scan`; it is marked where `on_end` is called. -/
def scanTurn (st : ScanState) : List Char → Scanner.Turn ScanState Char
  | [] => ⟨st, [], false⟩
  | c :: cs =>
    if isSpace c then ⟨st, cs, false⟩
    else if opensLine c cs || opensBlock c cs then ⟨st, skipBlank (c :: cs), false⟩
    else if c = '\'' then ⟨st.sign c, pastString cs, false⟩
    else if c = '"' ∨ c = '`' then ⟨st.sign c, pastQuoted c cs, false⟩
    else if wordStart c then
      let after := cs.dropWhile wordChar
      ⟨st.word (c :: cs.takeWhile wordChar) after, after, false⟩
    else ⟨st.other c, cs, c == ';' && st.beginDepth == 0⟩

/-- The loop of `scan` over a text of `n` characters. -/
def scanLoop {σ : Type} (onEnd : σ → Nat → σ × Bool) (n : Nat) :
    Nat → σ → ScanState → List Char → σ
  | 0, acc, _, _ => acc
  | _ + 1, acc, _, [] => acc
  | fuel + 1, acc, st, c :: cs =>
    let turn := scanTurn st (c :: cs)
    if turn.marked then
      let called := onEnd acc (n - (cs.length + 1))
      if called.2 then called.1 else scanLoop onEnd n fuel called.1 turn.state turn.rest
    else scanLoop onEnd n fuel acc turn.state turn.rest

/-- `scan`: `on_end` is called until it returns true. -/
def scan {σ : Type} (onEnd : σ → Nat → σ × Bool) (acc : σ) (s : List Char) : σ :=
  scanLoop onEnd s.length s.length acc ScanState.start s

def findStatementEnd (input : List Char) : Option Nat :=
  scan (fun _ pos => (some pos, true)) none input

def countStatementEnds (input : List Char) : Nat :=
  scan (fun count _ => (count + 1, false)) 0 input

def statementEnds (input : List Char) : List Nat :=
  scan (fun ends pos => (ends ++ [pos], false)) [] input

def statements (input : List Char) : List (List Char) :=
  Scanner.between 0 input (statementEnds input)

def trimCopy (s : List Char) : List Char :=
  (s.dropWhile " \t\r\n".toList.contains).rdropWhile " \t\r\n".toList.contains

/-- `ieq`: equal but for the case of the letters. -/
def ieq (a : List Char) (b : String) : Bool :=
  a.map Char.toLower == b.toList.map Char.toLower

/-- What `handle_client` answers. -/
inductive Served
  | bye
  | builtin (command : List Char)
  | statement (q : List Char)
deriving DecidableEq, Repr

def Served.query? : Served → Option (List Char)
  | .statement q => some q
  | _ => none

def isBye (line : List Char) : Bool :=
  ieq (trimCopy line) "exit" || ieq (trimCopy line) "quit"

def isBuiltin (line : List Char) : Bool :=
  peekIs (trimCopy line) (· == '\\') || ieq (trimCopy line) "help"

/-- The query session of `handle_client`: the input kept so far, and the lines to come. An empty
statement is answered too. -/
def handleClient : List Char → List (List Char) → List Served
  | _, [] => []
  | buf, line :: lines =>
    if isBye line then [.bye]
    else if isBuiltin line then .builtin (trimCopy line) :: handleClient buf lines
    else
      let found := Scanner.cut findStatementEnd (buf ++ (line ++ ['\n']))
      found.1.map (fun q => .statement (trimCopy q)) ++ handleClient found.2 lines

/-- The lines that the session adds to its input. -/
def inputLines : List (List Char) → List (List Char)
  | [] => []
  | line :: lines =>
    if isBye line then []
    else if isBuiltin line then inputLines lines
    else (line ++ ['\n']) :: inputLines lines

def takenStatements (pieces : List (List Char)) : List (List Char) :=
  (pieces.foldl (Scanner.feed findStatementEnd) ([], [])).1.map trimCopy

end RusqlEngine.StatementSplit
