import RusqlEngine.Row

/-!
# The lexer

The lexer first puts the text of executable comments in place and then reads from left to right; a
step also says whether the string, quoted name or comment it has read has met its end. The table of
keywords and the way a number with an exponent is written out are parameters. Where a token stands
in the text is no part of it.
-/

namespace RusqlEngine

inductive TokenKind
  | ident | stringLit | numberLit
  | minus | arrow | longArrow | plus | at | slash | asterisk | comma | semicolon | lParen | rParen
  | dot | eq | gt | gte | shiftRight | lt | lte | nullSafeEq | ne | shiftLeft | not | percent
  | colonEq | pipe | pipePipe | ampersand | caret | tilde
  | keyword (name : String)
deriving DecidableEq, Repr

/-- A token; two are the same when these are. -/
structure Token where
  kind : TokenKind
  text : List Char
deriving DecidableEq, Repr

structure LexerEnv where
  keywordMap : List Char → Option TokenKind
  writeNumber : List Char → List Char → List Char

/-- What one step of the lexer has read. -/
structure Lexed where
  tokens : List Token
  rest : List Char
  closed : Bool
deriving DecidableEq, Repr

namespace Lexed

def symbol (kind : TokenKind) (rest : List Char) : Lexed :=
  ⟨[⟨kind, []⟩], rest, true⟩

def skip (rest : List Char) : Lexed :=
  ⟨[], rest, true⟩

end Lexed

/-- `c == expected` for the next character. -/
def peekIs (cs : List Char) (accepts : Char → Bool) : Bool :=
  cs.head?.any accepts

/-- What a backslash and a character stand for in a string. -/
def unescape (c : Char) : List Char :=
  if c = 'n' then ['\n']
  else if c = 'r' then ['\r']
  else if c = 't' then ['\t']
  else if c = '0' then ['\x00']
  else if c = 'b' then ['\x08']
  else if c = 'Z' then ['\x1a']
  else if c = '%' ∨ c = '_' then ['\\', c]
  else [c]

/-- The text of a string, what follows it, and whether its closing quote was there. -/
structure StringRead where
  text : List Char
  rest : List Char
  closed : Bool
deriving DecidableEq, Repr

def StringRead.push (cs : List Char) (r : StringRead) : StringRead :=
  { r with text := cs ++ r.text }

/-- `Lexer::read_string`, after the opening quote. -/
def readString : List Char → StringRead
  | [] => ⟨[], [], false⟩
  | [c] =>
    if c = '\'' then ⟨[], [], true⟩
    else if c = '\\' then ⟨[], [], false⟩
    else ⟨[c], [], false⟩
  | c :: d :: cs =>
    if c = '\'' then
      if d = '\'' then (readString cs).push ['\''] else ⟨[], d :: cs, true⟩
    else if c = '\\' then (readString cs).push (unescape d)
    else (readString (d :: cs)).push [c]

/-- `Lexer::read_quoted_ident`, after the opening quote. -/
def readQuotedIdent (closing : Char) (cs : List Char) : Lexed :=
  let found := cs.dropWhile (· ≠ closing)
  ⟨[⟨.ident, cs.takeWhile (· ≠ closing)⟩], found.tail, found ≠ []⟩

def skipLine (cs : List Char) : Lexed :=
  let found := cs.dropWhile (· ≠ '\n')
  ⟨[], found.tail, found ≠ []⟩

/-- A comment, after its opening. -/
def skipBlock : List Char → Lexed
  | [] => ⟨[], [], false⟩
  | [_] => ⟨[], [], false⟩
  | c :: d :: cs => if c = '*' ∧ d = '/' then ⟨[], cs, true⟩ else skipBlock (d :: cs)

def isNumberChar (c : Char) : Bool :=
  c.isDigit || c == '.'

def isNameChar (c : Char) : Bool :=
  c.isAlphanum || c == '_'

def isHexDigit (c : Char) : Bool :=
  c.isDigit || ('a' ≤ c && c ≤ 'f') || ('A' ≤ c && c ≤ 'F')

def takeExponentSign (cs : List Char) : List Char × List Char :=
  if peekIs cs fun c => c == '+' || c == '-' then (cs.take 1, cs.drop 1) else ([], cs)

/-- `Lexer::read_exponent`: the number written out and what follows it, `none` where there is
no exponent. -/
def readExponent (env : LexerEnv) (number cs : List Char) : Option (List Char × List Char) :=
  if number = [] ∨ number.getLast? = some '.' then none
  else if peekIs cs (fun c => c == 'e' || c == 'E') then
    let signed := takeExponentSign (cs.drop 1)
    if peekIs signed.2 Char.isDigit then
      some (env.writeNumber number ('e' :: signed.1 ++ signed.2.takeWhile Char.isDigit),
        signed.2.dropWhile Char.isDigit)
    else none
  else none

def readNumber (env : LexerEnv) (cs : List Char) : Lexed :=
  let number := cs.takeWhile isNumberChar
  let rest := cs.dropWhile isNumberChar
  match readExponent env number rest with
  | some (text, rest) => ⟨[⟨.numberLit, text⟩], rest, true⟩
  | none =>
    if number = ['0'] ∧ peekIs rest (fun c => c == 'x' || c == 'X') = true then
      ⟨[⟨.stringLit, (rest.drop 1).takeWhile isHexDigit⟩], (rest.drop 1).dropWhile isHexDigit,
        true⟩
    else ⟨[⟨.numberLit, number⟩], rest, true⟩

/-- The token of a word. -/
def identToken (env : LexerEnv) (word : List Char) : Token :=
  let upper := word.map Char.toUpper
  if upper = "TRUE".toList then ⟨.ident, "true".toList⟩
  else if upper = "FALSE".toList then ⟨.ident, "false".toList⟩
  else match env.keywordMap upper with
    | some kind => ⟨kind, []⟩
    | none => ⟨.ident, word⟩

def readIdent (env : LexerEnv) (cs : List Char) : Lexed :=
  ⟨[identToken env (cs.takeWhile isNameChar)], cs.dropWhile isNameChar, true⟩

def negativeText (text : List Char) : List Char :=
  if text.any (fun c => '1' ≤ c && c ≤ '9') then text else text.drop 1

/-- What follows a `-`; `afterValue` says that the token before it is a value, a name or `)`. -/
def lexDash (env : LexerEnv) (afterValue : Bool) (cs : List Char) : Lexed :=
  if peekIs cs (· == '-') then skipLine cs
  else if peekIs cs (· == '>') then
    if peekIs (cs.drop 1) (· == '>') then Lexed.symbol .longArrow (cs.drop 2)
    else Lexed.symbol .arrow (cs.drop 1)
  else if peekIs cs Char.isDigit && !afterValue then
    let number := '-' :: cs.takeWhile isNumberChar
    match readExponent env number (cs.dropWhile isNumberChar) with
    | some (text, rest) => ⟨[⟨.numberLit, negativeText text⟩], rest, true⟩
    | none => ⟨[⟨.numberLit, negativeText number⟩], cs.dropWhile isNumberChar, true⟩
  else Lexed.symbol .minus cs

def isVariableScope (name : List Char) : Bool :=
  ["SESSION".toList, "GLOBAL".toList, "LOCAL".toList, "PERSIST".toList].contains
    (name.map Char.toUpper)

/-- What follows an `@`. -/
def lexAt (cs : List Char) : Lexed :=
  if peekIs cs (· == '@') then
    let name := (cs.drop 1).takeWhile isNameChar
    let rest := (cs.drop 1).dropWhile isNameChar
    if peekIs rest (· == '.') && isVariableScope name then
      ⟨[⟨.at, []⟩, ⟨.ident, '@' :: ((rest.drop 1).takeWhile isNameChar).map Char.toLower⟩],
        (rest.drop 1).dropWhile isNameChar, true⟩
    else ⟨[⟨.at, []⟩, ⟨.ident, '@' :: name.map Char.toLower⟩], rest, true⟩
  else Lexed.symbol .at cs

/-- What follows a `/`. -/
def lexSlash (cs : List Char) : Lexed :=
  if peekIs cs (· == '*') then skipBlock (cs.drop 1) else Lexed.symbol .slash cs

/-- An operator of one character that a second one may extend. -/
def lexOperator (short : Lexed) (extended : List (Char × TokenKind)) (cs : List Char) : Lexed :=
  match extended.find? fun e => peekIs cs (· == e.1) with
  | some e => Lexed.symbol e.2 (cs.drop 1)
  | none => short

/-- What follows a `<`. -/
def lexLess (cs : List Char) : Lexed :=
  if peekIs cs (· == '=') then
    lexOperator (Lexed.symbol .lte (cs.drop 1)) [('>', .nullSafeEq)] (cs.drop 1)
  else lexOperator (Lexed.symbol .lt cs) [('>', .ne), ('<', .shiftLeft)] cs

/-- The tokens of one character. -/
def singleKind (c : Char) : Option TokenKind :=
  [('+', .plus), ('*', .asterisk), (',', .comma), (';', .semicolon), ('(', .lParen),
    (')', .rParen), ('.', .dot), ('=', .eq), ('%', .percent), ('&', .ampersand), ('^', .caret),
    ('~', .tilde)].lookup c

/-- One turn of the loop of `Lexer::tokenize`. -/
def nextLexeme (env : LexerEnv) (afterValue : Bool) : List Char → Lexed
  | [] => Lexed.skip []
  | c :: cs =>
    if isSpace c then Lexed.skip cs
    else if c = '-' then lexDash env afterValue cs
    else if c = '@' then lexAt cs
    else if c = '#' then skipLine cs
    else if c = '/' then lexSlash cs
    else if c = '>' then lexOperator (Lexed.symbol .gt cs) [('=', .gte), ('>', .shiftRight)] cs
    else if c = '<' then lexLess cs
    else if c = '!' then lexOperator (Lexed.symbol .not cs) [('=', .ne)] cs
    else if c = ':' then lexOperator (Lexed.skip cs) [('=', .colonEq)] cs
    else if c = '|' then lexOperator (Lexed.symbol .pipe cs) [('|', .pipePipe)] cs
    else if c = '`' ∨ c = '"' then readQuotedIdent c cs
    else if c = '\'' then
      let found := readString cs
      ⟨[⟨.stringLit, found.text⟩], found.rest, found.closed⟩
    else match singleKind c with
      | some kind => Lexed.symbol kind cs
      | none =>
        if c.isDigit then readNumber env (c :: cs)
        else if c.isAlpha || c == '_' then readIdent env (c :: cs)
        else Lexed.skip cs

/-- `is_value_or_close_paren` of the last token. -/
def endsValue (afterValue : Bool) (tokens : List Token) : Bool :=
  match tokens.getLast? with
  | none => afterValue
  | some t => t.kind = .numberLit || t.kind = .ident || t.kind = .stringLit || t.kind = .rParen

/-- The loop of `Lexer::tokenize`; every turn reads a character at least. -/
def tokenizeLoop (env : LexerEnv) : Nat → Bool → List Char → List Token
  | 0, _, _ => []
  | fuel + 1, afterValue, cs =>
    if cs = [] then []
    else
      let lexed := nextLexeme env afterValue cs
      lexed.tokens ++ tokenizeLoop env fuel (endsValue afterValue lexed.tokens) lexed.rest

/-- A literal or a quoted name as `expand_executable_comments` sees it, after its opening. -/
def copyLiteral (quote : Char) : List Char → StringRead
  | [] => ⟨[], [], false⟩
  | [c] => ⟨[c], [], c = quote⟩
  | c :: d :: cs =>
    if c = quote then ⟨[c], d :: cs, true⟩
    else if c = '\\' ∧ quote ≠ '`' then (copyLiteral quote cs).push [c, d]
    else (copyLiteral quote (d :: cs)).push [c]

/-- The body of a comment, and what follows its `*/`. -/
def commentBody : List Char → StringRead
  | [] => ⟨[], [], false⟩
  | [c] => ⟨[c], [], false⟩
  | c :: d :: cs =>
    if c = '*' ∧ d = '/' then ⟨[], cs, true⟩ else (commentBody (d :: cs)).push [c]

def kVersion : Nat :=
  80409

/-- What an executable comment puts in its place: its text, where the server is new enough. -/
def executableText (body : List Char) : List Char :=
  let digits := (body.take 5).takeWhile Char.isDigit
  if digits = [] ∨ Nat.ofDigitChars 10 digits 0 ≤ kVersion then
    ' ' :: body.drop digits.length ++ [' ']
  else []

/-- A comment, after its opening. -/
def copyComment (cs : List Char) : StringRead :=
  let found := commentBody cs
  match found.text with
  | '!' :: body => ⟨executableText body, found.rest, found.closed⟩
  | body =>
    if ['M', '!'].isPrefixOf cs then ⟨[], found.rest, found.closed⟩
    else ⟨'/' :: '*' :: body ++ (if found.closed then ['*', '/'] else []), found.rest,
      found.closed⟩

/-- One turn of the loop of `expand_executable_comments`. -/
def expandStep : List Char → StringRead
  | [] => ⟨[], [], true⟩
  | c :: cs =>
    if c = '\'' ∨ c = '"' ∨ c = '`' then (copyLiteral c cs).push [c]
    else if c = '#' ∨ (c = '-' ∧ peekIs cs (· == '-')) then
      let found := cs.dropWhile (· ≠ '\n')
      ⟨c :: cs.takeWhile (· ≠ '\n'), found, found ≠ []⟩
    else if c = '/' ∧ peekIs cs (· == '*') = true then copyComment (cs.drop 1)
    else ⟨[c], cs, true⟩

def expandLoop : Nat → List Char → List Char
  | 0, _ => []
  | fuel + 1, cs =>
    if cs = [] then []
    else
      let found := expandStep cs
      found.text ++ expandLoop fuel found.rest

/-- `sql.find(needle) != npos`. -/
def containsText (needle : List Char) : List Char → Bool
  | [] => needle.isEmpty
  | c :: cs => needle.isPrefixOf (c :: cs) || containsText needle cs

def expandExecutableComments (sql : List Char) : List Char :=
  if containsText "/*!".toList sql || containsText "/*M!".toList sql then
    expandLoop sql.length sql
  else sql

/-- `Lexer::tokenize` of a text. -/
def tokenize (env : LexerEnv) (sql : List Char) : List Token :=
  let input := expandExecutableComments sql
  tokenizeLoop env input.length false input

end RusqlEngine
