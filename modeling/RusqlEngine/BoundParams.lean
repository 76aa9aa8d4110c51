import RusqlEngine.LexerPieces

/-!
# Parameters bound into a prepared query

The server counts the `?` of a query with a memory of one character, puts each value as a
quoted literal in the place of its `?`, and hands the result to the lexer. What the query
says is the reading of its own text, in which a `?` outside strings, names and comments is a
mark.
-/

namespace RusqlEngine

open StringRead

/-- The flag `in_str` after a character. -/
def inStrAfter (inStr : Bool) (prev c : Char) : Bool :=
  if c = '\'' ∧ prev ≠ '\\' then !inStr else inStr

def countLoop (inStr : Bool) (prev : Char) : List Char → Nat
  | [] => 0
  | c :: cs =>
    let inStr := inStrAfter inStr prev c
    (if c = '?' ∧ inStr = false then 1 else 0) + countLoop inStr c cs

def countPlaceholders (query : List Char) : Nat :=
  countLoop false ' ' query

def bindLoop (inStr : Bool) (prev : Char) : List (List Char) → List Char → List Char
  | _, [] => []
  | params, c :: cs =>
    let inStr := inStrAfter inStr prev c
    if c = '?' ∧ inStr = false then params.headD ['?'] ++ bindLoop inStr c params.tail cs
    else c :: bindLoop inStr c params cs

def bindParams (query : List Char) (params : List (List Char)) : List Char :=
  bindLoop false ' ' params query

def escapeQuotes (value : List Char) : List Char :=
  value.flatMap fun c => if c = '\'' then ['\'', '\''] else [c]

/-- How `parse_execute_params` writes a string value. -/
def renderValue (value : List Char) : List Char :=
  '\'' :: escapeQuotes value ++ ['\'']

/-- A text with its marks: what the lexer reads, a `?` outside strings, names and comments being a
mark (`none`) for a value. -/
def markedLoop (env : LexerEnv) : Nat → Bool → List Char → List (Option Token)
  | 0, _, _ => []
  | fuel + 1, afterValue, cs =>
    if cs = [] then []
    else if peekIs cs (· == '?') then none :: markedLoop env fuel true cs.tail
    else
      let lexed := nextLexeme env afterValue cs
      lexed.tokens.map some ++
        markedLoop env fuel (endsValue afterValue lexed.tokens) lexed.rest

/-- The tokens and the marks of a query. -/
def readMarked (env : LexerEnv) (query : List Char) : List (Option Token) :=
  let input := expandExecutableComments query
  markedLoop env input.length false input

/-- Every mark is one string token that holds its value. -/
def fillMarks : List (List Char) → List (Option Token) → List Token
  | _, [] => []
  | values, some t :: read => t :: fillMarks values read
  | values, none :: read =>
    (values.head?.map fun v => (⟨.stringLit, v⟩ : Token)).toList ++ fillMarks values.tail read

def markedKind (read : Option Token) : TokenKind :=
  (read.map Token.kind).getD .stringLit

/-- The bound values stay values: what is read is the query with its marks filled in, and its kinds
are those of the query alone. -/
structure BoundRight (env : LexerEnv) (query : List Char) (values : List (List Char)) : Prop where
  tokens : tokenize env (bindParams query (values.map renderValue)) =
    fillMarks values (readMarked env query)
  kinds : (tokenize env (bindParams query (values.map renderValue))).map Token.kind =
    (readMarked env query).map markedKind
  count : countPlaceholders query = (readMarked env query).count none

/-- Every backslash of a value stands before `%` or `_`, where the lexer keeps it. -/
def backslashesKept : List Char → Bool
  | [] => true
  | c :: cs => (c ≠ '\\' || peekIs cs fun d => d == '%' || d == '_') && backslashesKept cs

/-- The query cut at the `?` that the server counts. -/
def cutLoop (inStr : Bool) (prev : Char) : List Char → List Char × List (List Char)
  | [] => ([], [])
  | c :: cs =>
    let inStr := inStrAfter inStr prev c
    let cut := cutLoop inStr c cs
    if c = '?' ∧ inStr = false then ([], cut.1 :: cut.2) else (c :: cut.1, cut.2)

/-- The expansion ends every literal and every comment inside the piece. -/
def expandClosed : Nat → List Char → Bool
  | 0, cs => cs = []
  | fuel + 1, cs => cs = [] || ((expandStep cs).closed && expandClosed fuel (expandStep cs).rest)

/-- The lexer reads no mark in the piece and, where a value follows, ends everything inside it, the
last string before its last character. -/
def lexClosed (env : LexerEnv) (followed : Bool) : Nat → Bool → List Char → Bool
  | 0, _, cs => cs = []
  | fuel + 1, afterValue, cs =>
    let lexed := nextLexeme env afterValue cs
    cs = [] || (!peekIs cs (· == '?') &&
      (!followed || lexed.closed && (!peekIs cs (· == '\'') || lexed.rest ≠ [])) &&
      lexClosed env followed fuel (endsValue afterValue lexed.tokens) lexed.rest)

/-- The pieces between the counted `?` are read by themselves: nothing runs over a `?`, and no `?`
touches a string or another `?`. -/
def PiecesClosed (env : LexerEnv) : Bool → List Char → List (List Char) → Prop
  | afterValue, piece, [] =>
    lexClosed env false (expandOf piece).length afterValue (expandOf piece) = true
  | afterValue, piece, next :: pieces =>
    expandClosed piece.length piece = true ∧
      lexClosed env true (expandOf piece).length afterValue (expandOf piece) ∧
      peekIs (expandOf next) (· == '\'') = false ∧ (pieces ≠ [] → expandOf next ≠ []) ∧
      PiecesClosed env true next pieces

instance decidablePiecesClosed (env : LexerEnv) : ∀ (afterValue : Bool) (piece : List Char)
    (pieces : List (List Char)), Decidable (PiecesClosed env afterValue piece pieces)
  | _, _, [] => inferInstanceAs (Decidable (_ = true))
  | _, piece, next :: pieces =>
    have := decidablePiecesClosed env true next pieces
    inferInstanceAs (Decidable (expandClosed piece.length piece ∧
      lexClosed env true (expandOf piece).length _ (expandOf piece) ∧
      peekIs (expandOf next) (· == '\'') = false ∧ (pieces ≠ [] → expandOf next ≠ []) ∧
      PiecesClosed env true next pieces))

def MarksApart (env : LexerEnv) (query : List Char) : Prop :=
  PiecesClosed env false (cutLoop false ' ' query).1 (cutLoop false ' ' query).2

instance (env : LexerEnv) (query : List Char) : Decidable (MarksApart env query) :=
  inferInstanceAs (Decidable (PiecesClosed env false _ _))

/-- The pieces with a text between them; a `?` where there is none left. -/
def joinPieces : List (List Char) → List Char → List (List Char) → List Char
  | _, piece, [] => piece
  | params, piece, next :: pieces =>
    piece ++ params.headD ['?'] ++ joinPieces params.tail next pieces

theorem bindLoop_eq_joinPieces : ∀ (inStr : Bool) (prev : Char) (params : List (List Char))
    (query : List Char), bindLoop inStr prev params query =
      joinPieces params (cutLoop inStr prev query).1 (cutLoop inStr prev query).2
  | _, _, _, [] => rfl
  | inStr, prev, params, c :: cs => by
      rw [bindLoop, cutLoop]
      split
      · rw [bindLoop_eq_joinPieces]
        rfl
      · rw [bindLoop_eq_joinPieces]
        cases (cutLoop (inStrAfter inStr prev c) c cs).2 with
        | nil => rfl
        | cons next pieces => simp [joinPieces]

theorem bindLoop_nil : ∀ (inStr : Bool) (prev : Char) (query : List Char),
    bindLoop inStr prev [] query = query
  | _, _, [] => rfl
  | inStr, prev, c :: cs => by
      rw [bindLoop]
      split
      · next h => simp [h.1, bindLoop_nil]
      · rw [bindLoop_nil]

theorem countLoop_eq_length : ∀ (inStr : Bool) (prev : Char) (query : List Char),
    countLoop inStr prev query = (cutLoop inStr prev query).2.length
  | _, _, [] => rfl
  | inStr, prev, c :: cs => by
      rw [countLoop, cutLoop]
      split
      · rw [countLoop_eq_length, List.length_cons, Nat.add_comm]
      · rw [countLoop_eq_length, Nat.zero_add]

variable {value : List Char}

theorem escapeQuotes_cons (c : Char) (value : List Char) :
    escapeQuotes (c :: value) =
      (if c = '\'' then ['\'', '\''] else [c]) ++ escapeQuotes value := by
  rw [escapeQuotes, List.flatMap_cons]
  rfl

theorem backslashesKept_escape (h : backslashesKept ('\\' :: value)) :
    ∃ d rest, value = d :: rest ∧ (d = '%' ∨ d = '_') ∧ backslashesKept rest := by
  cases value with
  | nil => simp [backslashesKept, peekIs] at h
  | cons d rest =>
    simp only [backslashesKept, peekIs, List.head?_cons, Option.any_some, Bool.and_eq_true,
      Bool.or_eq_true, beq_iff_eq] at h
    exact ⟨d, rest, rfl, by simpa using h.1, h.2.2⟩

theorem backslashesKept_tail {c : Char} (h : backslashesKept (c :: value)) :
    backslashesKept value := by
  rw [backslashesKept, Bool.and_eq_true] at h
  exact h.2

theorem ne_quote_of_kept {d : Char} (h : d = '%' ∨ d = '_') : d ≠ '\'' ∧ d ≠ '\\' := by
  rcases h with rfl | rfl
  · decide
  · decide

theorem escapeQuotes_append_eq_cons (value rest : List Char) :
    ∃ d more, escapeQuotes value ++ '\'' :: rest = d :: more := by
  cases value with
  | nil => exact ⟨'\'', rest, rfl⟩
  | cons c value =>
    rw [escapeQuotes_cons]
    split
    · exact ⟨_, _, rfl⟩
    · exact ⟨_, _, rfl⟩

theorem readString_escapeQuotes {rest : List Char} (hrest : peekIs rest (· == '\'') = false) :
    ∀ {value : List Char}, backslashesKept value →
      readString (escapeQuotes value ++ '\'' :: rest) = ⟨value, rest, true⟩
  | [], _ => by
      cases rest with
      | nil => rfl
      | cons d rest =>
        have hd : d ≠ '\'' := by simpa [peekIs] using hrest
        simp [escapeQuotes, readString, hd]
  | c :: value, h => by
      have htail := backslashesKept_tail h
      rw [escapeQuotes_cons]
      by_cases hquote : c = '\''
      · have ih := readString_escapeQuotes hrest htail
        simp [hquote, readString, ih, push]
      by_cases hescape : c = '\\'
      · subst hescape
        obtain ⟨d, more, rfl, hd, hmore⟩ := backslashesKept_escape h
        have ih := readString_escapeQuotes hrest hmore
        have hunescape : unescape d = ['\\', d] := by
          rcases hd with rfl | rfl
          · rfl
          · rfl
        simp [escapeQuotes_cons, (ne_quote_of_kept hd).1, readString, ih, push, hunescape]
      · have ih := readString_escapeQuotes hrest htail
        obtain ⟨d, more, hmore⟩ := escapeQuotes_append_eq_cons value rest
        rw [hmore] at ih
        simp [hquote, hescape, hmore, readString, ih, push]

/-- The expansion copies the inside of a value, in one literal or in several. -/
theorem copyLiteral_escapeQuotes (rest : List Char) : ∀ {value : List Char},
    backslashesKept value →
      (copyLiteral '\'' (escapeQuotes value ++ '\'' :: rest)).text ++
          expandOf (copyLiteral '\'' (escapeQuotes value ++ '\'' :: rest)).rest =
        escapeQuotes value ++ '\'' :: expandOf rest
  | [], _ => by
      cases rest with
      | nil => rfl
      | cons d rest => simp [escapeQuotes, copyLiteral]
  | c :: value, h => by
      have htail := backslashesKept_tail h
      obtain ⟨d, more, hmore⟩ := escapeQuotes_append_eq_cons value rest
      rw [escapeQuotes_cons]
      by_cases hquote : c = '\''
      · have ih := copyLiteral_escapeQuotes rest htail
        simp [hquote, copyLiteral, expandOf_cons, expandStep, ih, push]
      by_cases hescape : c = '\\'
      · subst hescape
        obtain ⟨d, more, rfl, hd, hmore⟩ := backslashesKept_escape h
        have ih := copyLiteral_escapeQuotes rest hmore
        simp [escapeQuotes_cons, (ne_quote_of_kept hd).1, copyLiteral, ih, push]
      · have ih := copyLiteral_escapeQuotes rest htail
        rw [hmore] at ih
        simp [hquote, hescape, hmore, copyLiteral, push, ih]

/-- What the lexer is given for the inside of a value, once the expansion has copied it. -/
def copiedInside (rest value : List Char) : List Char :=
  (copyLiteral '\'' (escapeQuotes value ++ '\'' :: rest)).text ++
    expandOf (copyLiteral '\'' (escapeQuotes value ++ '\'' :: rest)).rest

theorem copiedInside_nil (rest : List Char) : copiedInside rest [] = '\'' :: expandOf rest :=
  copyLiteral_escapeQuotes rest rfl

theorem copiedInside_quote (rest value : List Char) :
    copiedInside rest ('\'' :: value) = '\'' :: '\'' :: copiedInside rest value := by
  simp [copiedInside, escapeQuotes_cons, copyLiteral, expandOf_cons, expandStep, push]

theorem copiedInside_char {c : Char} (hquote : c ≠ '\'') (hescape : c ≠ '\\')
    (rest value : List Char) : copiedInside rest (c :: value) = c :: copiedInside rest value := by
  obtain ⟨d, more, hmore⟩ := escapeQuotes_append_eq_cons value rest
  simp [copiedInside, escapeQuotes_cons, hquote, hescape, hmore, copyLiteral, push]

theorem copiedInside_escape {d : Char} (hquote : d ≠ '\'') (rest value : List Char) :
    copiedInside rest ('\\' :: d :: value) = '\\' :: d :: copiedInside rest value := by
  simp [copiedInside, escapeQuotes_cons, hquote, copyLiteral, push]

theorem copiedInside_escape_quote (rest : List Char)
    (h : value = [] ∨ ∃ more, value = '\'' :: more) :
    ∃ more, copiedInside rest ('\\' :: value) = '\\' :: '\'' :: more := by
  rcases h with rfl | ⟨more, rfl⟩
  · exact ⟨_, by simp [copiedInside, escapeQuotes, copyLiteral, push]; rfl⟩
  · exact ⟨_, by simp [copiedInside, escapeQuotes_cons, copyLiteral, push]; rfl⟩

theorem readString_char {c : Char} (hquote : c ≠ '\'') (hescape : c ≠ '\\') (cs : List Char) :
    (readString (c :: cs)).text = c :: (readString cs).text := by
  cases cs with
  | nil => simp [readString, hquote, hescape]
  | cons d cs => simp [readString, hquote, hescape, push]

theorem readString_closing (cs : List Char) :
    (readString ('\'' :: cs)).text = [] ∨
      ∃ more, (readString ('\'' :: cs)).text = '\'' :: more := by
  cases cs with
  | nil => exact .inl rfl
  | cons d cs =>
    by_cases hd : d = '\''
    · exact .inr ⟨(readString cs).text, by simp [readString, hd, push]⟩
    · exact .inl (by simp [readString, hd])

theorem unescape_eq_cons {d : Char} {more : List Char} (h : unescape d = '\\' :: more) :
    (d = '%' ∨ d = '_') ∧ more = [d] ∨ d = '\\' ∧ more = [] := by
  unfold unescape at h
  split_ifs at h with h1 h2 h3 h4 h5 h6 h7
  · exact absurd (List.cons.inj h).1 (by decide)
  · exact absurd (List.cons.inj h).1 (by decide)
  · exact absurd (List.cons.inj h).1 (by decide)
  · exact absurd (List.cons.inj h).1 (by decide)
  · exact absurd (List.cons.inj h).1 (by decide)
  · exact absurd (List.cons.inj h).1 (by decide)
  · exact .inl ⟨h7, (List.cons.inj h).2.symm⟩
  · exact .inr ⟨(List.cons.inj h).1, (List.cons.inj h).2.symm⟩

theorem unescape_ne_nil (d : Char) : unescape d ≠ [] := by
  unfold unescape
  split_ifs
  all_goals exact List.cons_ne_nil _ _

/-- A value that is read back keeps all its backslashes. The induction needs the readings with too
many backslashes at the front only. -/
theorem backslashesKept_of_readString (rest : List Char) : ∀ {k : Nat} {value : List Char},
    (readString (copiedInside rest value)).text = List.replicate k '\\' ++ value →
      k = 0 ∧ backslashesKept value = true
  | k, [], h => by
      rw [copiedInside_nil, List.append_nil] at h
      cases k with
      | zero => exact ⟨rfl, rfl⟩
      | succ k =>
        rw [List.replicate_succ] at h
        rcases readString_closing (expandOf rest) with hnil | ⟨more, hmore⟩
        · rw [hnil] at h
          exact nomatch h
        · rw [hmore] at h
          exact absurd (List.cons.inj h).1 (by decide)
  | k, c :: value, h => by
      by_cases hescape : c = '\\'
      · subst hescape
        have hfront : List.replicate k '\\' ++ '\\' :: value =
            '\\' :: (List.replicate k '\\' ++ value) := by
          rw [← List.cons_append, ← List.replicate_succ, List.replicate_succ', List.append_assoc]
          rfl
        rw [hfront] at h
        by_cases hquote : value = [] ∨ ∃ more, value = '\'' :: more
        · obtain ⟨more, hmore⟩ := copiedInside_escape_quote rest hquote
          rw [hmore] at h
          simp only [readString, if_true, push] at h
          exact absurd (List.cons.inj h).1 (by decide)
        · obtain ⟨d, value, rfl⟩ : ∃ d more, value = d :: more := by
            cases value with
            | nil => exact absurd (.inl rfl) hquote
            | cons d more => exact ⟨d, more, rfl⟩
          have hd : d ≠ '\'' := fun hd => hquote (.inr ⟨value, by rw [hd]⟩)
          rw [copiedInside_escape hd] at h
          have hread : unescape d ++ (readString (copiedInside rest value)).text =
              '\\' :: (List.replicate k '\\' ++ d :: value) := by
            simpa [readString, push] using h
          obtain ⟨e, more, hunescape⟩ := List.exists_cons_of_ne_nil (unescape_ne_nil d)
          rw [hunescape, List.cons_append] at hread
          obtain ⟨rfl, htail⟩ := List.cons.inj hread
          rcases unescape_eq_cons hunescape with ⟨hkept, rfl⟩ | ⟨rfl, rfl⟩
          · cases k with
            | zero =>
              have ih := backslashesKept_of_readString rest (k := 0) (List.cons.inj htail).2
              rcases hkept with rfl | rfl
              · simpa [backslashesKept, peekIs] using ih.2
              · simpa [backslashesKept, peekIs] using ih.2
            | succ k => exact absurd (List.cons.inj htail).1 (ne_quote_of_kept hkept).2
          · have hlonger : (readString (copiedInside rest value)).text =
                List.replicate (k + 1) '\\' ++ value := by
              rw [List.replicate_succ', List.append_assoc]
              exact htail
            exact absurd (backslashesKept_of_readString rest hlonger).1 (Nat.succ_ne_zero k)
      · have htext : (readString (copiedInside rest (c :: value))).text =
            c :: (readString (copiedInside rest value)).text := by
          by_cases hquote : c = '\''
          · rw [hquote, copiedInside_quote]
            simp [readString, push]
          · rw [copiedInside_char hquote hescape, readString_char hquote hescape]
        rw [htext] at h
        cases k with
        | zero =>
          have ih := backslashesKept_of_readString rest (k := 0) (List.cons.inj h).2
          exact ⟨rfl, by simp [backslashesKept, hescape, ih.2]⟩
        | succ k => exact absurd (List.cons.inj h).1 hescape

theorem expandOf_renderValue (h : backslashesKept value) (rest : List Char) :
    expandOf (renderValue value ++ rest) = renderValue value ++ expandOf rest := by
  have hcopy := copyLiteral_escapeQuotes rest h
  simp only [renderValue, List.cons_append, List.append_assoc, List.nil_append, expandOf_cons]
  simp only [expandStep, true_or, if_true, push, List.cons_append, List.nil_append, hcopy]

theorem expandOf_renderValue_eq_cons (value rest : List Char) :
    expandOf (renderValue value ++ rest) = '\'' :: copiedInside rest value := by
  simp only [renderValue, List.cons_append, List.append_assoc, List.nil_append, expandOf_cons]
  simp only [expandStep, true_or, if_true, push, List.cons_append, List.nil_append]
  rfl

theorem tokensOf_expandOf_renderValue (env : LexerEnv) (afterValue : Bool)
    (value rest : List Char) :
    ∃ more, tokensOf env afterValue (expandOf (renderValue value ++ rest)) =
      ⟨.stringLit, (readString (copiedInside rest value)).text⟩ :: more := by
  have hnext : nextLexeme env afterValue ('\'' :: copiedInside rest value) =
      ⟨[⟨.stringLit, (readString (copiedInside rest value)).text⟩],
        (readString (copiedInside rest value)).rest,
        (readString (copiedInside rest value)).closed⟩ := rfl
  rw [expandOf_renderValue_eq_cons, tokensOf_cons, hnext]
  exact ⟨_, rfl⟩

theorem tokensOf_renderValue {env : LexerEnv} {afterValue : Bool} {rest : List Char}
    (h : backslashesKept value) (hrest : peekIs rest (· == '\'') = false) :
    tokensOf env afterValue (renderValue value ++ rest) =
      ⟨.stringLit, value⟩ :: tokensOf env true rest := by
  have hread := readString_escapeQuotes hrest h
  have hnext : nextLexeme env afterValue ('\'' :: (escapeQuotes value ++ '\'' :: rest)) =
      ⟨[⟨.stringLit, value⟩], rest, true⟩ := by
    simp [nextLexeme, isSpace, hread]
  simp only [renderValue, List.cons_append, List.append_assoc, List.nil_append, tokensOf_cons,
    hnext]
  rfl

section

variable {env : LexerEnv}

theorem endsValue_append (afterValue : Bool) (before after : List Token) :
    endsValue (endsValue afterValue before) after = endsValue afterValue (before ++ after) := by
  cases hafter : after.getLast? with
  | none =>
    obtain rfl := List.getLast?_eq_none_iff.mp hafter
    rw [List.append_nil]
    rfl
  | some t => simp [endsValue, hafter]

/-- A piece is read alike before a value and by itself. -/
theorem tokensOf_piece {x : Char} (hx : EndsPiece x) (t : List Char) : ∀ {fuel : Nat}
    {afterValue : Bool} {piece : List Char}, lexClosed env true fuel afterValue piece →
    tokensOf env afterValue (piece ++ x :: t) = tokensOf env afterValue piece ++
      tokensOf env (endsValue afterValue (tokensOf env afterValue piece)) (x :: t)
  | _, _, [], _ => rfl
  | 0, _, c :: piece, h => by simp [lexClosed] at h
  | fuel + 1, afterValue, c :: piece, h => by
      simp only [lexClosed, reduceCtorEq, decide_false, Bool.false_or, Bool.not_true,
        Bool.and_eq_true, Bool.or_eq_true] at h
      obtain ⟨⟨-, hclosed, hstring⟩, hrest⟩ := h
      have hnext : nextLexeme env afterValue (c :: piece ++ x :: t) =
          (nextLexeme env afterValue (c :: piece)).append (x :: t) :=
        nextLexeme_append hx t hclosed fun hquote => by simpa [hquote, peekIs] using hstring
      rw [tokensOf_cons, List.cons_append, tokensOf_cons, ← List.cons_append, hnext]
      simp only [Lexed.append, tokensOf_piece hx t hrest, List.append_assoc, endsValue_append]

def markedOf (env : LexerEnv) (afterValue : Bool) (cs : List Char) : List (Option Token) :=
  markedLoop env cs.length afterValue cs

theorem markedLoop_of_le : ∀ {fuel fuel' : Nat} {afterValue : Bool}
    {cs : List Char}, cs.length ≤ fuel → cs.length ≤ fuel' →
    markedLoop env fuel afterValue cs = markedLoop env fuel' afterValue cs
  | 0, fuel', _, [], _, _ | fuel + 1, fuel', _, [], _, _ => by cases fuel' <;> simp [markedLoop]
  | 0, _, _, c :: cs, h, _ => absurd h (by simp)
  | _ + 1, 0, _, c :: cs, _, h => absurd h (by simp)
  | fuel + 1, fuel' + 1, afterValue, c :: cs, h, h' => by
      have hrest := (nextLexeme_suffix env afterValue c cs).length_le
      simp only [List.length_cons, Nat.add_le_add_iff_right] at h h'
      simp only [markedLoop, reduceCtorEq, if_false, List.tail_cons,
        markedLoop_of_le (hrest.trans h) (hrest.trans h'), markedLoop_of_le h h']

theorem markedOf_mark (afterValue : Bool) (cs : List Char) :
    markedOf env afterValue ('?' :: cs) = none :: markedOf env true cs := by
  simp [markedOf, markedLoop, peekIs]

theorem markedOf_cons {c : Char} (hc : c ≠ '?') (afterValue : Bool) (cs : List Char) :
    markedOf env afterValue (c :: cs) =
      (nextLexeme env afterValue (c :: cs)).tokens.map some ++
        markedOf env (endsValue afterValue (nextLexeme env afterValue (c :: cs)).tokens)
          (nextLexeme env afterValue (c :: cs)).rest := by
  have hrest := (nextLexeme_suffix env afterValue c cs).length_le
  have hpeek : peekIs (c :: cs) (· == '?') = false := by simpa [peekIs] using hc
  rw [markedOf, List.length_cons, markedLoop, if_neg (List.cons_ne_nil c cs), hpeek]
  simp only [Bool.false_eq_true, if_false, markedLoop_of_le hrest le_rfl]
  rfl

theorem markedOf_piece (t : List Char) : ∀ {fuel : Nat} {afterValue : Bool} {piece : List Char},
    lexClosed env true fuel afterValue piece →
    markedOf env afterValue (piece ++ '?' :: t) = (tokensOf env afterValue piece).map some ++
      none :: markedOf env true t
  | _, afterValue, [], _ => markedOf_mark afterValue t
  | 0, _, c :: piece, h => by simp [lexClosed] at h
  | fuel + 1, afterValue, c :: piece, h => by
      simp only [lexClosed, reduceCtorEq, decide_false, Bool.false_or, Bool.not_true,
        Bool.and_eq_true, Bool.or_eq_true] at h
      obtain ⟨⟨hmark, hclosed, hstring⟩, hrest⟩ := h
      have hc : c ≠ '?' := by simpa [peekIs] using hmark
      have hnext : nextLexeme env afterValue (c :: piece ++ '?' :: t) =
          (nextLexeme env afterValue (c :: piece)).append ('?' :: t) :=
        nextLexeme_append (.inl rfl) t hclosed fun hquote => by
          simpa [hquote, peekIs] using hstring
      rw [tokensOf_cons, List.cons_append, markedOf_cons hc, ← List.cons_append, hnext]
      simp only [Lexed.append, markedOf_piece t hrest, List.append_assoc, List.map_append]

/-- The last piece has no mark. -/
theorem markedOf_last : ∀ {fuel : Nat} {afterValue : Bool} {piece : List Char},
    lexClosed env false fuel afterValue piece →
    markedOf env afterValue piece = (tokensOf env afterValue piece).map some
  | _, _, [], _ => rfl
  | 0, _, c :: piece, h => by simp [lexClosed] at h
  | fuel + 1, afterValue, c :: piece, h => by
      simp only [lexClosed, reduceCtorEq, decide_false, Bool.false_or, Bool.not_false,
        Bool.true_or, Bool.and_true, Bool.and_eq_true] at h
      have hc : c ≠ '?' := by simpa [peekIs] using h.1
      rw [tokensOf_cons, markedOf_cons hc, markedOf_last h.2, List.map_append]

theorem fillMarks_append (values : List (List Char)) (tokens : List Token)
    (read : List (Option Token)) :
    fillMarks values (tokens.map some ++ read) = tokens ++ fillMarks values read := by
  induction tokens with
  | nil => rfl
  | cons t tokens ih =>
    rw [List.map_cons, List.cons_append, List.cons_append, ← ih]
    rfl

theorem expandOf_piece {x : Char} (hx : EndsPiece x) (t : List Char) : ∀ {fuel : Nat}
    {piece : List Char}, expandClosed fuel piece →
    expandOf (piece ++ x :: t) = expandOf piece ++ expandOf (x :: t)
  | _, [], _ => rfl
  | 0, c :: piece, h => by simp [expandClosed] at h
  | fuel + 1, c :: piece, h => by
      simp only [expandClosed, reduceCtorEq, decide_false, Bool.false_or, Bool.and_eq_true] at h
      rw [expandOf_cons, List.cons_append, expandOf_cons, ← List.cons_append,
        expandStep_append hx t h.1]
      simp only [append, expandOf_piece hx t h.2, List.append_assoc]

theorem expandOf_mark (t : List Char) : expandOf ('?' :: t) = '?' :: expandOf t := by
  rw [expandOf_cons]
  rfl

/-- A text that the expansion copies and that may stand behind a piece. -/
structure Copied (text : List Char) : Prop where
  head : ∃ x t, EndsPiece x ∧ text = x :: t
  expand : ∀ rest, expandOf (text ++ rest) = text ++ expandOf rest

theorem copied_mark : Copied ['?'] :=
  ⟨⟨'?', [], .inl rfl, rfl⟩, expandOf_mark⟩

theorem copied_renderValue (h : backslashesKept value) : Copied (renderValue value) :=
  ⟨⟨'\'', _, .inr rfl, rfl⟩, expandOf_renderValue h⟩

theorem copied_headD {params : List (List Char)} (h : ∀ r ∈ params, Copied r) :
    Copied (params.headD ['?']) := by
  cases params with
  | nil => exact copied_mark
  | cons r params => exact h r List.mem_cons_self

/-- The expansion works on every piece by itself. -/
theorem expandOf_joinPieces : ∀ {afterValue : Bool} {params : List (List Char)}
    {piece : List Char} {pieces : List (List Char)}, PiecesClosed env afterValue piece pieces →
    (∀ r ∈ params, Copied r) →
    expandOf (joinPieces params piece pieces) =
      joinPieces params (expandOf piece) (pieces.map expandOf)
  | _, _, _, [], _, _ => rfl
  | _, params, piece, next :: pieces, h, hparams => by
      obtain ⟨hexpand, -, -, -, hnext⟩ := h
      have hcopied := copied_headD hparams
      obtain ⟨x, t, hx, htext⟩ := hcopied.head
      have hpiece : expandOf (piece ++ (params.headD ['?'] ++ joinPieces params.tail next pieces)) =
          expandOf piece ++
            expandOf (params.headD ['?'] ++ joinPieces params.tail next pieces) := by
        rw [htext]
        exact expandOf_piece hx _ hexpand
      rw [joinPieces, List.append_assoc, hpiece, hcopied.expand,
        expandOf_joinPieces hnext fun r hr => hparams r (List.mem_of_mem_tail hr), List.map_cons,
        joinPieces, List.append_assoc]

theorem peekIs_joinPieces {params : List (List Char)} {piece : List Char}
    {pieces : List (List Char)} (hpiece : peekIs piece (· == '\'') = false)
    (hne : pieces ≠ [] → piece ≠ []) : peekIs (joinPieces params piece pieces)
      (· == '\'') = false := by
  cases pieces with
  | nil => exact hpiece
  | cons next pieces =>
    cases piece with
    | nil => exact absurd rfl (hne (List.cons_ne_nil _ _))
    | cons c piece => exact hpiece

/-- The bound text is read as the query with its marks filled in. -/
theorem tokensOf_joinPieces : ∀ {afterValue : Bool} {values : List (List Char)}
    {piece : List Char} {pieces : List (List Char)}, PiecesClosed env afterValue piece pieces →
    values.length = pieces.length → (∀ v ∈ values, backslashesKept v) →
    tokensOf env afterValue
        (joinPieces (values.map renderValue) (expandOf piece) (pieces.map expandOf)) =
      fillMarks values
        (markedOf env afterValue (joinPieces [] (expandOf piece) (pieces.map expandOf)))
  | afterValue, values, piece, [], h, hlength, _ => by
      obtain rfl := List.length_eq_zero_iff.mp hlength
      simp only [List.map_nil, joinPieces, markedOf_last h]
      have hfill := fillMarks_append [] (tokensOf env afterValue (expandOf piece)) []
      rw [List.append_nil, fillMarks, List.append_nil] at hfill
      exact hfill.symm
  | _, [], _, _ :: _, _, hlength, _ => by simp at hlength
  | afterValue, v :: values, piece, next :: pieces, h, hlength, hkept => by
      obtain ⟨-, hlex, hquote, hne, hnext⟩ := h
      have hrest : peekIs (joinPieces (values.map renderValue) (expandOf next)
          (pieces.map expandOf)) (· == '\'') = false :=
        peekIs_joinPieces hquote fun hpieces => hne fun hnil => hpieces (by rw [hnil]; rfl)
      have ih := tokensOf_joinPieces hnext (by simpa using hlength)
        fun w hw => hkept w (.tail _ hw)
      have hpiece : ∀ rest, tokensOf env afterValue (expandOf piece ++ (renderValue v ++ rest)) =
          tokensOf env afterValue (expandOf piece) ++
            tokensOf env (endsValue afterValue (tokensOf env afterValue (expandOf piece)))
              (renderValue v ++ rest) :=
        fun rest => tokensOf_piece (.inr rfl) _ hlex
      simp only [List.map_cons, joinPieces, List.headD_cons, List.tail_cons, List.headD_nil,
        List.tail_nil, List.append_assoc, List.cons_append, List.nil_append]
      rw [hpiece, tokensOf_renderValue (hkept v List.mem_cons_self) hrest, ih,
        markedOf_piece _ hlex, fillMarks_append]
      rfl

theorem peekIs_expandOf_joinPieces {afterValue : Bool} {values : List (List Char)}
    {piece : List Char} {pieces : List (List Char)} (h : PiecesClosed env afterValue piece pieces)
    (hquote : peekIs (expandOf piece) (· == '\'') = false)
    (hne : pieces ≠ [] → expandOf piece ≠ []) :
    peekIs (expandOf (joinPieces (values.map renderValue) piece pieces)) (· == '\'') = false := by
  cases pieces with
  | nil => exact hquote
  | cons next pieces =>
    have hhead : ∃ x t, EndsPiece x ∧ (values.map renderValue).headD ['?'] = x :: t := by
      cases values with
      | nil => exact ⟨'?', [], .inl rfl, rfl⟩
      | cons v values => exact ⟨'\'', _, .inr rfl, rfl⟩
    obtain ⟨x, t, hx, htext⟩ := hhead
    obtain ⟨c, more, hmore⟩ := List.exists_cons_of_ne_nil (hne (List.cons_ne_nil _ _))
    rw [joinPieces, htext, List.append_assoc, List.cons_append, expandOf_piece hx _ h.1, hmore]
    rw [hmore] at hquote
    exact hquote

/-- A bound text that is read as the query with its marks filled in has lost no backslash of
a value. -/
theorem backslashesKept_of_tokensOf : ∀ {afterValue : Bool} {values : List (List Char)}
    {piece : List Char} {pieces : List (List Char)}, PiecesClosed env afterValue piece pieces →
    values.length = pieces.length →
    tokensOf env afterValue (expandOf (joinPieces (values.map renderValue) piece pieces)) =
      fillMarks values
        (markedOf env afterValue (joinPieces [] (expandOf piece) (pieces.map expandOf))) →
    ∀ v ∈ values, backslashesKept v = true
  | _, values, _, [], _, hlength, _ => by
      obtain rfl := List.length_eq_zero_iff.mp hlength
      exact fun v hv => (List.not_mem_nil hv).elim
  | _, [], _, _ :: _, _, hlength, _ => by simp at hlength
  | afterValue, v :: values, piece, next :: pieces, h, hlength, htokens => by
      obtain ⟨hexpand, hlex, hquote, hne, hnext⟩ := h
      have hafter : ∀ rest, tokensOf env afterValue (expandOf (piece ++ (renderValue v ++ rest))) =
          tokensOf env afterValue (expandOf piece) ++
            tokensOf env (endsValue afterValue (tokensOf env afterValue (expandOf piece)))
              (expandOf (renderValue v ++ rest)) := by
        intro rest
        have hpiece : expandOf (piece ++ (renderValue v ++ rest)) =
            expandOf piece ++ expandOf (renderValue v ++ rest) :=
          expandOf_piece (.inr rfl) _ hexpand
        rw [hpiece, expandOf_renderValue_eq_cons]
        exact tokensOf_piece (.inr rfl) _ hlex
      simp only [List.map_cons, joinPieces, List.headD_cons, List.tail_cons, List.headD_nil,
        List.tail_nil, List.append_assoc, List.cons_append, List.nil_append] at htokens
      rw [hafter, markedOf_piece _ hlex, fillMarks_append] at htokens
      have hvalue := List.append_cancel_left htokens
      obtain ⟨more, hmore⟩ := tokensOf_expandOf_renderValue env
        (endsValue afterValue (tokensOf env afterValue (expandOf piece))) v
        (joinPieces (values.map renderValue) next pieces)
      have hkept : backslashesKept v := by
        rw [hmore] at hvalue
        have htext := congrArg Token.text (List.cons.inj hvalue).1
        exact (backslashesKept_of_readString _ (k := 0) htext).2
      have hrest : peekIs (expandOf (joinPieces (values.map renderValue) next pieces))
          (· == '\'') = false :=
        peekIs_expandOf_joinPieces hnext hquote hne
      rw [expandOf_renderValue hkept, tokensOf_renderValue hkept hrest] at hvalue
      have ih := backslashesKept_of_tokensOf hnext (by simpa using hlength)
        (List.cons.inj hvalue).2
      intro w hw
      rcases List.mem_cons.mp hw with rfl | hw
      · exact hkept
      · exact ih w hw

/-- The lexer finds as many marks as the query was cut at. -/
theorem count_markedOf_joinPieces : ∀ {afterValue : Bool} {piece : List Char}
    {pieces : List (List Char)}, PiecesClosed env afterValue piece pieces →
    (markedOf env afterValue (joinPieces [] (expandOf piece) (pieces.map expandOf))).count none =
      pieces.length
  | _, _, [], h => by
      simp only [List.map_nil, joinPieces, markedOf_last h]
      exact List.count_eq_zero.mpr (by simp)
  | afterValue, piece, next :: pieces, h => by
      obtain ⟨-, hlex, -, -, hnext⟩ := h
      have ih := count_markedOf_joinPieces hnext
      simp only [List.map_cons, joinPieces, List.headD_nil, List.tail_nil, List.append_assoc,
        List.cons_append, List.nil_append]
      rw [markedOf_piece _ hlex, List.count_append, List.count_cons_self, ih, List.length_cons,
        List.count_eq_zero.mpr (by simp), Nat.zero_add]

end

theorem readMarked_eq {env : LexerEnv} {query : List Char} (h : MarksApart env query) :
    readMarked env query = markedOf env false (joinPieces [] (expandOf (cutLoop false ' ' query).1)
      ((cutLoop false ' ' query).2.map expandOf)) := by
  have hquery : joinPieces [] (cutLoop false ' ' query).1 (cutLoop false ' ' query).2 = query := by
    rw [← bindLoop_eq_joinPieces, bindLoop_nil]
  rw [← expandOf_joinPieces h fun r hr => (List.not_mem_nil hr).elim, hquery, readMarked,
    expandExecutableComments_eq]
  rfl

theorem map_kind_fillMarks : ∀ {values : List (List Char)} {read : List (Option Token)},
    values.length = read.count none →
    (fillMarks values read).map Token.kind = read.map markedKind
  | _, [], _ => rfl
  | values, some t :: read, h => by
      rw [List.count_cons_of_ne (by simp)] at h
      rw [fillMarks, List.map_cons, List.map_cons, map_kind_fillMarks h]
      rfl
  | [], none :: read, h => by simp at h
  | v :: values, none :: read, h => by
      rw [List.count_cons_self, List.length_cons, Nat.add_right_cancel_iff] at h
      have ih := map_kind_fillMarks h
      simp only [fillMarks, List.head?_cons, Option.map_some, Option.toList_some, List.tail_cons,
        List.cons_append, List.nil_append, List.map_cons, ih]
      rfl

/-- A lexer with a few keywords. -/
def plainLexer : LexerEnv where
  keywordMap word :=
    if word = "SELECT".toList ∨ word = "FROM".toList ∨ word = "WHERE".toList ∨
        word = "OR".toList then some (.keyword (String.ofList word))
    else none
  writeNumber number exponent := number ++ exponent

end RusqlEngine
