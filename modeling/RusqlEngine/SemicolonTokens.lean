import RusqlEngine.LexerPieces
import RusqlEngine.StatementEnds

/-!
# Semicolons

The scan of statements and the lexer find the semicolons outside comments, strings and quoted
names: the scan where no word opens a body, the lexer where no executable comment is expanded.
Both are compared with a scanner that knows nothing but these texts.
-/

namespace RusqlEngine

open Scanner StatementSplit ScanState

/-- The loop of `Lexer::tokenize` over a text of `n` characters, each token with its `begin`. -/
def placedLoop (env : LexerEnv) (n : Nat) : Nat → Bool → List Char → List (Token × Nat)
  | 0, _, _ => []
  | fuel + 1, afterValue, cs =>
    if cs = [] then []
    else
      let lexed := nextLexeme env afterValue cs
      lexed.tokens.map (·, n - cs.length) ++
        placedLoop env n fuel (endsValue afterValue lexed.tokens) lexed.rest

/-- `Lexer::tokenize`, each token with its `begin`. -/
def placedTokens (env : LexerEnv) (sql : List Char) : List (Token × Nat) :=
  let input := expandExecutableComments sql
  placedLoop env input.length input.length false input

/-- The `begin` of every semicolon. -/
def semicolonOffsets (env : LexerEnv) (sql : List Char) : List Nat :=
  ((placedTokens env sql).filter (·.1.kind = .semicolon)).map Prod.snd

variable {cs : List Char}

/-- A scanner that knows comments, strings and quoted names only. -/
def outsideTurn (_ : Unit) : List Char → Turn Unit Char
  | [] => ⟨(), [], false⟩
  | c :: cs =>
    if opensLine c cs then ⟨(), cs.dropWhile (· ≠ '\n'), false⟩
    else if opensBlock c cs then ⟨(), pastBlock cs.tail, false⟩
    else if c = '\'' then ⟨(), pastString cs, false⟩
    else if c = '"' ∨ c = '`' then ⟨(), pastQuoted c cs, false⟩
    else ⟨(), cs, c == ';'⟩

def semicolonsOutside (cs : List Char) : List Nat :=
  marks outsideTurn () cs

theorem outsideTurn_consumes : Consumes outsideTurn := by
  intro _ c cs
  rw [outsideTurn]
  split
  · exact List.dropWhile_suffix _
  · split
    · exact (pastBlock_suffix _).trans (List.tail_suffix cs)
    · split
      · exact pastString_suffix cs
      · split
        · exact pastQuoted_suffix c cs
        · exact List.suffix_rfl

/-- No semicolon stands outside between the first text and the part of it that is left. -/
structure Skips (cs rest : List Char) : Prop where
  suffix : rest <:+ cs
  marks_eq : semicolonsOutside cs = (semicolonsOutside rest).map (· + (cs.length - rest.length))

theorem Skips.refl (cs : List Char) : Skips cs cs where
  suffix := List.suffix_rfl
  marks_eq := by
    rw [Nat.sub_self]
    simp

theorem Skips.trans {mid rest : List Char} (h : Skips cs mid) (h' : Skips mid rest) :
    Skips cs rest where
  suffix := h'.suffix.trans h.suffix
  marks_eq := by
    have hle := h.suffix.length_le
    have hle' := h'.suffix.length_le
    rw [h.marks_eq, h'.marks_eq, List.map_map]
    congr 1
    funext k
    simp only [Function.comp_apply]
    omega

theorem Skips.of_turn {c : Char} {cs rest : List Char}
    (h : outsideTurn () (c :: cs) = ⟨(), rest, false⟩) : Skips (c :: cs) rest where
  suffix := by
    have hsub := outsideTurn_consumes () c cs
    rw [h] at hsub
    exact hsub.trans (List.suffix_cons c cs)
  marks_eq := by
    rw [semicolonsOutside, marks_cons outsideTurn_consumes, h, if_neg Bool.false_ne_true,
      List.nil_append]
    rfl

def special : List Char :=
  ['\'', '"', '`', ';', '#', '-', '/']

theorem notMem_special {accepts : Char → Bool} (h : special.any accepts = false) {c : Char}
    (hc : accepts c) : c ∉ special := by
  intro hmem
  rw [List.any_eq_false] at h
  exact h c hmem hc

theorem Skips.cons {c : Char} (hc : c ∉ special) (cs : List Char) : Skips (c :: cs) cs := by
  simp only [special, List.mem_cons, List.not_mem_nil, or_false, not_or] at hc
  obtain ⟨hquote, hname, hbacktick, hsemicolon, hhash, hdash, hslash⟩ := hc
  refine .of_turn ?_
  rw [outsideTurn, if_neg (by simp [opensLine, hhash, hdash]),
    if_neg (by simp [opensBlock, hslash]), if_neg hquote,
    if_neg (not_or.mpr ⟨hname, hbacktick⟩), beq_false_of_ne hsemicolon]

theorem Skips.dash (h : peekIs cs (· == '-') = false) : Skips ('-' :: cs) cs :=
  .of_turn (by
    rw [outsideTurn, opensLine, h, if_neg (by decide), if_neg (by simp [opensBlock]),
      if_neg (by decide), if_neg (by decide)]
    rfl)

theorem Skips.slash (h : peekIs cs (· == '*') = false) : Skips ('/' :: cs) cs :=
  .of_turn (by
    rw [outsideTurn, opensBlock, h, if_neg (by simp [opensLine]), if_neg (by decide),
      if_neg (by decide), if_neg (by decide)]
    rfl)

theorem Skips.dropWhile {accepts : Char → Bool} (h : special.any accepts = false) :
    ∀ cs : List Char, Skips cs (cs.dropWhile accepts)
  | [] => .refl []
  | c :: cs => by
      rw [List.dropWhile_cons]
      split
      next hc => exact (Skips.cons (notMem_special h hc) cs).trans (Skips.dropWhile h cs)
      next => exact .refl _

theorem Skips.drop_one {accepts : Char → Bool} (h : special.any accepts = false)
    (hpeek : peekIs cs accepts) : Skips cs (cs.drop 1) := by
  cases cs with
  | nil => exact .refl []
  | cons c cs => exact .cons (notMem_special h hpeek) cs

theorem Skips.line {c : Char} (h : opensLine c cs) :
    Skips (c :: cs) (cs.dropWhile (· ≠ '\n')).tail := by
  have hturn : Skips (c :: cs) (cs.dropWhile (· ≠ '\n')) :=
    .of_turn (by rw [outsideTurn, if_pos h])
  refine hturn.trans ?_
  cases hfound : cs.dropWhile (· ≠ '\n') with
  | nil => exact .refl []
  | cons d rest =>
    have hhead := List.head?_dropWhile_not (· ≠ '\n') cs
    rw [hfound] at hhead
    have hnewline : d = '\n' := by simpa using hhead
    exact .cons (hnewline ▸ by decide) rest

theorem pastBlock_eq : ∀ cs : List Char, pastBlock cs = (skipBlock cs).rest
  | [] => rfl
  | [_] => rfl
  | c :: d :: cs => by
      rw [pastBlock, skipBlock]
      split
      · rfl
      · exact pastBlock_eq (d :: cs)

theorem Skips.block (h : peekIs cs (· == '*')) : Skips ('/' :: cs) (skipBlock (cs.drop 1)).rest :=
  .of_turn (by
    rw [outsideTurn, if_neg (by simp [opensLine]), opensBlock, h, if_pos (by decide),
      pastBlock_eq, List.drop_one])

theorem Skips.name {c : Char} (hc : c = '`' ∨ c = '"') (cs : List Char) :
    Skips (c :: cs) (readQuotedIdent c cs).rest :=
  .of_turn (by
    rcases hc with rfl | rfl
    · rfl
    · rfl)

/-- A doubled quote ends a string and begins the next one. -/
theorem Skips.pastString : ∀ cs : List Char, Skips (pastString cs) (readString cs).rest
  | [] => .refl []
  | [c] => by
      rw [readString]
      split
      · exact .refl []
      · split
        · exact .refl []
        · exact .refl []
  | c :: d :: cs => by
      rw [StatementSplit.pastString, readString]
      by_cases hquote : c = '\''
      · rw [if_neg (by rw [hquote]; decide), if_pos hquote, if_pos hquote]
        split
        next hd =>
          rw [hd]
          exact (Skips.of_turn rfl).trans (Skips.pastString cs)
        next => exact .refl _
      · rw [if_neg hquote, if_neg hquote]
        by_cases hescape : c = '\\'
        · rw [if_pos hescape, if_pos hescape]
          exact Skips.pastString cs
        · rw [if_neg hescape, if_neg hescape]
          exact Skips.pastString (d :: cs)

theorem Skips.string (cs : List Char) : Skips ('\'' :: cs) (readString cs).rest :=
  (Skips.of_turn rfl).trans (.pastString cs)

variable (env : LexerEnv)

/-- A lexeme without a semicolon, outside or as a token. -/
structure Passes (cs : List Char) (l : Lexed) : Prop where
  skips : Skips cs l.rest
  tokens : ∀ t ∈ l.tokens, t.kind ≠ .semicolon

theorem Passes.symbol {cs rest : List Char} {kind : TokenKind} (h : Skips cs rest)
    (hkind : kind ≠ .semicolon) : Passes cs (Lexed.symbol kind rest) where
  skips := h
  tokens := by
    intro t ht
    rw [List.mem_singleton.mp ht]
    exact hkind

theorem Passes.skip {rest : List Char} (h : Skips cs rest) : Passes cs (Lexed.skip rest) where
  skips := h
  tokens := nofun

theorem Passes.single {cs rest text : List Char} {kind : TokenKind} {closed : Bool}
    (h : Skips cs rest) (hkind : kind ≠ .semicolon) : Passes cs ⟨[⟨kind, text⟩], rest, closed⟩ where
  skips := h
  tokens := by
    intro t ht
    rw [List.mem_singleton.mp ht]
    exact hkind

theorem Passes.trans {mid : List Char} {l : Lexed} (h : Skips cs mid) (hl : Passes mid l) :
    Passes cs l where
  skips := h.trans hl.skips
  tokens := hl.tokens

theorem Passes.operator {short : Lexed} {extended : List (Char × TokenKind)}
    (hshort : Passes cs short) (hextended : ∀ e ∈ extended, e.1 ∉ special ∧ e.2 ≠ .semicolon) :
    Passes cs (lexOperator short extended cs) := by
  rw [lexOperator]
  split
  next e he =>
    have hmem := List.mem_of_find?_eq_some he
    have hpeek : peekIs cs (· == e.1) := by simpa using List.find?_some he
    refine .symbol (Skips.drop_one ?_ hpeek) (hextended e hmem).2
    rw [List.any_eq_false]
    intro c hc hce
    exact (hextended e hmem).1 (eq_of_beq hce ▸ hc)
  next => exact hshort

theorem Passes.less (cs : List Char) : Passes cs (lexLess cs) := by
  rw [lexLess]
  split
  next h =>
    exact .trans (Skips.drop_one rfl h)
      (.operator (.symbol (.refl _) (by decide)) (by decide))
  next => exact .operator (.symbol (.refl _) (by decide)) (by decide)

theorem Skips.exponentSign (h : peekIs (takeExponentSign cs).2 Char.isDigit) :
    Skips cs (takeExponentSign cs).2 := by
  rw [takeExponentSign] at h ⊢
  split
  next hsign =>
    rw [if_pos hsign] at h
    cases cs with
    | nil => exact .refl []
    | cons c cs =>
      have hnext : peekIs cs Char.isDigit := h
      by_cases hdash : c = '-'
      · have hpeek : peekIs cs (· == '-') = false := by
          cases cs with
          | nil => rfl
          | cons d cs =>
            refine beq_false_of_ne ?_
            rintro rfl
            cases hnext
        rw [hdash]
        exact .dash hpeek
      · have hplus : c = '+' := by
          have hc : c = '+' ∨ c = '-' := by simpa [peekIs] using hsign
          exact hc.resolve_right hdash
        rw [hplus]
        exact .cons (by decide) cs
  next => exact .refl cs

theorem Skips.exponent {env : LexerEnv} {number : List Char} {r : List Char × List Char}
    (h : readExponent env number cs = some r) : Skips cs r.2 := by
  obtain ⟨he, hdigit, hrest⟩ := readExponent_eq_some h
  rw [hrest]
  exact (Skips.drop_one rfl he).trans ((Skips.exponentSign hdigit).trans (.dropWhile rfl _))

theorem Passes.number (cs : List Char) : Passes cs (readNumber env cs) := by
  have hnumber : Skips cs (cs.dropWhile isNumberChar) := .dropWhile rfl cs
  rw [readNumber]
  split
  next text rest h => exact .single (hnumber.trans (Skips.exponent h)) (by decide)
  next =>
    split
    next h =>
      exact .single (hnumber.trans ((Skips.drop_one rfl h.2).trans (.dropWhile rfl _)))
        (by decide)
    next => exact .single hnumber (by decide)

theorem kind_identToken {env : LexerEnv}
    (hkeywords : ∀ word, env.keywordMap word ≠ some .semicolon) (word : List Char) :
    (identToken env word).kind ≠ .semicolon := by
  rw [identToken]
  split
  · simp
  · split
    · simp
    · split
      next kind hkind =>
        intro hsemicolon
        exact hkeywords _ (hkind.trans (congrArg some hsemicolon))
      next => simp

theorem Passes.ident {env : LexerEnv}
    (hkeywords : ∀ word, env.keywordMap word ≠ some .semicolon) (cs : List Char) :
    Passes cs (readIdent env cs) where
  skips := .dropWhile rfl cs
  tokens := by
    intro t ht
    rw [List.mem_singleton.mp ht]
    exact kind_identToken hkeywords _

theorem Passes.dash (afterValue : Bool) (cs : List Char) :
    Passes ('-' :: cs) (lexDash env afterValue cs) := by
  rw [lexDash]
  split
  next h =>
    exact ⟨.line (by rw [opensLine, h]; rfl), fun _ ht => absurd ht List.not_mem_nil⟩
  next hline =>
    have hdash : Skips ('-' :: cs) cs := .dash (by simpa using hline)
    split
    next h =>
      have harrow : Skips ('-' :: cs) (cs.drop 1) := hdash.trans (.drop_one rfl h)
      split
      next hlong =>
        have hdrop : cs.drop 2 = (cs.drop 1).drop 1 := by rw [List.drop_drop]
        exact .symbol (hdrop ▸ harrow.trans (.drop_one rfl hlong)) (by decide)
      next => exact .symbol harrow (by decide)
    next =>
      split
      next =>
        have hnumber : Skips ('-' :: cs) (cs.dropWhile isNumberChar) :=
          hdash.trans (.dropWhile rfl cs)
        dsimp only
        split
        next text rest h => exact .single (hnumber.trans (Skips.exponent h)) (by decide)
        next => exact .single hnumber (by decide)
      next => exact .symbol hdash (by decide)

theorem Passes.at (cs : List Char) : Passes cs (lexAt cs) := by
  rw [lexAt]
  split
  next h =>
    have hname : Skips cs ((cs.drop 1).dropWhile isNameChar) :=
      (Skips.drop_one rfl h).trans (.dropWhile rfl _)
    dsimp only
    split
    next hscope =>
      have hdot := (Bool.and_eq_true_iff.mp hscope).1
      refine ⟨hname.trans ((Skips.drop_one rfl hdot).trans (.dropWhile rfl _)), ?_⟩
      simp
    next =>
      refine ⟨hname, ?_⟩
      simp
  next => exact .symbol (.refl cs) (by decide)

theorem tokens_skipBlock : ∀ cs : List Char, (skipBlock cs).tokens = []
  | [] => rfl
  | [_] => rfl
  | c :: d :: cs => by
      rw [skipBlock]
      split
      · rfl
      · exact tokens_skipBlock (d :: cs)

theorem Passes.slash (cs : List Char) : Passes ('/' :: cs) (lexSlash cs) := by
  rw [lexSlash]
  split
  next h => exact ⟨.block h, by simp [tokens_skipBlock]⟩
  next h => exact .symbol (.slash (by simpa using h)) (by decide)

theorem singleKind_notMem {c : Char} {kind : TokenKind} (h : singleKind c = some kind)
    (hc : c ≠ ';') : c ∉ special ∧ kind ≠ .semicolon := by
  obtain ⟨front, behind, hsplit, -⟩ := List.lookup_eq_some_iff.mp h
  have hmem : (c, kind) ∈ front ++ (c, kind) :: behind :=
    List.mem_append_right front List.mem_cons_self
  rw [← hsplit] at hmem
  simp only [List.mem_cons, List.not_mem_nil, or_false, Prod.mk.injEq] at hmem
  rcases hmem with ⟨rfl, rfl⟩ | ⟨rfl, rfl⟩ | ⟨rfl, rfl⟩ | ⟨rfl, rfl⟩ | ⟨rfl, rfl⟩ | ⟨rfl, rfl⟩ |
    ⟨rfl, rfl⟩ | ⟨rfl, rfl⟩ | ⟨rfl, rfl⟩ | ⟨rfl, rfl⟩ | ⟨rfl, rfl⟩ | ⟨rfl, rfl⟩
  all_goals first
    | exact absurd rfl hc
    | exact ⟨by decide, by decide⟩

theorem Passes.nextLexeme {env : LexerEnv}
    (hkeywords : ∀ word, env.keywordMap word ≠ some .semicolon) (afterValue : Bool) {c : Char}
    (hc : c ≠ ';') (cs : List Char) :
    Passes (c :: cs) (RusqlEngine.nextLexeme env afterValue (c :: cs)) := by
  rw [RusqlEngine.nextLexeme]
  by_cases h1 : isSpace c = true
  · rw [if_pos h1]
    exact .skip (.cons (notMem_special rfl h1) cs)
  rw [if_neg h1]
  by_cases h2 : c = '-'
  · rw [if_pos h2, h2]
    exact .dash env afterValue cs
  rw [if_neg h2]
  by_cases h3 : c = '@'
  · rw [if_pos h3]
    exact .trans (.cons (h3 ▸ by decide) cs) (.at cs)
  rw [if_neg h3]
  by_cases h4 : c = '#'
  · rw [if_pos h4]
    exact ⟨.line (by rw [opensLine, h4]; rfl), fun _ ht => absurd ht List.not_mem_nil⟩
  rw [if_neg h4]
  by_cases h5 : c = '/'
  · rw [if_pos h5, h5]
    exact .slash cs
  rw [if_neg h5]
  by_cases h6 : c = '>'
  · rw [if_pos h6]
    exact .trans (.cons (h6 ▸ by decide) cs) (.operator (.symbol (.refl _) (by decide)) (by decide))
  rw [if_neg h6]
  by_cases h7 : c = '<'
  · rw [if_pos h7]
    exact .trans (.cons (h7 ▸ by decide) cs) (.less cs)
  rw [if_neg h7]
  by_cases h8 : c = '!'
  · rw [if_pos h8]
    exact .trans (.cons (h8 ▸ by decide) cs) (.operator (.symbol (.refl _) (by decide)) (by decide))
  rw [if_neg h8]
  by_cases h9 : c = ':'
  · rw [if_pos h9]
    exact .trans (.cons (h9 ▸ by decide) cs) (.operator (.skip (.refl _)) (by decide))
  rw [if_neg h9]
  by_cases h10 : c = '|'
  · rw [if_pos h10]
    exact .trans (.cons (h10 ▸ by decide) cs)
      (.operator (.symbol (.refl _) (by decide)) (by decide))
  rw [if_neg h10]
  by_cases h11 : c = '`' ∨ c = '"'
  · rw [if_pos h11]
    exact .single (.name h11 cs) (by decide)
  rw [if_neg h11]
  by_cases h12 : c = '\''
  · rw [if_pos h12, h12]
    exact .single (.string cs) (by decide)
  rw [if_neg h12]
  cases hsingle : singleKind c with
  | some kind =>
    have hkind := singleKind_notMem hsingle hc
    exact .symbol (.cons hkind.1 cs) hkind.2
  | none =>
    by_cases h13 : c.isDigit = true
    · simp only [if_pos h13]
      exact .number env (c :: cs)
    simp only [if_neg h13]
    by_cases h14 : (c.isAlpha || c == '_') = true
    · simp only [if_pos h14]
      exact .ident hkeywords (c :: cs)
    simp only [if_neg h14]
    rw [not_or] at h11
    have hnot : c ∉ special := by
      simp only [special, List.mem_cons, List.not_mem_nil, or_false, not_or]
      exact ⟨h12, h11.2, h11.1, hc, h4, h2, h5⟩
    exact .skip (.cons hnot cs)

/-- A turn of the lexer as the turn of a scanner that marks the semicolons. -/
def lexTurn (env : LexerEnv) (afterValue : Bool) (cs : List Char) : Turn Bool Char :=
  let lexed := nextLexeme env afterValue cs
  ⟨endsValue afterValue lexed.tokens, lexed.rest,
    lexed.tokens.any fun t => decide (t.kind = .semicolon)⟩

theorem lexTurn_consumes : Consumes (lexTurn env) :=
  fun afterValue c cs => nextLexeme_suffix env afterValue c cs

theorem nextLexeme_semicolon (afterValue : Bool) (cs : List Char) :
    nextLexeme env afterValue (';' :: cs) = Lexed.symbol .semicolon cs := rfl

theorem lexTurn_marked {env : LexerEnv} (hkeywords : ∀ word, env.keywordMap word ≠ some .semicolon)
    {afterValue : Bool} {c : Char} (hc : c ≠ ';') (cs : List Char) :
    (lexTurn env afterValue (c :: cs)).marked = false := by
  rw [lexTurn, List.any_eq_false]
  intro t ht
  simpa using (Passes.nextLexeme hkeywords afterValue hc cs).tokens t ht

theorem marks_lexTurn {env : LexerEnv} (hkeywords : ∀ word, env.keywordMap word ≠ some .semicolon)
    (afterValue : Bool) (cs : List Char) :
    marks (lexTurn env) afterValue cs = semicolonsOutside cs := by
  induction afterValue, cs using induction_of_consumes (lexTurn_consumes env) with
  | nil afterValue => rfl
  | cons afterValue c cs ih =>
    rw [marks_cons (lexTurn_consumes env), ih]
    by_cases hc : c = ';'
    · subst hc
      have houtside : semicolonsOutside (';' :: cs) =
          [0] ++ (semicolonsOutside cs).map (· + (cs.length + 1 - cs.length)) := by
        rw [semicolonsOutside, marks_cons outsideTurn_consumes]
        rfl
      rw [houtside]
      rfl
    · rw [lexTurn_marked hkeywords hc cs, if_neg Bool.false_ne_true, List.nil_append,
        (Passes.nextLexeme hkeywords afterValue hc cs).skips.marks_eq]
      rfl

theorem filter_placedLoop {env : LexerEnv}
    (hkeywords : ∀ word, env.keywordMap word ≠ some .semicolon) (n : ℕ) :
    ∀ {fuel : ℕ} {afterValue : Bool} {cs : List Char}, cs.length ≤ fuel → cs.length ≤ n →
    ((placedLoop env n fuel afterValue cs).filter (·.1.kind = .semicolon)).map Prod.snd =
      (marks (lexTurn env) afterValue cs).map (· + (n - cs.length))
  | 0, _, [], _, _ => rfl
  | _ + 1, _, [], _, _ => rfl
  | fuel + 1, afterValue, c :: cs, hfuel, hn => by
      have hrest := (lexTurn_consumes env).length_le afterValue c cs
      have hfuel' := hrest.trans (Nat.le_of_succ_le_succ hfuel)
      rw [List.length_cons] at hn
      have hshift : ((· + (n - (cs.length + 1))) ∘
          (· + (cs.length + 1 - (lexTurn env afterValue (c :: cs)).rest.length)) : ℕ → ℕ) =
          (· + (n - (lexTurn env afterValue (c :: cs)).rest.length)) := by
        funext k
        simp only [Function.comp_apply]
        omega
      have hn' : (lexTurn env afterValue (c :: cs)).rest.length ≤ n := by omega
      rw [placedLoop, if_neg (List.cons_ne_nil c cs), List.filter_append, List.map_append,
        marks_cons (lexTurn_consumes env), List.map_append, List.map_map, List.length_cons, hshift]
      refine congrArg₂ (· ++ ·) ?_ (filter_placedLoop hkeywords n hfuel' hn')
      by_cases hc : c = ';'
      · subst hc
        simp [nextLexeme_semicolon, Lexed.symbol, lexTurn]
      · have hpasses := Passes.nextLexeme hkeywords afterValue hc cs
        rw [lexTurn_marked hkeywords hc cs, if_neg Bool.false_ne_true, List.map_nil,
          List.map_eq_nil_iff, List.filter_eq_nil_iff]
        intro t ht
        obtain ⟨u, hu, rfl⟩ := List.mem_map.mp ht
        simpa using hpasses.tokens u hu

/-- The loop over the words that the scan reads. -/
def wordsLoop : Nat → List Char → List (List Char)
  | 0, _ => []
  | _ + 1, [] => []
  | fuel + 1, c :: cs =>
    if wordStart c then
      upperCase (c :: cs.takeWhile wordChar) :: wordsLoop fuel (cs.dropWhile wordChar)
    else wordsLoop fuel (scanTurn start (c :: cs)).rest

def words (s : List Char) : List (List Char) :=
  wordsLoop s.length s

def blockWords : List (List Char) :=
  ["BEGIN", "END", "CASE"].map String.toList

def NoBlockWords (s : List Char) : Prop :=
  ∀ w ∈ words s, w ∉ blockWords

instance (s : List Char) : Decidable (NoBlockWords s) :=
  inferInstanceAs (Decidable (∀ w ∈ words s, w ∉ blockWords))

theorem wordsLoop_of_le : ∀ {n m : ℕ} {cs : List Char}, cs.length ≤ n → cs.length ≤ m →
    wordsLoop n cs = wordsLoop m cs
  | 0, 0, _, _, _ | 0, _ + 1, [], _, _ | _ + 1, 0, [], _, _ | _ + 1, _ + 1, [], _, _ => rfl
  | n + 1, m + 1, c :: cs, hn, hm => by
      have hword := (List.dropWhile_suffix wordChar : cs.dropWhile wordChar <:+ cs).length_le
      have hrest := scanTurn_consumes.length_le start c cs
      have hn' := Nat.le_of_succ_le_succ hn
      have hm' := Nat.le_of_succ_le_succ hm
      rw [wordsLoop, wordsLoop, wordsLoop_of_le (hword.trans hn') (hword.trans hm'),
        wordsLoop_of_le (hrest.trans hn') (hrest.trans hm')]

theorem words_cons (c : Char) (cs : List Char) : words (c :: cs) =
    if wordStart c then upperCase (c :: cs.takeWhile wordChar) :: words (cs.dropWhile wordChar)
    else words (scanTurn start (c :: cs)).rest := by
  have hword := (List.dropWhile_suffix wordChar : cs.dropWhile wordChar <:+ cs).length_le
  have hrest := scanTurn_consumes.length_le start c cs
  rw [words, List.length_cons, wordsLoop, wordsLoop_of_le hword le_rfl,
    wordsLoop_of_le hrest le_rfl]
  rfl

theorem isSpace_of_wordStart {c : Char} (h : wordStart c) : isSpace c = false := by
  rw [Bool.eq_false_iff]
  intro hspace
  have hcode : c.toNat = 32 ∨ 9 ≤ c.toNat ∧ c.toNat ≤ 13 := by simpa [isSpace] using hspace
  have hletter : (65 ≤ c.toNat ∧ c.toNat ≤ 90 ∨ 97 ≤ c.toNat ∧ c.toNat ≤ 122) ∨ c.toNat = 95 := by
    delta wordStart Char.isAlpha Char.isUpper Char.isLower at h
    simp only [Bool.or_eq_true, Bool.and_eq_true, decide_eq_true_eq, beq_iff_eq] at h
    rcases h with (⟨hlow, hhigh⟩ | ⟨hlow, hhigh⟩) | rfl
    · exact .inl (.inl ⟨hlow, hhigh⟩)
    · exact .inl (.inr ⟨hlow, hhigh⟩)
    · exact .inr rfl
  omega

theorem Skips.pastBlank {c : Char} {rest : List Char} (h : pastBlank c cs = some rest) :
    Skips (c :: cs) rest := by
  rw [StatementSplit.pastBlank] at h
  split at h
  next hspace =>
    cases h
    exact .cons (notMem_special rfl hspace) cs
  next =>
    split at h
    next hline =>
      cases h
      exact .of_turn (by rw [outsideTurn, if_pos hline])
    next hline =>
      split at h
      next hblock =>
        cases h
        exact .of_turn (by rw [outsideTurn, if_neg hline, if_pos hblock])
      next => cases h

theorem Skips.skipBlank (cs : List Char) : Skips cs (skipBlank cs) := by
  induction hn : cs.length using Nat.strongRecOn generalizing cs with
  | ind n ih =>
    cases cs with
    | nil => exact .refl []
    | cons c cs =>
      cases hp : StatementSplit.pastBlank c cs with
      | none =>
        rw [skipBlank_of_none hp]
        exact .refl _
      | some rest =>
        rw [skipBlank_of_some hp]
        refine (Skips.pastBlank hp).trans (ih _ ?_ rest rfl)
        rw [← hn]
        exact Nat.lt_succ_of_le (pastBlank_suffix hp).length_le

theorem opens_of_notMem {c : Char} (hc : c ∉ special) (cs : List Char) :
    (opensLine c cs || opensBlock c cs) = false := by
  simp only [special, List.mem_cons, List.not_mem_nil, or_false, not_or] at hc
  obtain ⟨-, -, -, -, hhash, hdash, hslash⟩ := hc
  simp [opensLine, opensBlock, hhash, hdash, hslash]

theorem scanTurn_word {c : Char} (hword : wordStart c) (st : ScanState) (cs : List Char) :
    scanTurn st (c :: cs) = ⟨st.word (c :: cs.takeWhile wordChar) (cs.dropWhile wordChar),
      cs.dropWhile wordChar, false⟩ := by
  have hspecial : c ∉ special := notMem_special rfl hword
  have hopens := opens_of_notMem hspecial cs
  simp only [special, List.mem_cons, List.not_mem_nil, or_false, not_or] at hspecial
  rw [scanTurn, if_neg (by simp [isSpace_of_wordStart hword]), if_neg (by simp [hopens]),
    if_neg hspecial.1, if_neg (not_or.mpr ⟨hspecial.2.1, hspecial.2.2.1⟩), if_pos hword]

theorem beginDepth_word {text : List Char} (h : upperCase text ∉ blockWords) (st : ScanState)
    (after : List Char) : (st.word text after).beginDepth = st.beginDepth := by
  simp only [blockWords, List.map_cons, List.map_nil, List.mem_cons, List.not_mem_nil, or_false,
    not_or] at h
  rw [word]
  dsimp only
  rw [if_neg h.1, if_neg h.2.2, if_neg h.2.1]

theorem NoBlockWords.rest {c : Char} (h : NoBlockWords (c :: cs)) (st : ScanState) :
    NoBlockWords (scanTurn st (c :: cs)).rest := by
  intro w hw
  refine h w ?_
  rw [words_cons]
  by_cases hword : wordStart c = true
  · rw [scanTurn_word hword] at hw
    rw [if_pos hword]
    exact List.mem_cons_of_mem _ hw
  · rw [if_neg hword]
    rcases scanTurn_cases c cs with ⟨rest, -, hturn⟩ | ⟨rest, -, hturn⟩ | hturn | hturn
    · rwa [hturn] at hw ⊢
    · rwa [hturn] at hw ⊢
    · rwa [hturn] at hw ⊢
    · rwa [hturn] at hw ⊢

/-- Where no word opens a body the scan finds the semicolons outside comments, strings and quoted
names. -/
theorem marks_scanTurn {st : ScanState} (hdepth : st.beginDepth = 0) (hwords : NoBlockWords cs) :
    marks scanTurn st cs = semicolonsOutside cs := by
  induction st, cs using induction_of_consumes scanTurn_consumes with
  | nil st => rfl
  | cons st c cs ih =>
    have hrest := hwords.rest st
    have hskips : ∀ {st' : ScanState} {rest : List Char},
        scanTurn st (c :: cs) = ⟨st', rest, false⟩ → st'.beginDepth = 0 → Skips (c :: cs) rest →
        marks scanTurn st (c :: cs) = semicolonsOutside (c :: cs) := by
      intro st' rest hturn hdepth' hskips
      rw [hturn] at ih hrest
      rw [marks_cons scanTurn_consumes, hturn, if_neg Bool.false_ne_true, List.nil_append,
        ih hdepth' hrest, hskips.marks_eq]
      rfl
    by_cases hword : wordStart c = true
    · have hblock : upperCase (c :: cs.takeWhile wordChar) ∉ blockWords :=
        hwords _ (by rw [words_cons, if_pos hword]; exact List.mem_cons_self)
      have hskip : Skips (c :: cs) (cs.dropWhile wordChar) :=
        (Skips.cons (notMem_special rfl hword) cs).trans (.dropWhile rfl cs)
      exact hskips (scanTurn_word hword st cs) ((beginDepth_word hblock st _).trans hdepth) hskip
    · by_cases hspace : isSpace c = true
      · exact hskips (by rw [scanTurn, if_pos hspace]) hdepth
          (.cons (notMem_special rfl hspace) cs)
      · by_cases hcomment : (opensLine c cs || opensBlock c cs) = true
        · exact hskips (by rw [scanTurn, if_neg hspace, if_pos hcomment]) hdepth (.skipBlank _)
        · obtain ⟨hline, hblock⟩ := not_or.mp ((Bool.or_eq_true _ _) ▸ hcomment)
          by_cases hstring : c = '\''
          · have hturn : scanTurn st (c :: cs) = ⟨st.sign c, pastString cs, false⟩ := by
              rw [scanTurn, if_neg hspace, if_neg hcomment, if_pos hstring]
            exact hskips hturn hdepth
              (.of_turn (by rw [outsideTurn, if_neg hline, if_neg hblock, if_pos hstring]))
          · by_cases hquoted : c = '"' ∨ c = '`'
            · have hturn : scanTurn st (c :: cs) = ⟨st.sign c, pastQuoted c cs, false⟩ := by
                rw [scanTurn, if_neg hspace, if_neg hcomment, if_neg hstring, if_pos hquoted]
              exact hskips hturn hdepth (.of_turn (by
                rw [outsideTurn, if_neg hline, if_neg hblock, if_neg hstring, if_pos hquoted]))
            · have hturn : scanTurn st (c :: cs) = ⟨st.other c, cs, c == ';'⟩ := by
                rw [scanTurn, if_neg hspace, if_neg hcomment, if_neg hstring, if_neg hquoted,
                  if_neg hword, hdepth]
                simp
              have houtside : outsideTurn () (c :: cs) = ⟨(), cs, c == ';'⟩ := by
                rw [outsideTurn, if_neg hline, if_neg hblock, if_neg hstring, if_neg hquoted]
              have hother : (st.other c).beginDepth = 0 := by
                rw [ScanState.other]
                split
                · exact hdepth
                · exact hdepth
              rw [hturn] at ih hrest
              rw [semicolonsOutside, marks_cons scanTurn_consumes,
                marks_cons outsideTurn_consumes, hturn, houtside, ih hother hrest]
              rfl

/-- What follows strings that stand directly behind each other. -/
def pastAdjacent : Nat → List Char → List Char
  | 0, cs => cs
  | n + 1, cs =>
    if peekIs cs (· == '\'') then pastAdjacent n (pastString (cs.drop 1)) else cs

theorem pastAdjacent_nil (n : ℕ) : pastAdjacent n [] = [] := by
  cases n with
  | zero => rfl
  | succ n => rfl

/-- A string with doubled quotes is several strings to the scan, and ends where the last one
does. -/
theorem pastAdjacent_pastString : ∀ {cs : List Char} {n : ℕ}, cs.length ≤ n →
    pastAdjacent n (pastString cs) = (readString cs).rest
  | [], n, _ => pastAdjacent_nil n
  | [c], n, _ => by
      rw [readString]
      split
      · exact pastAdjacent_nil n
      · split
        · exact pastAdjacent_nil n
        · exact pastAdjacent_nil n
  | c :: d :: cs, 0, h => absurd h (Nat.not_succ_le_zero _)
  | c :: d :: cs, n + 1, h => by
      have hd : (d :: cs).length ≤ n := Nat.le_of_succ_le_succ h
      have hcs : cs.length ≤ n := (Nat.le_succ _).trans hd
      rw [pastString, readString]
      by_cases hquote : c = '\''
      · rw [if_neg (by rw [hquote]; decide), if_pos hquote, if_pos hquote, pastAdjacent]
        split
        next hquote' =>
          rw [if_pos (by simpa [peekIs] using hquote'), List.drop_one, List.tail_cons]
          exact pastAdjacent_pastString hcs
        next hquote' => rw [if_neg (by simpa [peekIs] using hquote')]
      · rw [if_neg hquote, if_neg hquote]
        by_cases hescape : c = '\\'
        · rw [if_pos hescape, if_pos hescape]
          exact pastAdjacent_pastString (hcs.trans (Nat.le_succ n))
        · rw [if_neg hescape, if_neg hescape]
          exact pastAdjacent_pastString (hd.trans (Nat.le_succ n))

/-- The scan and the lexer leave the same text behind a string, a quoted name and a comment,
closed or not. -/
structure SameBytes (cs : List Char) : Prop where
  string : pastAdjacent cs.length (pastString cs) = (readString cs).rest
  name : ∀ quote, pastQuoted quote cs = (readQuotedIdent quote cs).rest
  block : pastBlock cs = (skipBlock cs).rest
  line : (cs.dropWhile (· ≠ '\n')).tail = (skipLine cs).rest

theorem sameBytes (cs : List Char) : SameBytes cs where
  string := pastAdjacent_pastString le_rfl
  name := fun _ => rfl
  block := pastBlock_eq cs
  line := rfl

/-- For a text without the words BEGIN, END and CASE that has no executable comment to expand,
the ends that the scan reports are the offsets of the lexer's semicolons. -/
theorem statementEnds_eq_semicolonOffsets {env : LexerEnv}
    (hkeywords : ∀ word, env.keywordMap word ≠ some .semicolon) {s : List Char}
    (hwords : NoBlockWords s) (hexecutable : expandExecutableComments s = s) :
    statementEnds s = semicolonOffsets env s ∧ ∀ cs, SameBytes cs := by
  refine ⟨?_, sameBytes⟩
  rw [statementEnds_eq, marks_scanTurn rfl hwords, semicolonOffsets, placedTokens, hexecutable,
    filter_placedLoop hkeywords s.length le_rfl le_rfl, marks_lexTurn hkeywords, Nat.sub_self]
  simp

theorem statementEnds_eq_semicolonOffsets_quotes :
    NoBlockWords "SELECT 'it''s; /*!' -- ;\n; `a;b` /* ; */;".toList ∧
      statementEnds "SELECT 'it''s; /*!' -- ;\n; `a;b` /* ; */;".toList =
        semicolonOffsets ⟨fun _ => none, fun number exponent => number ++ exponent⟩
          "SELECT 'it''s; /*!' -- ;\n; `a;b` /* ; */;".toList :=
  ⟨by decide, (statementEnds_eq_semicolonOffsets (by simp) (by decide)
    (by decide)).1⟩

end RusqlEngine
