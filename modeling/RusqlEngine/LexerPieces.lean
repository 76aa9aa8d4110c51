import RusqlEngine.Lexer

/-!
# Pieces of a text

A piece that ends where the lexer is outside strings, names and comments is read the same
way whatever stands behind it, as long as that begins with a parameter mark or with the quote
of a string.
-/

namespace RusqlEngine

def EndsPiece (x : Char) : Prop :=
  x = '?' ∨ x = '\''

variable {accepts : Char → Bool} {x : Char}

theorem EndsPiece.of_decide (hx : EndsPiece x) (hmark : accepts '?' = false)
    (hquote : accepts '\'' = false) : accepts x = false := by
  rcases hx with rfl | rfl
  · exact hmark
  · exact hquote

variable {extended : List (Char × TokenKind)}

theorem EndsPiece.ne_operators (hx : EndsPiece x) (hmark : ∀ e ∈ extended, ('?' == e.1) = false)
    (hquote : ∀ e ∈ extended, ('\'' == e.1) = false) : ∀ e ∈ extended, (x == e.1) = false := by
  rcases hx with rfl | rfl
  · exact hmark
  · exact hquote

def Lexed.append (l : Lexed) (more : List Char) : Lexed :=
  { l with rest := l.rest ++ more }

theorem takeWhile_append_stop (hx : accepts x = false) (p t : List Char) :
    (p ++ x :: t).takeWhile accepts = p.takeWhile accepts := by
  induction p with
  | nil => simp [hx]
  | cons c p ih =>
    rw [List.cons_append, List.takeWhile_cons, List.takeWhile_cons, ih]

theorem dropWhile_append_stop (hx : accepts x = false) (p t : List Char) :
    (p ++ x :: t).dropWhile accepts = p.dropWhile accepts ++ x :: t := by
  induction p with
  | nil => simp [hx]
  | cons c p ih =>
    rw [List.cons_append, List.dropWhile_cons, List.dropWhile_cons, ih]
    split
    · rfl
    · rfl

theorem peekIs_append_stop (accepts : Char → Bool) (hx : accepts x = false) (p t : List Char) :
    peekIs (p ++ x :: t) accepts = peekIs p accepts := by
  cases p with
  | nil => simp [peekIs, hx]
  | cons c p => rfl

theorem peekIs_append_left {p : List Char} (more : List Char) (accepts : Char → Bool)
    (hne : p ≠ []) : peekIs (p ++ more) accepts = peekIs p accepts := by
  cases p with
  | nil => exact absurd rfl hne
  | cons c p => rfl

theorem EndsPiece.peekIs_append (hx : EndsPiece x) (hmark : accepts '?' = false)
    (hquote : accepts '\'' = false) (p t : List Char) :
    peekIs (p ++ x :: t) accepts = peekIs p accepts :=
  peekIs_append_stop accepts (hx.of_decide hmark hquote) p t

variable {p : List Char}

theorem drop_one_append (h : peekIs p accepts) (more : List Char) :
    (p ++ more).drop 1 = p.drop 1 ++ more := by
  cases p with
  | nil => simp [peekIs] at h
  | cons c p => rfl

theorem dropWhile_append_of_found (h : p.dropWhile accepts ≠ []) (more : List Char) :
    (p ++ more).dropWhile accepts = p.dropWhile accepts ++ more ∧
      (p ++ more).takeWhile accepts = p.takeWhile accepts := by
  induction p with
  | nil => exact absurd rfl h
  | cons c p ih =>
    rw [List.dropWhile_cons] at h
    rw [List.cons_append, List.dropWhile_cons, List.dropWhile_cons, List.takeWhile_cons,
      List.takeWhile_cons]
    cases hc : accepts c with
    | true =>
      rw [hc, if_pos rfl] at h
      simp only [if_true, (ih h).1, (ih h).2, and_self]
    | false => simp

theorem skipLine_append (h : (skipLine p).closed) (more : List Char) :
    skipLine (p ++ more) = (skipLine p).append more := by
  have hfound : p.dropWhile (· ≠ '\n') ≠ [] := by simpa only [skipLine, decide_eq_true_eq] using h
  have hmore := List.append_ne_nil_of_left_ne_nil hfound more
  simp only [skipLine, (dropWhile_append_of_found hfound more).1, Lexed.append,
    List.tail_append_of_ne_nil hfound, decide_eq_true hfound, decide_eq_true hmore]

theorem readQuotedIdent_append {closing : Char} (h : (readQuotedIdent closing p).closed)
    (more : List Char) :
    readQuotedIdent closing (p ++ more) = (readQuotedIdent closing p).append more := by
  have hfound : p.dropWhile (· ≠ closing) ≠ [] := by
    simpa only [readQuotedIdent, decide_eq_true_eq] using h
  have hmore := List.append_ne_nil_of_left_ne_nil hfound more
  simp only [readQuotedIdent, (dropWhile_append_of_found hfound more).1,
    (dropWhile_append_of_found hfound more).2, Lexed.append,
    List.tail_append_of_ne_nil hfound, decide_eq_true hfound, decide_eq_true hmore]

theorem skipBlock_append (more : List Char) : ∀ {p : List Char}, (skipBlock p).closed →
    skipBlock (p ++ more) = (skipBlock p).append more
  | [], h | [c], h => by simp [skipBlock] at h
  | c :: d :: p, h => by
      rw [skipBlock] at h
      rw [List.cons_append, List.cons_append, skipBlock, skipBlock]
      split
      · rfl
      · next hend =>
          rw [if_neg hend] at h
          exact skipBlock_append more h

def StringRead.append (r : StringRead) (more : List Char) : StringRead :=
  { r with rest := r.rest ++ more }

/-- A string is read alike in a longer text unless its closing quote is the last character and a
second quote follows. -/
theorem readString_append {more : List Char} : ∀ {p : List Char}, (readString p).closed →
    (readString p).rest ≠ [] ∨ peekIs more (· == '\'') = false →
      readString (p ++ more) = (readString p).append more
  | [], h, _ => by simp [readString] at h
  | [c], h, hend => by
      rw [readString] at h hend
      split at h
      next hquote =>
        rw [if_pos hquote] at hend
        have hmore : peekIs more (· == '\'') = false := hend.resolve_left fun hne => hne rfl
        cases more with
        | nil =>
          rw [List.append_nil, readString, if_pos hquote]
          rfl
        | cons d more =>
          have hd : d ≠ '\'' := by simpa [peekIs] using hmore
          rw [List.singleton_append, readString, readString, if_pos hquote, if_pos hquote,
            if_neg hd]
          rfl
      next =>
        split at h
        next => cases h
        next => cases h
  | c :: d :: p, h, hend => by
      rw [readString] at h hend
      rw [List.cons_append, List.cons_append, readString, readString]
      by_cases hquote : c = '\''
      · simp only [if_pos hquote] at h hend ⊢
        by_cases hdouble : d = '\''
        · simp only [if_pos hdouble] at h hend ⊢
          rw [readString_append h hend]
          rfl
        · simp only [if_neg hdouble]
          rfl
      · simp only [if_neg hquote] at h hend ⊢
        by_cases hescape : c = '\\'
        · simp only [if_pos hescape] at h hend ⊢
          rw [readString_append h hend]
          rfl
        · simp only [if_neg hescape] at h hend ⊢
          rw [← List.cons_append, readString_append h hend]
          rfl

variable {env : LexerEnv} {afterValue : Bool} {c : Char}

/-- A turn of the lexer is the same turn in a longer text when the reader that takes the turn
reads the same. -/
theorem nextLexeme_append_of {P : Lexed → Prop} {more : List Char}
    (hdash : c = '-' → P (lexDash env afterValue p) →
      lexDash env afterValue (p ++ more) = (lexDash env afterValue p).append more)
    (hat : P (lexAt p) → lexAt (p ++ more) = (lexAt p).append more)
    (hline : P (skipLine p) → skipLine (p ++ more) = (skipLine p).append more)
    (hslash : P (lexSlash p) → lexSlash (p ++ more) = (lexSlash p).append more)
    (hless : P (lexLess p) → lexLess (p ++ more) = (lexLess p).append more)
    (hoperator : ∀ (short : Lexed) (extended : List (Char × TokenKind)), short.rest = p →
      (∀ e ∈ extended, e.1 = '=' ∨ e.1 = '>' ∨ e.1 = '|') → P (lexOperator short extended p) →
      lexOperator (short.append more) extended (p ++ more) =
        (lexOperator short extended p).append more) (hname : P (readQuotedIdent c p) →
      readQuotedIdent c (p ++ more) = (readQuotedIdent c p).append more)
    (hstring : c = '\'' → P ⟨[⟨.stringLit, (readString p).text⟩], (readString p).rest,
      (readString p).closed⟩ → readString (p ++ more) = (readString p).append more)
    (hnumber : P (readNumber env (c :: p)) →
      readNumber env (c :: p ++ more) = (readNumber env (c :: p)).append more)
    (hident : P (readIdent env (c :: p)) →
      readIdent env (c :: p ++ more) = (readIdent env (c :: p)).append more)
    (h : P (nextLexeme env afterValue (c :: p))) :
    nextLexeme env afterValue (c :: p ++ more) =
      (nextLexeme env afterValue (c :: p)).append more := by
  rw [nextLexeme] at h ⊢
  rw [List.cons_append, nextLexeme]
  by_cases h1 : isSpace c = true
  · simp only [if_pos h1]
    rfl
  simp only [if_neg h1] at h ⊢
  by_cases h2 : c = '-'
  · simp only [if_pos h2] at h ⊢
    exact hdash h2 h
  simp only [if_neg h2] at h ⊢
  by_cases h3 : c = '@'
  · simp only [if_pos h3] at h ⊢
    exact hat h
  simp only [if_neg h3] at h ⊢
  by_cases h4 : c = '#'
  · simp only [if_pos h4] at h ⊢
    exact hline h
  simp only [if_neg h4] at h ⊢
  by_cases h5 : c = '/'
  · simp only [if_pos h5] at h ⊢
    exact hslash h
  simp only [if_neg h5] at h ⊢
  by_cases h6 : c = '>'
  · simp only [if_pos h6] at h ⊢
    exact hoperator (Lexed.symbol .gt p) _ rfl (by decide) h
  simp only [if_neg h6] at h ⊢
  by_cases h7 : c = '<'
  · simp only [if_pos h7] at h ⊢
    exact hless h
  simp only [if_neg h7] at h ⊢
  by_cases h8 : c = '!'
  · simp only [if_pos h8] at h ⊢
    exact hoperator (Lexed.symbol .not p) _ rfl (by decide) h
  simp only [if_neg h8] at h ⊢
  by_cases h9 : c = ':'
  · simp only [if_pos h9] at h ⊢
    exact hoperator (Lexed.skip p) _ rfl (by decide) h
  simp only [if_neg h9] at h ⊢
  by_cases h10 : c = '|'
  · simp only [if_pos h10] at h ⊢
    exact hoperator (Lexed.symbol .pipe p) _ rfl (by decide) h
  simp only [if_neg h10] at h ⊢
  by_cases h11 : c = '`' ∨ c = '"'
  · simp only [if_pos h11] at h ⊢
    exact hname h
  simp only [if_neg h11] at h ⊢
  by_cases h12 : c = '\''
  · simp only [if_pos h12] at h ⊢
    rw [hstring h12 h]
    rfl
  simp only [if_neg h12] at h ⊢
  cases hsingle : singleKind c with
  | some kind => rfl
  | none =>
    simp only [hsingle] at h
    by_cases h13 : c.isDigit = true
    · simp only [if_pos h13] at h ⊢
      exact hnumber h
    simp only [if_neg h13] at h ⊢
    by_cases h14 : (c.isAlpha || c == '_') = true
    · simp only [if_pos h14] at h ⊢
      exact hident h
    simp only [if_neg h14]
    rfl

theorem readExponent_eq_some {number : List Char} {r : List Char × List Char}
    (h : readExponent env number p = some r) : peekIs p (fun c => c == 'e' || c == 'E') ∧
      peekIs (takeExponentSign (p.drop 1)).2 Char.isDigit ∧
      r.2 = (takeExponentSign (p.drop 1)).2.dropWhile Char.isDigit := by
  rw [readExponent] at h
  split at h
  next => cases h
  next =>
    split at h
    next hexponent =>
      obtain ⟨hdigit, hr⟩ := Option.ite_none_right_eq_some.mp h
      rw [← Option.some.inj hr]
      exact ⟨hexponent, hdigit, rfl⟩
    next => cases h

section

variable {x : Char} (hx : EndsPiece x) (t : List Char)
include hx

theorem takeExponentSign_append (p : List Char) :
    takeExponentSign (p ++ x :: t) =
      ((takeExponentSign p).1, (takeExponentSign p).2 ++ x :: t) := by
  rw [takeExponentSign, takeExponentSign, hx.peekIs_append rfl rfl]
  cases h : peekIs p fun c => c == '+' || c == '-' with
  | false => rfl
  | true =>
    cases p with
    | nil => simp [peekIs] at h
    | cons c p => simp

theorem readExponent_append (env : LexerEnv) (number p : List Char) :
    readExponent env number (p ++ x :: t) =
      (readExponent env number p).map fun r => (r.1, r.2 ++ x :: t) := by
  rw [readExponent, readExponent, hx.peekIs_append rfl rfl]
  split
  · rfl
  · cases h : peekIs p fun c => c == 'e' || c == 'E' with
    | false => rfl
    | true =>
      have hdigit : Char.isDigit x = false := hx.of_decide (by decide) (by decide)
      simp only [if_true, drop_one_append h, takeExponentSign_append hx t,
        peekIs_append_stop _ hdigit, takeWhile_append_stop hdigit, dropWhile_append_stop hdigit]
      split
      · rfl
      · rfl

theorem readNumber_append (env : LexerEnv) (p : List Char) :
    readNumber env (p ++ x :: t) = (readNumber env p).append (x :: t) := by
  have hnumber : isNumberChar x = false := hx.of_decide (by decide) (by decide)
  have hhex : isHexDigit x = false := hx.of_decide (by decide) (by decide)
  simp only [readNumber, takeWhile_append_stop hnumber, dropWhile_append_stop hnumber,
    readExponent_append hx]
  cases readExponent env (p.takeWhile isNumberChar) (p.dropWhile isNumberChar) with
  | some r => rfl
  | none =>
    have hleading : peekIs (p.dropWhile isNumberChar ++ x :: t) (fun c => c == 'x' || c == 'X') =
        peekIs (p.dropWhile isNumberChar) fun c => c == 'x' || c == 'X' :=
      hx.peekIs_append rfl rfl _ t
    simp only [Option.map_none, hleading]
    split
    · next h =>
        simp only [drop_one_append h.2, takeWhile_append_stop hhex, dropWhile_append_stop hhex]
        rfl
    · rfl

theorem readIdent_append (env : LexerEnv) (p : List Char) :
    readIdent env (p ++ x :: t) = (readIdent env p).append (x :: t) := by
  have hname : isNameChar x = false := hx.of_decide (by decide) (by decide)
  simp only [readIdent, takeWhile_append_stop hname, dropWhile_append_stop hname]
  rfl

theorem lexAt_append (p : List Char) : lexAt (p ++ x :: t) = (lexAt p).append (x :: t) := by
  have hname : isNameChar x = false := hx.of_decide (by decide) (by decide)
  rw [lexAt, lexAt, hx.peekIs_append rfl rfl]
  cases h : peekIs p (· == '@') with
  | false => rfl
  | true =>
    have hdot : peekIs ((p.drop 1).dropWhile isNameChar ++ x :: t) (· == '.') =
        peekIs ((p.drop 1).dropWhile isNameChar) (· == '.') :=
      hx.peekIs_append rfl rfl _ t
    simp only [if_true, drop_one_append h, takeWhile_append_stop hname,
      dropWhile_append_stop hname, hdot]
    split
    · next hdot =>
        simp only [Bool.and_eq_true] at hdot
        simp only [drop_one_append hdot.1, takeWhile_append_stop hname, dropWhile_append_stop hname]
        rfl
    · rfl

omit hx in
theorem lexOperator_append (short : Lexed) (hext : ∀ e ∈ extended, (x == e.1) = false)
    (p : List Char) :
    lexOperator (short.append (x :: t)) extended (p ++ x :: t) =
      (lexOperator short extended p).append (x :: t) := by
  have hfind : (extended.find? fun e => peekIs (p ++ x :: t) (· == e.1)) =
      extended.find? fun e => peekIs p (· == e.1) := by
    induction extended with
    | nil => rfl
    | cons e extended ih =>
      have hpeek := peekIs_append_stop (· == e.1) (hext e List.mem_cons_self) p t
      rw [List.find?_cons, List.find?_cons, hpeek, ih fun e' he' => hext e' (.tail _ he')]
  rw [lexOperator, lexOperator, hfind]
  cases h : extended.find? fun e => peekIs p (· == e.1) with
  | none => rfl
  | some e =>
    have hpeek := List.find?_some h
    simp only [drop_one_append hpeek]
    rfl

theorem lexLess_append (p : List Char) : lexLess (p ++ x :: t) = (lexLess p).append (x :: t) := by
  rw [lexLess, lexLess, hx.peekIs_append rfl rfl]
  cases h : peekIs p (· == '=') with
  | false =>
    refine lexOperator_append t (Lexed.symbol .lt p) ?_ p
    exact hx.ne_operators (by decide) (by decide)
  | true =>
    simp only [if_true, drop_one_append h]
    refine lexOperator_append t (Lexed.symbol .lte (p.drop 1)) ?_ _
    exact hx.ne_operators (by decide) (by decide)

theorem lexDash_append (h : (lexDash env afterValue p).closed) :
    lexDash env afterValue (p ++ x :: t) = (lexDash env afterValue p).append (x :: t) := by
  have hnumber : isNumberChar x = false := hx.of_decide (by decide) (by decide)
  rw [lexDash] at h ⊢
  rw [lexDash, hx.peekIs_append rfl rfl, hx.peekIs_append rfl rfl, hx.peekIs_append rfl rfl]
  cases hdash : peekIs p (· == '-') with
  | true =>
    simp only [hdash, if_true] at h ⊢
    exact skipLine_append h _
  | false =>
    simp only [Bool.false_eq_true, if_false]
    cases harrow : peekIs p (· == '>') with
    | true =>
      simp only [if_true, drop_one_append harrow]
      rw [hx.peekIs_append rfl rfl]
      cases hlong : peekIs (p.drop 1) (· == '>') with
      | false => rfl
      | true =>
        have hdrop : ∀ l : List Char, l.drop 2 = (l.drop 1).drop 1 := fun l => by
          rw [List.drop_drop]
        have htwo : (p ++ x :: t).drop 2 = p.drop 2 ++ x :: t := by
          rw [hdrop, hdrop, drop_one_append harrow, drop_one_append hlong]
        simp only [if_true, htwo]
        rfl
    | false =>
      simp only [Bool.false_eq_true, if_false, takeWhile_append_stop hnumber,
        dropWhile_append_stop hnumber, readExponent_append hx]
      split
      · cases readExponent env ('-' :: p.takeWhile isNumberChar) (p.dropWhile isNumberChar) with
        | none => rfl
        | some r => rfl
      · rfl

theorem lexSlash_append (h : (lexSlash p).closed) :
    lexSlash (p ++ x :: t) = (lexSlash p).append (x :: t) := by
  rw [lexSlash] at h ⊢
  rw [lexSlash, hx.peekIs_append rfl rfl]
  cases hstar : peekIs p (· == '*') with
  | false => rfl
  | true =>
    simp only [hstar, if_true, drop_one_append hstar] at h ⊢
    exact skipBlock_append _ h

/-- A turn of the lexer that stays inside a piece, with a string that ends before its last
character, is the same turn in a longer text. -/
theorem nextLexeme_append (h : (nextLexeme env afterValue (c :: p)).closed)
    (hstring : c = '\'' → (nextLexeme env afterValue (c :: p)).rest ≠ []) :
    nextLexeme env afterValue (c :: p ++ x :: t) =
      (nextLexeme env afterValue (c :: p)).append (x :: t) := by
  apply nextLexeme_append_of (P := fun lexed => lexed.closed = true ∧ (c = '\'' → lexed.rest ≠ []))
    _ _ _ _ _ _ _ _ _ _ ⟨h, hstring⟩
  · exact fun _ hp => lexDash_append hx t hp.1
  · exact fun _ => lexAt_append hx t p
  · exact fun hp => skipLine_append hp.1 _
  · exact fun hp => lexSlash_append hx t hp.1
  · exact fun _ => lexLess_append hx t p
  · intro short extended _ hext _
    apply lexOperator_append t short
    intro e he
    rcases hx with rfl | rfl <;> rcases hext e he with heq | heq | heq <;> rw [heq] <;> rfl
  · exact fun hp => readQuotedIdent_append hp.1 _
  · exact fun hc hp => readString_append hp.1 (.inl (hp.2 hc))
  · exact fun _ => readNumber_append hx t env (c :: p)
  · exact fun _ => readIdent_append hx t env (c :: p)

end

variable (cs : List Char)

theorem readString_suffix : ∀ cs : List Char, (readString cs).rest <:+ cs
  | [] => List.suffix_refl _
  | [c] => by
      rw [readString]
      split
      · exact List.nil_suffix
      · split
        · exact List.nil_suffix
        · exact List.nil_suffix
  | c :: d :: cs => by
      have hmore : cs <:+ c :: d :: cs := List.suffix_append [c, d] cs
      rw [readString]
      split
      · split
        · exact (readString_suffix cs).trans hmore
        · exact List.suffix_cons c (d :: cs)
      · split
        · exact (readString_suffix cs).trans hmore
        · exact (readString_suffix (d :: cs)).trans (List.suffix_cons c _)

theorem skipBlock_suffix : ∀ cs : List Char, (skipBlock cs).rest <:+ cs
  | [] => List.suffix_refl _
  | [_] => List.nil_suffix
  | c :: d :: cs => by
      rw [skipBlock]
      split
      · exact List.suffix_append [c, d] cs
      · exact (skipBlock_suffix (d :: cs)).trans (List.suffix_cons c _)

theorem tail_dropWhile_suffix (accepts : Char → Bool) (cs : List Char) :
    (cs.dropWhile accepts).tail <:+ cs :=
  (List.tail_suffix _).trans (List.dropWhile_suffix _)

theorem takeExponentSign_suffix : (takeExponentSign cs).2 <:+ cs := by
  rw [takeExponentSign]
  split
  · exact List.drop_suffix 1 cs
  · exact List.suffix_refl cs

theorem readExponent_suffix {number cs : List Char} {r : List Char × List Char}
    (h : readExponent env number cs = some r) : r.2 <:+ cs := by
  rw [readExponent] at h
  split at h
  · exact nomatch h
  · split at h
    · dsimp only at h
      split at h
      · obtain rfl := Option.some.inj h
        exact (List.dropWhile_suffix _).trans
          ((takeExponentSign_suffix _).trans (List.drop_suffix 1 cs))
      · exact nomatch h
    · exact nomatch h

theorem readNumber_suffix (hc : c.isDigit) (cs : List Char) :
    (readNumber env (c :: cs)).rest <:+ cs := by
  have hnumber : isNumberChar c := by simp [isNumberChar, hc]
  have hdrop : (c :: cs).dropWhile isNumberChar <:+ cs := by
    rw [List.dropWhile_cons, if_pos hnumber]
    exact List.dropWhile_suffix _
  rw [readNumber]
  split
  · next text rest h => exact (readExponent_suffix h).trans hdrop
  · split
    · exact (List.dropWhile_suffix _).trans ((List.drop_suffix 1 _).trans hdrop)
    · exact hdrop

theorem readIdent_suffix (hc : (c.isAlpha || c == '_')) (cs : List Char) :
    (readIdent env (c :: cs)).rest <:+ cs := by
  have hname : isNameChar c := by
    rw [isNameChar, Char.isAlphanum]
    cases halpha : c.isAlpha with
    | true => rfl
    | false =>
      rw [halpha, Bool.false_or] at hc
      simp [hc]
  rw [readIdent, List.dropWhile_cons, if_pos hname]
  exact List.dropWhile_suffix _

theorem lexDash_suffix (env : LexerEnv) (afterValue : Bool) (cs : List Char) :
    (lexDash env afterValue cs).rest <:+ cs := by
  rw [lexDash]
  split
  · exact tail_dropWhile_suffix _ cs
  · split
    · split
      · exact List.drop_suffix 2 cs
      · exact List.drop_suffix 1 cs
    · split
      · dsimp only
        split
        · next text rest h => exact (readExponent_suffix h).trans (List.dropWhile_suffix _)
        · exact List.dropWhile_suffix _
      · exact List.suffix_refl cs

theorem lexAt_suffix : (lexAt cs).rest <:+ cs := by
  rw [lexAt]
  split
  · have hname : (cs.drop 1).dropWhile isNameChar <:+ cs :=
      (List.dropWhile_suffix _).trans (List.drop_suffix 1 cs)
    simp only
    split
    · exact (List.dropWhile_suffix _).trans ((List.drop_suffix 1 _).trans hname)
    · exact hname
  · exact List.suffix_refl cs

theorem lexSlash_suffix : (lexSlash cs).rest <:+ cs := by
  rw [lexSlash]
  split
  · exact (skipBlock_suffix _).trans (List.drop_suffix 1 cs)
  · exact List.suffix_refl cs

theorem lexOperator_suffix {short : Lexed} (extended : List (Char × TokenKind)) {cs : List Char}
    (h : short.rest <:+ cs) : (lexOperator short extended cs).rest <:+ cs := by
  rw [lexOperator]
  split
  · exact List.drop_suffix 1 cs
  · exact h

theorem lexLess_suffix : (lexLess cs).rest <:+ cs := by
  rw [lexLess]
  split
  · exact (lexOperator_suffix _ (List.suffix_refl _)).trans (List.drop_suffix 1 cs)
  · exact lexOperator_suffix _ (List.suffix_refl cs)

theorem nextLexeme_suffix (env : LexerEnv) (afterValue : Bool) (c : Char) (cs : List Char) :
    (nextLexeme env afterValue (c :: cs)).rest <:+ cs := by
  rw [nextLexeme]
  by_cases h1 : isSpace c = true
  · rw [if_pos h1]
    exact List.suffix_refl cs
  rw [if_neg h1]
  by_cases h2 : c = '-'
  · rw [if_pos h2]
    exact lexDash_suffix env afterValue cs
  rw [if_neg h2]
  by_cases h3 : c = '@'
  · rw [if_pos h3]
    exact lexAt_suffix cs
  rw [if_neg h3]
  by_cases h4 : c = '#'
  · rw [if_pos h4]
    exact tail_dropWhile_suffix _ cs
  rw [if_neg h4]
  by_cases h5 : c = '/'
  · rw [if_pos h5]
    exact lexSlash_suffix cs
  rw [if_neg h5]
  by_cases h6 : c = '>'
  · rw [if_pos h6]
    exact lexOperator_suffix _ (List.suffix_refl cs)
  rw [if_neg h6]
  by_cases h7 : c = '<'
  · rw [if_pos h7]
    exact lexLess_suffix cs
  rw [if_neg h7]
  by_cases h8 : c = '!'
  · rw [if_pos h8]
    exact lexOperator_suffix _ (List.suffix_refl cs)
  rw [if_neg h8]
  by_cases h9 : c = ':'
  · rw [if_pos h9]
    exact lexOperator_suffix _ (List.suffix_refl cs)
  rw [if_neg h9]
  by_cases h10 : c = '|'
  · rw [if_pos h10]
    exact lexOperator_suffix _ (List.suffix_refl cs)
  rw [if_neg h10]
  by_cases h11 : c = '`' ∨ c = '"'
  · rw [if_pos h11]
    exact tail_dropWhile_suffix _ cs
  rw [if_neg h11]
  by_cases h12 : c = '\''
  · rw [if_pos h12]
    exact readString_suffix cs
  rw [if_neg h12]
  cases singleKind c with
  | some kind => exact List.suffix_refl cs
  | none =>
    by_cases h13 : c.isDigit = true
    · simp only [if_pos h13]
      exact readNumber_suffix h13 cs
    simp only [if_neg h13]
    by_cases h14 : (c.isAlpha || c == '_') = true
    · simp only [if_pos h14]
      exact readIdent_suffix h14 cs
    simp only [if_neg h14]
    exact List.suffix_refl cs

def tokensOf (env : LexerEnv) (afterValue : Bool) (cs : List Char) : List Token :=
  tokenizeLoop env cs.length afterValue cs

theorem tokenizeLoop_of_le : ∀ {fuel fuel' : Nat} {afterValue : Bool}
    {cs : List Char}, cs.length ≤ fuel → cs.length ≤ fuel' →
    tokenizeLoop env fuel afterValue cs = tokenizeLoop env fuel' afterValue cs
  | 0, fuel', _, [], _, _ | fuel + 1, fuel', _, [], _, _ => by cases fuel' <;> simp [tokenizeLoop]
  | 0, _, _, c :: cs, h, _ => absurd h (by simp)
  | _ + 1, 0, _, c :: cs, _, h => absurd h (by simp)
  | fuel + 1, fuel' + 1, afterValue, c :: cs, h, h' => by
      have hrest := (nextLexeme_suffix env afterValue c cs).length_le
      simp only [List.length_cons, Nat.add_le_add_iff_right] at h h'
      simp only [tokenizeLoop, reduceCtorEq, if_false,
        tokenizeLoop_of_le (hrest.trans h) (hrest.trans h')]

theorem tokensOf_cons (env : LexerEnv) (afterValue : Bool) (c : Char) (cs : List Char) :
    tokensOf env afterValue (c :: cs) =
      (nextLexeme env afterValue (c :: cs)).tokens ++
        tokensOf env (endsValue afterValue (nextLexeme env afterValue (c :: cs)).tokens)
          (nextLexeme env afterValue (c :: cs)).rest := by
  have hrest := (nextLexeme_suffix env afterValue c cs).length_le
  rw [tokensOf, List.length_cons, tokenizeLoop, if_neg (List.cons_ne_nil c cs)]
  simp only [tokenizeLoop_of_le hrest le_rfl]
  rfl

theorem copyLiteral_append (quote : Char) (more : List Char) : ∀ {p : List Char},
    (copyLiteral quote p).closed →
    copyLiteral quote (p ++ more) = (copyLiteral quote p).append more
  | [], h => by simp [copyLiteral] at h
  | [c], h => by
      have hc : c = quote := by simpa [copyLiteral] using h
      cases more with
      | nil => rfl
      | cons d more => simp [copyLiteral, StringRead.append, hc]
  | c :: d :: p, h => by
      rw [copyLiteral] at h
      rw [List.cons_append, List.cons_append, copyLiteral, copyLiteral]
      by_cases hc : c = quote
      · simp only [if_pos hc]
        rfl
      · simp only [if_neg hc] at h ⊢
        by_cases hescape : c = '\\' ∧ quote ≠ '`'
        · simp only [if_pos hescape] at h ⊢
          rw [copyLiteral_append quote more h]
          rfl
        · simp only [if_neg hescape] at h ⊢
          rw [← List.cons_append, copyLiteral_append quote more h]
          rfl

theorem commentBody_append (more : List Char) : ∀ {p : List Char},
    (commentBody p).closed → commentBody (p ++ more) = (commentBody p).append more
  | [], h | [c], h => by simp [commentBody] at h
  | c :: d :: p, h => by
      rw [commentBody] at h
      rw [List.cons_append, List.cons_append, commentBody, commentBody]
      by_cases hend : c = '*' ∧ d = '/'
      · simp only [if_pos hend]
        rfl
      · simp only [if_neg hend] at h ⊢
        rw [← List.cons_append, commentBody_append more h]
        rfl

theorem copyComment_closed :
    (copyComment cs).closed = (commentBody cs).closed ∧
      (copyComment cs).rest = (commentBody cs).rest := by
  rw [copyComment]
  split
  · exact ⟨rfl, rfl⟩
  · split
    · exact ⟨rfl, rfl⟩
    · exact ⟨rfl, rfl⟩

theorem copyComment_append (h : (copyComment p).closed) (more : List Char) :
    copyComment (p ++ more) = (copyComment p).append more := by
  rw [(copyComment_closed p).1] at h
  have hleading : ['M', '!'].isPrefixOf (p ++ more) = ['M', '!'].isPrefixOf p := by
    match p, h with
    | [], h | [c], h => simp [commentBody] at h
    | c :: d :: p, _ => rfl
  rw [copyComment, copyComment, commentBody_append more h, hleading]
  dsimp only [StringRead.append]
  split
  · rfl
  · split
    · rfl
    · simp only [h, if_true]

/-- A turn of the expansion of executable comments inside a piece is the same in front of a text
that is no `*` and no `-` behind a `-`. -/
theorem expandStep_before {c : Char} {p more : List Char} (hstar : peekIs more (· == '*') = false)
    (hdash : (c :: p).getLast? = some '-' → peekIs more (· == '-') = false)
    (h : (expandStep (c :: p)).closed) :
    expandStep (c :: p ++ more) = (expandStep (c :: p)).append more := by
  have hpeek : ∀ {d : Char}, peekIs more (· == d) = false →
      peekIs (p ++ more) (· == d) = peekIs p (· == d) := by
    intro d hd
    cases p with
    | nil => exact hd
    | cons b p => rfl
  have hline' : (c = '-' ∧ peekIs (p ++ more) (· == '-')) =
      (c = '-' ∧ peekIs p (· == '-')) := by
    refine propext (and_congr_right fun hc => ?_)
    cases p with
    | nil =>
      subst hc
      rw [List.nil_append, hdash rfl]
      rfl
    | cons b p => rfl
  rw [expandStep] at h ⊢
  rw [List.cons_append, expandStep, hpeek hstar]
  simp only [hline']
  by_cases hquote : c = '\'' ∨ c = '"' ∨ c = '`'
  · simp only [if_pos hquote] at h ⊢
    rw [copyLiteral_append c _ h]
    rfl
  simp only [if_neg hquote] at h ⊢
  by_cases hline : c = '#' ∨ (c = '-' ∧ peekIs p (· == '-'))
  · simp only [if_pos hline] at h ⊢
    have hfound : p.dropWhile (· ≠ '\n') ≠ [] := by simpa only [decide_eq_true_eq] using h
    have hmore := List.append_ne_nil_of_left_ne_nil hfound more
    simp only [(dropWhile_append_of_found hfound _).1, (dropWhile_append_of_found hfound _).2,
      decide_eq_true hfound, decide_eq_true hmore]
    rfl
  simp only [if_neg hline] at h ⊢
  by_cases hblock : c = '/' ∧ peekIs p (· == '*') = true
  · simp only [if_pos hblock, drop_one_append hblock.2] at h ⊢
    exact copyComment_append h _
  simp only [if_neg hblock]
  rfl

theorem expandStep_append (hx : EndsPiece x) (t : List Char) (h : (expandStep (c :: p)).closed) :
    expandStep (c :: p ++ x :: t) = (expandStep (c :: p)).append (x :: t) :=
  expandStep_before (hx.peekIs_append rfl rfl [] t) (fun _ => hx.peekIs_append rfl rfl [] t) h

theorem copyLiteral_eq (quote : Char) : ∀ cs : List Char,
    (copyLiteral quote cs).text ++ (copyLiteral quote cs).rest = cs
  | [] => rfl
  | [_] => rfl
  | c :: d :: cs => by
      rw [copyLiteral]
      split
      · rfl
      · split
        · exact congrArg (fun l => c :: d :: l) (copyLiteral_eq quote cs)
        · exact congrArg (List.cons c) (copyLiteral_eq quote (d :: cs))

theorem commentBody_eq : ∀ cs : List Char,
    (commentBody cs).text ++ (if (commentBody cs).closed then ['*', '/'] else []) ++
      (commentBody cs).rest = cs
  | [] => rfl
  | [_] => rfl
  | c :: d :: cs => by
      rw [commentBody]
      split
      · next hend => simp [hend.1, hend.2]
      · exact congrArg (List.cons c) (commentBody_eq (d :: cs))

theorem copyComment_suffix : (copyComment cs).rest <:+ cs := by
  rw [(copyComment_closed cs).2]
  exact ⟨_, commentBody_eq cs⟩

theorem expandStep_suffix (c : Char) (cs : List Char) : (expandStep (c :: cs)).rest <:+ cs := by
  rw [expandStep]
  split
  · exact ⟨_, copyLiteral_eq c cs⟩
  split
  · exact List.dropWhile_suffix _
  split
  · exact (copyComment_suffix _).trans (List.drop_suffix 1 cs)
  · exact List.suffix_refl cs

/-- The loop of `expand_executable_comments` on a whole text. -/
def expandOf (cs : List Char) : List Char :=
  expandLoop cs.length cs

theorem expandLoop_of_le : ∀ {fuel fuel' : Nat} {cs : List Char}, cs.length ≤ fuel →
    cs.length ≤ fuel' → expandLoop fuel cs = expandLoop fuel' cs
  | 0, fuel', [], _, _ | fuel + 1, fuel', [], _, _ => by cases fuel' <;> simp [expandLoop]
  | 0, _, c :: cs, h, _ => absurd h (by simp)
  | _ + 1, 0, c :: cs, _, h => absurd h (by simp)
  | fuel + 1, fuel' + 1, c :: cs, h, h' => by
      have hrest := (expandStep_suffix c cs).length_le
      simp only [List.length_cons, Nat.add_le_add_iff_right] at h h'
      simp only [expandLoop, reduceCtorEq, if_false,
        expandLoop_of_le (hrest.trans h) (hrest.trans h')]

theorem expandOf_cons (c : Char) (cs : List Char) :
    expandOf (c :: cs) = (expandStep (c :: cs)).text ++ expandOf (expandStep (c :: cs)).rest := by
  have hrest := (expandStep_suffix c cs).length_le
  rw [expandOf, List.length_cons, expandLoop, if_neg (List.cons_ne_nil c cs)]
  simp only [expandLoop_of_le hrest le_rfl]
  rfl

theorem containsText_suffix {needle : List Char} : ∀ {cs rest : List Char}, rest <:+ cs →
    containsText needle cs = false → containsText needle rest = false
  | [], rest, hrest, h => by
      rw [List.suffix_nil.mp hrest]
      exact h
  | c :: cs, rest, hrest, h => by
      rcases List.suffix_cons_iff.mp hrest with rfl | hrest
      · exact h
      · rw [containsText, Bool.or_eq_false_iff] at h
        exact containsText_suffix hrest h.2

theorem expandStep_eq {cs : List Char} (hmysql : containsText "/*!".toList (c :: cs) = false)
    (hmaria : containsText "/*M!".toList (c :: cs) = false) :
    (expandStep (c :: cs)).text ++ (expandStep (c :: cs)).rest = c :: cs := by
  rw [expandStep]
  split
  · exact congrArg (List.cons c) (copyLiteral_eq c cs)
  split
  · exact congrArg (List.cons c) (List.takeWhile_append_dropWhile ..)
  split
  · next hblock =>
      obtain ⟨rfl, hstar⟩ := hblock
      obtain ⟨cs, rfl⟩ : ∃ more, cs = '*' :: more := by
        cases cs with
        | nil => simp [peekIs] at hstar
        | cons d more => exact ⟨more, by simpa [peekIs] using hstar⟩
      have hbody := commentBody_eq cs
      rw [List.drop_one, List.tail_cons, copyComment]
      split
      · next body hexec =>
          rw [hexec] at hbody
          rw [← hbody] at hmysql
          simp [containsText] at hmysql
      · split
        · next hm =>
            obtain ⟨more, rfl⟩ := List.isPrefixOf_iff_prefix.mp hm
            simp [containsText] at hmaria
        · simpa using hbody
  · rfl

theorem expandOf_eq_self : ∀ {cs : List Char}, containsText "/*!".toList cs = false →
    containsText "/*M!".toList cs = false → expandOf cs = cs
  | [], _, _ => rfl
  | c :: cs, hmysql, hmaria => by
      have hsuffix := (expandStep_suffix c cs).trans (List.suffix_cons c cs)
      have hlength := (expandStep_suffix c cs).length_le
      rw [expandOf_cons, expandOf_eq_self (containsText_suffix hsuffix hmysql)
        (containsText_suffix hsuffix hmaria), expandStep_eq hmysql hmaria]
termination_by cs => cs.length
decreasing_by
  simp only [List.length_cons]
  omega

theorem expandExecutableComments_eq (sql : List Char) :
    expandExecutableComments sql = expandOf sql := by
  rw [expandExecutableComments]
  split
  · rfl
  · next h =>
      rw [Bool.not_eq_true, Bool.or_eq_false_iff] at h
      exact (expandOf_eq_self h.1 h.2).symm

theorem nextLexeme_mark {c : Char} {p : List Char} (t : List Char)
    (h : (nextLexeme env afterValue (c :: p)).closed) :
    nextLexeme env afterValue (c :: p ++ '?' :: t) =
      (nextLexeme env afterValue (c :: p)).append ('?' :: t) := by
  have hx : EndsPiece '?' := .inl rfl
  apply nextLexeme_append_of (P := fun lexed => lexed.closed = true) _ _ _ _ _ _ _ _ _ _ h
  · exact fun _ => lexDash_append hx t
  · exact fun _ => lexAt_append hx t p
  · exact fun hp => skipLine_append hp _
  · exact lexSlash_append hx t
  · exact fun _ => lexLess_append hx t p
  · intro short extended _ hext _
    apply lexOperator_append t short
    intro e he
    rcases hext e he with heq | heq | heq <;> rw [heq] <;> rfl
  · exact fun hp => readQuotedIdent_append hp _
  · exact fun _ hp => readString_append hp (.inr rfl)
  · exact fun _ => readNumber_append hx t env (c :: p)
  · exact fun _ => readIdent_append hx t env (c :: p)

end RusqlEngine
