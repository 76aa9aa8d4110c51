import RusqlEngine.ExecuteUsing

/-!
# Literals of values

A string reads back as its value whatever it holds, its quotes and backslashes being doubled. A
text that looks like a number is pasted as it is, which the lexer takes for that number when a
digit follows its sign and it has one point at most.
-/

namespace RusqlEngine

def doubled (value : List Char) : List Char :=
  value.flatMap fun ch => if ch = '\'' ∨ ch = '\\' then [ch, ch] else [ch]

theorem quoteValue_append (value rest : List Char) :
    quoteValue value ++ rest = '\'' :: (doubled value ++ '\'' :: rest) := by
  simp only [quoteValue, doubled, List.cons_append, List.append_assoc, List.nil_append]

theorem doubled_cons (c : Char) (value : List Char) :
    doubled (c :: value) =
      (if c = '\'' ∨ c = '\\' then [c, c] else [c]) ++ doubled value :=
  List.flatMap_cons

theorem readString_doubled {rest : List Char} (hrest : peekIs rest (· == '\'') = false) :
    ∀ value : List Char, readString (doubled value ++ '\'' :: rest) = ⟨value, rest, true⟩
  | [] => by
      cases rest with
      | nil => rfl
      | cons d rest =>
        have hd : d ≠ '\'' := by simpa [peekIs] using hrest
        rw [doubled, List.flatMap_nil, List.nil_append, readString, if_pos rfl, if_neg hd]
  | c :: value => by
      rw [doubled_cons]
      by_cases hquote : c = '\''
      · rw [if_pos (.inl hquote), hquote]
        simp only [List.cons_append, List.nil_append]
        rw [readString, if_pos rfl, if_pos rfl, readString_doubled hrest value]
        rfl
      · by_cases hescape : c = '\\'
        · rw [if_pos (.inr hescape), hescape]
          simp only [List.cons_append, List.nil_append]
          rw [readString, if_neg (by decide), if_pos rfl, readString_doubled hrest value]
          rfl
        · rw [if_neg (not_or.mpr ⟨hquote, hescape⟩), List.singleton_append, List.cons_append]
          have hread := readString_doubled hrest value
          obtain ⟨d, more, hmore⟩ : ∃ d more, doubled value ++ '\'' :: rest = d :: more :=
            List.exists_cons_of_ne_nil (List.append_ne_nil_of_right_ne_nil _ (List.cons_ne_nil _ _))
          rw [hmore] at hread ⊢
          rw [readString, if_neg hquote, if_neg hescape, hread]
          rfl

/-- The expansion copies the string, as one literal or as several. -/
theorem copyLiteral_doubled (rest : List Char) : ∀ value : List Char,
    (copyLiteral '\'' (doubled value ++ '\'' :: rest)).text ++
        expandOf (copyLiteral '\'' (doubled value ++ '\'' :: rest)).rest =
      doubled value ++ '\'' :: expandOf rest
  | [] => by
      cases rest with
      | nil => rfl
      | cons d rest =>
        rw [doubled, List.flatMap_nil, List.nil_append, copyLiteral, if_pos rfl]
        rfl
  | c :: value => by
      have ih := copyLiteral_doubled rest value
      rw [doubled_cons]
      by_cases hquote : c = '\''
      · rw [if_pos (.inl hquote), hquote]
        simp only [List.cons_append, List.nil_append]
        rw [copyLiteral, if_pos rfl]
        dsimp only
        rw [expandOf_cons]
        simp only [expandStep, true_or, if_true, StringRead.push, List.cons_append,
          List.nil_append, ih]
      · by_cases hescape : c = '\\'
        · rw [if_pos (.inr hescape), hescape]
          simp only [List.cons_append, List.nil_append]
          rw [copyLiteral, if_neg (by decide), if_pos ⟨rfl, by decide⟩]
          exact congrArg ('\\' :: '\\' :: ·) ih
        · rw [if_neg (not_or.mpr ⟨hquote, hescape⟩), List.singleton_append, List.cons_append]
          obtain ⟨d, more, hmore⟩ : ∃ d more, doubled value ++ '\'' :: rest = d :: more :=
            List.exists_cons_of_ne_nil (List.append_ne_nil_of_right_ne_nil _ (List.cons_ne_nil _ _))
          rw [hmore] at ih ⊢
          rw [copyLiteral, if_neg hquote, if_neg fun h => hescape h.1]
          exact congrArg (c :: ·) ih

theorem expandOf_quoteValue (value rest : List Char) :
    expandOf (quoteValue value ++ rest) = quoteValue value ++ expandOf rest := by
  rw [quoteValue_append, quoteValue_append, expandOf_cons]
  simp only [expandStep, true_or, if_true, StringRead.push, List.cons_append, List.nil_append,
    copyLiteral_doubled]

theorem tokensOf_quoteValue {env : LexerEnv} {afterValue : Bool} (value : List Char) :
    tokensOf env afterValue (quoteValue value) = [⟨.stringLit, value⟩] := by
  have hread : readString (doubled value ++ ['\'']) = ⟨value, [], true⟩ :=
    readString_doubled rfl value
  have hnext : nextLexeme env afterValue ('\'' :: (doubled value ++ ['\''])) =
      ⟨[⟨.stringLit, value⟩], [], true⟩ := by
    simp [nextLexeme, isSpace, hread]
  have hquote := quoteValue_append value []
  rw [List.append_nil] at hquote
  rw [hquote, tokensOf_cons, hnext]
  rfl

theorem tokensOf_nullWord {env : LexerEnv} {afterValue : Bool} :
    tokensOf env afterValue nullWord = [identToken env nullWord] :=
  rfl

variable {text : List Char}

section

theorem expandOf_char {c : Char} (rest : List Char)
    (h : isNameChar c ∨ c = '.' ∨ c = '+' ∨ c = '-' ∧ peekIs rest (· == '-') = false) :
    expandOf (c :: rest) = c :: expandOf rest := by
  have hne : ∀ d : Char, isNameChar d = false ∧ d ≠ '.' ∧ d ≠ '+' ∧ d ≠ '-' → c ≠ d := by
    rintro d ⟨hname, hdot, hplus, hdash⟩ rfl
    rcases h with h | h | h | h
    · exact absurd (hname.symm.trans h) Bool.false_ne_true
    · exact hdot h
    · exact hplus h
    · exact hdash h.1
  have hquote : ¬ (c = '\'' ∨ c = '"' ∨ c = '`') := by
    rw [not_or, not_or]
    exact ⟨hne _ (by decide), hne _ (by decide), hne _ (by decide)⟩
  have hline : ¬ (c = '#' ∨ c = '-' ∧ peekIs rest (· == '-')) := by
    rintro (hhash | ⟨rfl, hdash⟩)
    · exact hne '#' (by decide) hhash
    · rcases h with h | h | h | h
      · exact absurd h (by decide)
      · exact absurd h (by decide)
      · exact absurd h (by decide)
      · exact absurd (h.2.symm.trans hdash) Bool.false_ne_true
  have hblock : ¬ (c = '/' ∧ peekIs rest (· == '*')) := fun h => hne '/' (by decide) h.1
  rw [expandOf_cons, expandStep, if_neg hquote, if_neg hline, if_neg hblock]
  rfl

theorem expandOf_plain (rest : List Char) : ∀ {text : List Char},
    (∀ c ∈ text, isNameChar c ∨ c = '.') → expandOf (text ++ rest) = text ++ expandOf rest
  | [], _ => rfl
  | c :: text, h => by
      have hc : isNameChar c ∨ c = '.' ∨ c = '+' ∨
          c = '-' ∧ peekIs (text ++ rest) (· == '-') = false :=
        (h c List.mem_cons_self).imp_right .inl
      rw [List.cons_append, expandOf_char _ hc, expandOf_plain rest fun d hd => h d (.tail _ hd)]
      rfl

theorem plain_of_number {c : Char} (h : isNumberChar c) : isNameChar c ∨ c = '.' := by
  rw [isNumberChar, Bool.or_eq_true, beq_iff_eq] at h
  refine h.imp_left fun hdigit => ?_
  rw [isNameChar, Char.isAlphanum, hdigit, Bool.or_true, Bool.true_or]

theorem looksNumeric_unsigned {value : List Char} (h : looksNumeric value) :
    (∀ c ∈ unsignedPart value, isNumberChar c) ∧ unsignedPart value ≠ [] ∧
      (value = '-' :: unsignedPart value ∨ value = '+' :: unsignedPart value ∨
        value = unsignedPart value ∧ peekIs value Char.isDigit) := by
  cases value with
  | nil => cases h
  | cons c cs =>
    rw [looksNumeric, Bool.and_eq_true, Bool.and_eq_true, Bool.or_eq_true, Bool.or_eq_true,
      beq_iff_eq, beq_iff_eq, List.all_eq_true] at h
    obtain ⟨⟨hfirst, hchars⟩, hdigit⟩ := h
    have hsigned : c.isDigit = false → cs ≠ [] := by
      rintro hc rfl
      rw [List.any_cons, hc] at hdigit
      cases hdigit
    rw [unsignedPart, peekIs, List.head?_cons, Option.any_some]
    rcases hfirst with (hfirst | rfl) | rfl
    · have hminus : c ≠ '-' := by
        rintro rfl
        exact absurd hfirst (by decide)
      have hplus : c ≠ '+' := by
        rintro rfl
        exact absurd hfirst (by decide)
      have hsign : ¬ (c == '-' || c == '+') := by
        rw [Bool.or_eq_true, beq_iff_eq, beq_iff_eq]
        exact not_or.mpr ⟨hminus, hplus⟩
      rw [if_neg hsign]
      refine ⟨?_, List.cons_ne_nil c cs, .inr (.inr ⟨rfl, hfirst⟩)⟩
      intro d hd
      rcases List.mem_cons.mp hd with rfl | hd
      · rw [isNumberChar, hfirst, Bool.true_or]
      · exact hchars d hd
    · exact ⟨hchars, hsigned rfl, .inl rfl⟩
    · exact ⟨hchars, hsigned rfl, .inr (.inl rfl)⟩

variable {env : LexerEnv} {afterValue : Bool}

theorem nextLexeme_digit {c : Char} (hc : c.isDigit) (cs : List Char) :
    nextLexeme env afterValue (c :: cs) = readNumber env (c :: cs) := by
  have hne : ∀ d : Char, d.isDigit = false → c ≠ d := by
    rintro d hd rfl
    exact absurd (hd.symm.trans hc) Bool.false_ne_true
  have hspace : ¬ isSpace c := by
    rw [isSpace_of_isDigit hc]
    exact Bool.false_ne_true
  have hsingle : singleKind c = none := by
    rw [singleKind, List.lookup_eq_none_iff]
    intro e he
    simp only [List.mem_cons, List.not_mem_nil, or_false] at he
    rcases he with rfl | rfl | rfl | rfl | rfl | rfl | rfl | rfl | rfl | rfl | rfl | rfl <;>
      exact bne_iff_ne.mpr (hne _ (by decide))
  have hname : ¬ (c = '`' ∨ c = '"') := not_or.mpr ⟨hne _ (by decide), hne _ (by decide)⟩
  rw [nextLexeme, if_neg hspace, if_neg (hne _ (by decide)), if_neg (hne _ (by decide)),
    if_neg (hne _ (by decide)), if_neg (hne _ (by decide)), if_neg (hne _ (by decide)),
    if_neg (hne _ (by decide)), if_neg (hne _ (by decide)), if_neg (hne _ (by decide)),
    if_neg (hne _ (by decide)), if_neg hname, if_neg (hne _ (by decide)), hsingle]
  exact if_pos hc

theorem valueAfter_cons (t : Token) (tokens : List Token) :
    endsValue afterValue (t :: tokens) = endsValue false (t :: tokens) := by
  rw [endsValue, endsValue]
  cases h : (t :: tokens).getLast? with
  | none => exact absurd (List.getLast?_eq_none_iff.mp h) (List.cons_ne_nil t tokens)
  | some last => rfl

theorem readExponent_nil (number : List Char) : readExponent env number [] = none := by
  rw [readExponent]
  split <;> rfl

theorem tokensOf_number (hfirst : peekIs text Char.isDigit) (htext : ∀ c ∈ text, isNumberChar c) :
    tokensOf env afterValue text = [⟨.numberLit, text⟩] := by
  cases text with
  | nil => cases hfirst
  | cons c text =>
    have hc : c.isDigit := by simpa [peekIs] using hfirst
    have hnumber : (c :: text).takeWhile isNumberChar = c :: text :=
      List.takeWhile_eq_self_iff.mpr htext
    have hrest : (c :: text).dropWhile isNumberChar = [] := List.dropWhile_eq_nil_iff.mpr htext
    have hread : readNumber env (c :: text) = ⟨[⟨.numberLit, c :: text⟩], [], true⟩ := by
      rw [readNumber, hnumber, hrest, readExponent_nil]
      exact if_neg fun h => Bool.false_ne_true h.2
    rw [tokensOf_cons, nextLexeme_digit hc, hread]
    rfl

theorem tokensOf_plus (text : List Char) :
    tokensOf env afterValue ('+' :: text) = ⟨.plus, []⟩ :: tokensOf env false text := by
  rw [tokensOf_cons]
  rfl

theorem tokensOf_dot (text : List Char) :
    tokensOf env afterValue ('.' :: text) = ⟨.dot, []⟩ :: tokensOf env false text := by
  rw [tokensOf_cons]
  rfl

theorem nextLexeme_dash (text : List Char) :
    nextLexeme env afterValue ('-' :: text) = lexDash env afterValue text :=
  rfl

theorem peekIs_numberChars (hchars : ∀ c ∈ text, isNumberChar c) {d : Char}
    (hd : isNumberChar d = false) : peekIs text (· == d) = false := by
  cases text with
  | nil => rfl
  | cons c text =>
    have hc := hchars c List.mem_cons_self
    rw [peekIs, List.head?_cons, Option.any_some, beq_eq_false_iff_ne]
    rintro rfl
    exact absurd (hd.symm.trans hc) Bool.false_ne_true

theorem tokensOf_minus (hchars : ∀ c ∈ text, isNumberChar c)
    (h : (peekIs text Char.isDigit && !afterValue) = false) :
    tokensOf env afterValue ('-' :: text) = ⟨.minus, []⟩ :: tokensOf env false text := by
  have hdash : lexDash env afterValue text = Lexed.symbol .minus text := by
    rw [lexDash, peekIs_numberChars hchars (by decide), peekIs_numberChars hchars (by decide), h]
    rfl
  rw [tokensOf_cons, nextLexeme_dash, hdash]
  rfl

theorem tokensOf_negative (hfirst : peekIs text Char.isDigit)
    (hchars : ∀ c ∈ text, isNumberChar c) :
    tokensOf env false ('-' :: text) = [⟨.numberLit, negativeText ('-' :: text)⟩] := by
  have hnumber : text.takeWhile isNumberChar = text := List.takeWhile_eq_self_iff.mpr hchars
  have hrest : text.dropWhile isNumberChar = [] := List.dropWhile_eq_nil_iff.mpr hchars
  have hdash : lexDash env false text =
      ⟨[⟨.numberLit, negativeText ('-' :: text)⟩], [], true⟩ := by
    rw [lexDash, peekIs_numberChars hchars (by decide), peekIs_numberChars hchars (by decide),
      hfirst, hnumber, hrest]
    simp only [readExponent_nil]
    rfl
  rw [tokensOf_cons, nextLexeme_dash, hdash]
  rfl

end

theorem count_dot_digits : ∀ {text : List Char}, (∀ c ∈ text, isNumberChar c) →
    (text.all Char.isDigit ↔ text.count '.' = 0)
  | [], _ => by simp
  | c :: text, h => by
      have ih := count_dot_digits fun d hd => h d (.tail _ hd)
      have hc := h c List.mem_cons_self
      rw [isNumberChar, Bool.or_eq_true, beq_iff_eq] at hc
      rw [List.all_cons, Bool.and_eq_true, ih]
      by_cases hdot : c = '.'
      · rw [hdot, List.count_cons_self]
        exact ⟨fun h => absurd h.1 (by decide), fun h => absurd h (Nat.succ_ne_zero _)⟩
      · rw [List.count_cons_of_ne hdot]
        exact and_iff_right (hc.resolve_right hdot)

theorem dropWhile_digits (h : ∀ c ∈ text, isNumberChar c) :
    text.dropWhile Char.isDigit = [] ∨ ∃ fraction, text.dropWhile Char.isDigit = '.' :: fraction ∧
      ∀ c ∈ fraction, isNumberChar c := by
  induction text with
  | nil => exact .inl rfl
  | cons c text ih =>
    have htext : ∀ d ∈ text, isNumberChar d := fun d hd => h d (.tail _ hd)
    have hc := h c List.mem_cons_self
    rw [isNumberChar, Bool.or_eq_true, beq_iff_eq] at hc
    rw [List.dropWhile_cons]
    split
    next => exact ih htext
    next hdigit => exact .inr ⟨text, congrArg (· :: text) (hc.resolve_left hdigit), htext⟩

/-- A text of digits and points that begins with a digit is a number when it has one point at
most. -/
theorem isSome_decimalValue (hfirst : peekIs text Char.isDigit)
    (htext : ∀ c ∈ text, isNumberChar c) : (decimalValue text).isSome ↔ text.count '.' ≤ 1 := by
  have hwhole : text.takeWhile Char.isDigit ≠ [] := by
    cases text with
    | nil => cases hfirst
    | cons c text =>
      have hc : c.isDigit := by simpa [peekIs] using hfirst
      rw [List.takeWhile_cons, if_pos hc]
      exact List.cons_ne_nil _ _
  have hcount : text.count '.' = (text.dropWhile Char.isDigit).count '.' := by
    have hdigits : (text.takeWhile Char.isDigit).count '.' = 0 := by
      rw [List.count_eq_zero]
      intro hmem
      exact absurd (List.mem_takeWhile_imp hmem) (by decide)
    have happend := congrArg (List.count '.') (List.takeWhile_append_dropWhile
      (p := Char.isDigit) (l := text))
    rw [List.count_append, hdigits, Nat.zero_add] at happend
    exact happend.symm
  rw [decimalValue, hcount]
  rcases dropWhile_digits htext with hnil | ⟨fraction, hfraction, hchars⟩
  · rw [hnil, if_pos ⟨.inl rfl, .inl hwhole⟩]
    exact ⟨fun _ => Nat.zero_le _, fun _ => rfl⟩
  · have hdigits := count_dot_digits hchars
    rw [hfraction, List.count_cons_self]
    constructor
    · intro h
      split at h
      next hform =>
        rcases hform.1 with hnil | ⟨-, hall⟩
        · exact absurd hnil (List.cons_ne_nil _ _)
        · rw [List.drop_one, List.tail_cons] at hall
          exact Nat.succ_le_succ (hdigits.mp hall).le
      next => cases h
    · intro h
      have hall : ((('.' :: fraction).drop 1).all Char.isDigit) :=
        hdigits.mpr (Nat.le_zero.mp (Nat.le_of_succ_le_succ h))
      rw [if_pos ⟨.inr ⟨rfl, hall⟩, .inl hwhole⟩]
      rfl

theorem ofDigitChars_zeros (h : ∀ c ∈ text, c = '0') : Nat.ofDigitChars 10 text 0 = 0 := by
  rw [List.eq_replicate_of_mem h, Nat.ofDigitChars_replicate_zero, Nat.mul_zero]

theorem eq_zero_of_digit {c : Char} (hdigit : c.isDigit)
    (hzero : ¬ ('1' ≤ c && c ≤ '9')) : c = '0' := by
  simp only [Char.isDigit, Bool.and_eq_true, decide_eq_true_eq] at hdigit hzero
  have hlow : 48 ≤ c.val.toNat := UInt32.le_iff_toNat_le.mp hdigit.1
  have hhigh : c ≤ '9' := hdigit.2
  have hone : ¬ 49 ≤ c.val.toNat := fun h => hzero ⟨UInt32.le_iff_toNat_le.mpr h, hhigh⟩
  have hval : c.val.toNat = 48 := by omega
  exact Char.ext (UInt32.toNat_inj.mp hval)

theorem decimalValue_zero {q : ℚ} (hzero : text.any (fun c => '1' ≤ c && c ≤ '9') = false)
    (h : decimalValue text = some q) : q = 0 := by
  have hdigit : ∀ c ∈ text, c.isDigit → c = '0' := by
    intro c hc hdigit
    exact eq_zero_of_digit hdigit (List.any_eq_false.mp hzero c hc)
  have hwhole : ∀ c ∈ text.takeWhile Char.isDigit, c = '0' := fun c hc =>
    hdigit c ((List.takeWhile_sublist _).subset hc) (List.mem_takeWhile_imp hc)
  rw [decimalValue] at h
  obtain ⟨⟨hform, -⟩, hq⟩ := Option.ite_none_right_eq_some.mp h
  have hfraction : ∀ c ∈ (text.dropWhile Char.isDigit).drop 1, c = '0' := by
    intro c hc
    have hmem : c ∈ text := (List.dropWhile_sublist _).subset (List.mem_of_mem_drop hc)
    rcases hform with hnil | ⟨-, hall⟩
    · rw [hnil] at hc
      cases hc
    · exact hdigit c hmem (List.all_eq_true.mp hall c hc)
  rw [← Option.some.inj hq, ofDigitChars_zeros hwhole, ofDigitChars_zeros hfraction]
  simp

theorem signedValue_digit (h : peekIs text Char.isDigit) :
    signedValue text = decimalValue text := by
  cases text with
  | nil => cases h
  | cons c text =>
    have hc : c.isDigit := by simpa [peekIs] using h
    have hminus : c ≠ '-' := by
      rintro rfl
      exact absurd hc (by decide)
    have hplus : c ≠ '+' := by
      rintro rfl
      exact absurd hc (by decide)
    rw [signedValue, if_neg hminus, if_neg hplus]

section

variable {env : LexerEnv} {afterValue : Bool} {value : List Char}

theorem nullWord_eq : nullWord = ['N', 'U', 'L', 'L'] := rfl

theorem not_looksNumeric_nullWord : looksNumeric nullWord = false := by
  decide

theorem pasteValue_numeric (h : looksNumeric value) : pasteValue value = value :=
  if_pos (.inr h)

theorem ne_nullWord_of_numeric (h : looksNumeric value) : value ≠ nullWord := by
  rintro rfl
  exact absurd (not_looksNumeric_nullWord.symm.trans h) Bool.false_ne_true

theorem tokensOf_numeric (env : LexerEnv) (afterValue : Bool) (h : looksNumeric value)
    (hfirst : peekIs (unsignedPart value) Char.isDigit) :
    ∃ sign text, tokensOf env afterValue value = sign ++ [⟨.numberLit, text⟩] ∧
      (sign = [] ∨ sign = [⟨.minus, []⟩] ∨ sign = [⟨.plus, []⟩]) := by
  obtain ⟨hchars, -, hform⟩ := looksNumeric_unsigned h
  rcases hform with hvalue | hvalue | ⟨hvalue, hdigit⟩
  · rw [hvalue]
    cases afterValue with
    | true =>
      rw [tokensOf_minus hchars (by rw [Bool.not_true, Bool.and_false]),
        tokensOf_number hfirst hchars]
      exact ⟨[⟨.minus, []⟩], _, rfl, .inr (.inl rfl)⟩
    | false => exact ⟨[], _, tokensOf_negative hfirst hchars, .inl rfl⟩
  · rw [hvalue, tokensOf_plus, tokensOf_number hfirst hchars]
    exact ⟨[⟨.plus, []⟩], _, rfl, .inr (.inr rfl)⟩
  · rw [← hvalue] at hchars
    exact ⟨[], _, tokensOf_number hdigit hchars, .inl rfl⟩

theorem tokensOf_signed_dot (env : LexerEnv) (afterValue : Bool) (h : looksNumeric value)
    (hfirst : peekIs (unsignedPart value) Char.isDigit = false) :
    ∃ sign more, tokensOf env afterValue value = ⟨sign, []⟩ :: ⟨.dot, []⟩ :: more ∧
      (sign = .minus ∨ sign = .plus) := by
  obtain ⟨hchars, hne, hform⟩ := looksNumeric_unsigned h
  obtain ⟨text, htext⟩ : ∃ text, unsignedPart value = '.' :: text := by
    obtain ⟨c, text, hcons⟩ := List.exists_cons_of_ne_nil hne
    rw [hcons] at hfirst hchars
    have hc := hchars c List.mem_cons_self
    have hdigit : c.isDigit = false := by simpa [peekIs] using hfirst
    rw [isNumberChar, hdigit, Bool.false_or, beq_iff_eq] at hc
    exact ⟨text, by rw [hcons, hc]⟩
  rcases hform with hvalue | hvalue | ⟨hvalue, hdigit⟩
  · rw [hvalue, tokensOf_minus hchars (by rw [hfirst, Bool.false_and]), htext, tokensOf_dot]
    exact ⟨_, _, rfl, .inl rfl⟩
  · rw [hvalue, tokensOf_plus, htext, tokensOf_dot]
    exact ⟨_, _, rfl, .inr rfl⟩
  · rw [← hvalue, hdigit] at hfirst
    cases hfirst

theorem literalOf_numeric (h : looksNumeric value)
    (hfirst : peekIs (unsignedPart value) Char.isDigit) (hcount : value.count '.' ≤ 1) :
    LiteralOf env value (tokensOf env afterValue value) := by
  obtain ⟨hchars, -, hform⟩ := looksNumeric_unsigned h
  have hpoints : (unsignedPart value).count '.' ≤ value.count '.' := by
    apply List.Sublist.count_le
    rw [unsignedPart]
    split
    next => exact List.drop_sublist 1 value
    next => exact List.Sublist.refl value
  obtain ⟨q, hq⟩ := Option.isSome_iff_exists.mp
    ((isSome_decimalValue hfirst hchars).mpr (hpoints.trans hcount))
  rcases hform with hvalue | hvalue | ⟨hvalue, hdigit⟩
  · generalize unsignedPart value = text at hvalue hchars hfirst hq
    subst hvalue
    have hsigned : signedValue ('-' :: text) = some (-q) := by
      rw [signedValue, if_pos rfl, hq]
      rfl
    cases afterValue with
    | true =>
      rw [tokensOf_minus hchars (by rw [Bool.not_true, Bool.and_false]),
        tokensOf_number hfirst hchars]
      exact LiteralOf.negative hsigned hq
    | false =>
      rw [tokensOf_negative hfirst hchars, negativeText]
      split
      next => exact LiteralOf.number hsigned hsigned
      next hzero =>
        rw [Bool.not_eq_true, List.any_cons, Bool.or_eq_false_iff] at hzero
        have hnone := decimalValue_zero hzero.2 hq
        refine LiteralOf.number hsigned ?_
        rw [List.drop_one, List.tail_cons, signedValue_digit hfirst, hq, hnone, neg_zero]
  · generalize unsignedPart value = text at hvalue hchars hfirst hq
    subst hvalue
    have hsigned : signedValue ('+' :: text) = some q := by
      rw [signedValue, if_neg (by decide), if_pos rfl, hq]
    rw [tokensOf_plus, tokensOf_number hfirst hchars]
    exact LiteralOf.positive hsigned hq
  · rw [← hvalue] at hchars hq
    rw [tokensOf_number hdigit hchars]
    have hsigned := (signedValue_digit hdigit).trans hq
    exact LiteralOf.number hsigned hsigned

theorem literalOf_pasteValue (h : WellSpelled value) :
    LiteralOf env value (tokensOf env afterValue (pasteValue value)) := by
  by_cases hnull : value = nullWord
  · subst hnull
    rw [pasteValue, if_pos (.inl rfl), tokensOf_nullWord]
    exact LiteralOf.null
  · by_cases hnumeric : looksNumeric value = true
    · rw [pasteValue_numeric hnumeric]
      exact literalOf_numeric hnumeric (h hnumeric).1 (h hnumeric).2
    · rw [pasteValue, if_neg (not_or.mpr ⟨hnull, hnumeric⟩), tokensOf_quoteValue]
      exact LiteralOf.string hnull

theorem signedValue_isSome {q : ℚ} (h : looksNumeric value) (hq : signedValue value = some q) :
    (decimalValue (unsignedPart value)).isSome := by
  obtain ⟨-, -, hform⟩ := looksNumeric_unsigned h
  rcases hform with hvalue | hvalue | ⟨hvalue, hdigit⟩
  · rw [hvalue, signedValue, if_pos rfl] at hq
    obtain ⟨r, hr, -⟩ := Option.map_eq_some_iff.mp hq
    rw [hr]
    rfl
  · rw [hvalue, signedValue, if_neg (by decide), if_pos rfl] at hq
    rw [hq]
    rfl
  · rw [signedValue_digit hdigit, hvalue] at hq
    rw [hq]
    rfl

theorem count_unsignedPart (h : looksNumeric value) :
    value.count '.' = (unsignedPart value).count '.' := by
  obtain ⟨-, -, hform⟩ := looksNumeric_unsigned h
  rcases hform with hvalue | hvalue | ⟨hvalue, -⟩
  · rw [hvalue, List.count_cons_of_ne (by decide), ← hvalue]
  · rw [hvalue, List.count_cons_of_ne (by decide), ← hvalue]
  · rw [← hvalue]

variable {literal : List Token}

theorem LiteralOf.null_eq (hl : LiteralOf env value literal) (h : value = nullWord) :
    literal = [identToken env nullWord] := by
  have hnumber : signedValue value = none := by
    rw [h]
    decide
  cases hl with
  | null => rfl
  | string hne => exact absurd h hne
  | number hvalue htext | negative hvalue htext | positive hvalue htext =>
    exact absurd (hnumber.symm.trans hvalue) (by simp)

theorem LiteralOf.numeric (hl : LiteralOf env value literal) (h : value ≠ nullWord) :
    (literal = [⟨.stringLit, value⟩]) ∨
      ∃ sign text q, literal = sign ++ [⟨.numberLit, text⟩] ∧ signedValue value = some q ∧
        (sign = [] ∨ sign = [⟨.minus, []⟩] ∨ sign = [⟨.plus, []⟩]) := by
  cases hl with
  | null => exact absurd rfl h
  | string => exact .inl rfl
  | number hvalue htext => exact .inr ⟨[], _, _, rfl, hvalue, .inl rfl⟩
  | negative hvalue htext => exact .inr ⟨_, _, _, rfl, hvalue, .inr (.inl rfl)⟩
  | positive hvalue htext => exact .inr ⟨_, _, _, rfl, hvalue, .inr (.inr rfl)⟩

/-- A value whose literal the tokens begin with is well spelled, and the literal is what is
pasted. -/
theorem literal_of_tokens {before after : List Token} (hl : LiteralOf env value literal)
    (h : tokensOf env afterValue (pasteValue value) ++ before = literal ++ after) :
    WellSpelled value ∧ tokensOf env afterValue (pasteValue value) = literal := by
  by_cases hnull : value = nullWord
  · subst hnull
    refine ⟨fun hnumeric => absurd rfl (ne_nullWord_of_numeric hnumeric), ?_⟩
    rw [hl.null_eq rfl, pasteValue, if_pos (.inl rfl), tokensOf_nullWord]
  by_cases hnumeric : looksNumeric value = true
  · rw [pasteValue_numeric hnumeric] at h ⊢
    cases hfirst : peekIs (unsignedPart value) Char.isDigit with
    | false =>
      obtain ⟨kind, more, htokens, hkind⟩ := tokensOf_signed_dot env afterValue hnumeric hfirst
      rw [htokens] at h
      rcases hl.numeric hnull with rfl | ⟨sign, text, q, rfl, -, rfl | rfl | rfl⟩ <;>
        rcases hkind with rfl | rfl <;> simp at h
    | true =>
      obtain ⟨sign', text', htokens, hsign⟩ := tokensOf_numeric env afterValue hnumeric hfirst
      rw [htokens] at h ⊢
      rcases hl.numeric hnull with rfl | ⟨sign, text, q, rfl, hq, hsign'⟩
      · rcases hsign with rfl | rfl | rfl <;> simp at h
      · refine ⟨fun _ => ⟨hfirst, ?_⟩, ?_⟩
        · rw [count_unsignedPart hnumeric]
          exact (isSome_decimalValue hfirst (looksNumeric_unsigned hnumeric).1).mp
            (signedValue_isSome hnumeric hq)
        · rcases hsign with rfl | rfl | rfl <;> rcases hsign' with rfl | rfl | rfl <;> simp_all
  · rw [pasteValue, if_neg (not_or.mpr ⟨hnull, hnumeric⟩), tokensOf_quoteValue] at h ⊢
    refine ⟨fun h => absurd h hnumeric, ?_⟩
    rcases hl.numeric hnull with rfl | ⟨sign, text, q, rfl, hq, rfl | rfl | rfl⟩
    · rfl
    · cases h
    · cases h
    · cases h

theorem LiteralOf.ne_nil (hl : LiteralOf env value literal) : literal ≠ [] := by
  cases hl <;> exact List.cons_ne_nil _ _

theorem endsValue_literal (h : literal ≠ []) :
    endsValue afterValue literal = endsValue false literal := by
  obtain ⟨t, tokens, rfl⟩ := List.exists_cons_of_ne_nil h
  exact valueAfter_cons t tokens

theorem LiteralOf.ends (hl : LiteralOf env value literal) :
    endsValue false literal =
      if valueKind value = .null then endsValue false [identToken env nullWord] else true := by
  by_cases hnull : value = nullWord
  · rw [hl.null_eq hnull, valueKind, if_pos hnull, if_pos rfl]
  · have hkind : valueKind value ≠ .null := by
      rw [valueKind, if_neg hnull]
      split <;> exact ValueKind.noConfusion
    rw [if_neg hkind]
    rcases hl.numeric hnull with rfl | ⟨sign, text, q, rfl, -, rfl | rfl | rfl⟩ <;> rfl

theorem expandOf_pasteValue (value rest : List Char) :
    expandOf (pasteValue value ++ rest) = pasteValue value ++ expandOf rest := by
  by_cases hnull : value = nullWord
  · subst hnull
    rw [pasteValue, if_pos (.inl rfl)]
    apply expandOf_plain
    intro c hc
    rw [nullWord_eq] at hc
    simp only [List.mem_cons, List.not_mem_nil, or_false] at hc
    rcases hc with rfl | rfl | rfl | rfl <;> exact .inl rfl
  by_cases hnumeric : looksNumeric value = true
  · rw [pasteValue_numeric hnumeric]
    obtain ⟨hchars, hne, hform⟩ := looksNumeric_unsigned hnumeric
    have hplain := expandOf_plain rest fun c hc => plain_of_number (hchars c hc)
    rcases hform with hvalue | hvalue | ⟨hvalue, -⟩
    · have hdash : peekIs (unsignedPart value ++ rest) (· == '-') = false := by
        rw [peekIs_append_left rest _ hne]
        exact peekIs_numberChars hchars (by decide)
      generalize unsignedPart value = text at hvalue hplain hdash
      rw [hvalue, List.cons_append, expandOf_char _ (.inr (.inr (.inr ⟨rfl, hdash⟩))), hplain]
      rfl
    · generalize unsignedPart value = text at hvalue hplain
      rw [hvalue, List.cons_append, expandOf_char _ (.inr (.inr (.inl rfl))), hplain]
      rfl
    · rw [← hvalue] at hplain
      exact hplain
  · rw [pasteValue, if_neg (not_or.mpr ⟨hnull, hnumeric⟩)]
    exact expandOf_quoteValue value rest

end

end RusqlEngine
