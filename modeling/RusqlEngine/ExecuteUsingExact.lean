import RusqlEngine.ExecuteUsingLiterals

/-!
# When EXECUTE keeps values

The theorem is about prepared texts whose pieces and literals are apart: a mark in a comment is
taken for a mark all the same, and a sign behind another one begins a comment. There the query is
read as the prepared text with a literal for each mark exactly when the values that look like
numbers are spelled as the lexer reads numbers.
-/

namespace RusqlEngine

theorem scanQuoted_eq (quote : Char) : ∀ cs : List Char,
    (scanQuoted quote cs).1 ++ (scanQuoted quote cs).2 = cs
  | [] => rfl
  | [_] => rfl
  | c :: d :: cs => by
      rw [scanQuoted]
      split
      next => exact congrArg (c :: d :: ·) (scanQuoted_eq quote cs)
      next =>
        split
        next =>
          split
          next => exact congrArg (c :: d :: ·) (scanQuoted_eq quote cs)
          next => rfl
        next => exact congrArg (c :: ·) (scanQuoted_eq quote (d :: cs))

theorem length_scanQuoted (quote : Char) (cs : List Char) :
    (scanQuoted quote cs).2.length ≤ cs.length := by
  have h := congrArg List.length (scanQuoted_eq quote cs)
  rw [List.length_append] at h
  omega

theorem joinPieces_append (params : List (List Char)) (front piece : List Char)
    (pieces : List (List Char)) :
    joinPieces params (front ++ piece) pieces = front ++ joinPieces params piece pieces := by
  cases pieces with
  | nil => rfl
  | cons next pieces => simp only [joinPieces, List.append_assoc]

/-- The scan puts the values between the pieces. -/
theorem substituteLoop_eq (userVars : VarMap) : ∀ {fuel : Nat} {names : List (List Char)}
    {cs : List Char}, cs.length ≤ fuel →
    substituteLoop userVars fuel names cs =
      if (cutPrepared fuel cs).2.length ≤ names.length then
        some (joinPieces (names.map fun name => pasteValue (variableValue userVars name))
          (cutPrepared fuel cs).1 (cutPrepared fuel cs).2,
          names.drop (cutPrepared fuel cs).2.length)
      else none
  | 0, names, [], _ | _ + 1, names, [], _ => by simp [substituteLoop, cutPrepared, joinPieces]
  | 0, _, c :: cs, h => absurd h (Nat.not_succ_le_zero _)
  | fuel + 1, names, c :: cs, h => by
      have hcs : cs.length ≤ fuel := Nat.le_of_succ_le_succ h
      rw [substituteLoop.eq_def, cutPrepared]
      dsimp only
      split
      next =>
        rw [substituteLoop_eq userVars ((length_scanQuoted c cs).trans hcs)]
        simp only [Prod.map, id, joinPieces_append]
        split <;> rfl
      next =>
        split
        next =>
          rw [substituteLoop_eq userVars hcs]
          have hfront := joinPieces_append
            (names.map fun name => pasteValue (variableValue userVars name)) [c]
            (cutPrepared fuel cs).1 (cutPrepared fuel cs).2
          rw [List.singleton_append, List.singleton_append] at hfront
          simp only [Prod.map, id, hfront]
          split <;> rfl
        next =>
          cases names with
          | nil => simp
          | cons name names =>
            dsimp only
            rw [substituteLoop_eq userVars hcs]
            simp only [List.length_cons, Nat.add_le_add_iff_right, List.drop_succ_cons,
              List.map_cons, joinPieces, List.headD_cons, List.tail_cons, List.nil_append]
            split <;> rfl

theorem joinPieces_cutPrepared : ∀ {fuel : Nat} {cs : List Char}, cs.length ≤ fuel →
    joinPieces [] (cutPrepared fuel cs).1 (cutPrepared fuel cs).2 = cs
  | 0, [], _ => rfl
  | _ + 1, [], _ => rfl
  | 0, _ :: _, h => absurd h (Nat.not_succ_le_zero _)
  | fuel + 1, c :: cs, h => by
      have hcs : cs.length ≤ fuel := Nat.le_of_succ_le_succ h
      rw [cutPrepared]
      split
      next =>
        have hrest := joinPieces_cutPrepared ((length_scanQuoted c cs).trans hcs)
        have hfront := joinPieces_append [] (c :: (scanQuoted c cs).1)
          (cutPrepared fuel (scanQuoted c cs).2).1 (cutPrepared fuel (scanQuoted c cs).2).2
        rw [hrest] at hfront
        exact hfront.trans (congrArg (c :: ·) (scanQuoted_eq c cs))
      next =>
        split
        next =>
          have hfront := joinPieces_append [] [c] (cutPrepared fuel cs).1 (cutPrepared fuel cs).2
          rw [joinPieces_cutPrepared hcs] at hfront
          exact hfront
        next hmark =>
          rw [not_not] at hmark
          have hrest := joinPieces_cutPrepared hcs
          rw [hmark]
          exact congrArg ('?' :: ·) hrest

theorem preparedQuery_eq {userVars : VarMap} {usingVars : List (List Char)}
    {prepared query : List Char} (h : preparedQuery userVars usingVars prepared = .ok query) :
    usingVars.length = (cutPrepared prepared.length prepared).2.length ∧
      query = joinPieces ((usingVars.map (variableValue userVars)).map pasteValue)
        (cutPrepared prepared.length prepared).1 (cutPrepared prepared.length prepared).2 := by
  rw [preparedQuery, substituteLoop_eq userVars le_rfl] at h
  split at h
  next found hfound =>
    obtain ⟨hle, hfound⟩ := Option.ite_none_right_eq_some.mp hfound
    obtain ⟨htext, hrest⟩ := Prod.mk.inj (Option.some.inj hfound)
    cases h
    refine ⟨Nat.le_antisymm (List.drop_eq_nil_iff.mp hrest) hle, ?_⟩
    rw [← htext, List.map_map]
    rfl
  next => cases h

section

variable {env : LexerEnv}

variable {more : List Char}

/-- A text that is read alike with `more` behind it is read before it. -/
theorem tokensOf_apart : ∀ {fuel : Nat} {afterValue : Bool} {text : List Char},
    lexApart env more fuel afterValue text →
    tokensOf env afterValue (text ++ more) =
      tokensOf env afterValue text ++ tokensOf env (valueAfter env afterValue text) more
  | _, _, [], _ => rfl
  | 0, _, c :: text, h => by simp [lexApart] at h
  | fuel + 1, afterValue, c :: text, h => by
      simp only [lexApart, reduceCtorEq, decide_false, Bool.false_or, Bool.and_eq_true,
        decide_eq_true_eq] at h
      obtain ⟨⟨-, hnext⟩, hrest⟩ := h
      have hafter : valueAfter env afterValue (c :: text) =
          valueAfter env (endsValue afterValue (nextLexeme env afterValue (c :: text)).tokens)
            (nextLexeme env afterValue (c :: text)).rest := by
        rw [valueAfter, tokensOf_cons, ← endsValue_append]
        rfl
      rw [hafter, tokensOf_cons, List.cons_append, tokensOf_cons, ← List.cons_append, hnext]
      simp only [Lexed.append, tokensOf_apart hrest, List.append_assoc]

/-- The reading of a text with marks, by itself. -/
def segmentsOf (env : LexerEnv) (afterValue : Bool) (ends : List Bool) (cs : List Char) :
    List Token × List (List Token) :=
  segmentsLoop env cs.length afterValue ends cs

theorem segmentsLoop_of_le : ∀ {fuel fuel' : Nat} {afterValue : Bool} {ends : List Bool}
    {cs : List Char}, cs.length ≤ fuel → cs.length ≤ fuel' →
    segmentsLoop env fuel afterValue ends cs = segmentsLoop env fuel' afterValue ends cs
  | 0, fuel', _, _, [], _, _ | fuel + 1, fuel', _, _, [], _, _ =>
    by cases fuel' <;> simp [segmentsLoop]
  | 0, _, _, _, c :: cs, h, _ => absurd h (by simp)
  | _ + 1, 0, _, _, c :: cs, _, h => absurd h (by simp)
  | fuel + 1, fuel' + 1, afterValue, ends, c :: cs, h, h' => by
      have hrest := (nextLexeme_suffix env afterValue c cs).length_le
      simp only [List.length_cons, Nat.add_le_add_iff_right] at h h'
      simp only [segmentsLoop, reduceCtorEq, if_false, List.tail_cons,
        segmentsLoop_of_le (hrest.trans h) (hrest.trans h'), segmentsLoop_of_le h h']

theorem segmentsOf_mark (afterValue : Bool) (ends : List Bool) (cs : List Char) :
    segmentsOf env afterValue ends ('?' :: cs) =
      ([], (segmentsOf env (ends.headD true) ends.tail cs).1 ::
        (segmentsOf env (ends.headD true) ends.tail cs).2) := by
  simp [segmentsOf, segmentsLoop, peekIs]

theorem segmentsOf_cons {c : Char} (hc : c ≠ '?') (afterValue : Bool) (ends : List Bool)
    (cs : List Char) :
    segmentsOf env afterValue ends (c :: cs) =
      (segmentsOf env (endsValue afterValue (nextLexeme env afterValue (c :: cs)).tokens) ends
        (nextLexeme env afterValue (c :: cs)).rest).map
          ((nextLexeme env afterValue (c :: cs)).tokens ++ ·) id := by
  have hrest := (nextLexeme_suffix env afterValue c cs).length_le
  have hpeek : peekIs (c :: cs) (· == '?') = false := by simpa [peekIs] using hc
  rw [segmentsOf, List.length_cons, segmentsLoop, if_neg (List.cons_ne_nil c cs), hpeek]
  simp only [Bool.false_eq_true, if_false, segmentsLoop_of_le hrest le_rfl]
  rfl

theorem segmentsOf_piece {more : List Char} (ends : List Bool) (t : List Char) :
    ∀ {fuel : Nat} {afterValue : Bool} {piece : List Char},
    lexApart env more fuel afterValue piece →
    segmentsOf env afterValue ends (piece ++ '?' :: t) =
      (tokensOf env afterValue piece, (segmentsOf env (ends.headD true) ends.tail t).1 ::
        (segmentsOf env (ends.headD true) ends.tail t).2)
  | _, afterValue, [], _ => segmentsOf_mark afterValue ends t
  | 0, _, c :: piece, h => by simp [lexApart] at h
  | fuel + 1, afterValue, c :: piece, h => by
      simp only [lexApart, reduceCtorEq, decide_false, Bool.false_or, Bool.and_eq_true,
        decide_eq_true_eq] at h
      obtain ⟨⟨⟨hmark, hclosed⟩, -⟩, hrest⟩ := h
      have hc : c ≠ '?' := by simpa [peekIs] using hmark
      rw [tokensOf_cons, List.cons_append, segmentsOf_cons hc, ← List.cons_append,
        nextLexeme_mark t hclosed]
      simp only [Lexed.append, segmentsOf_piece ends t hrest]
      rfl

/-- The last piece has no mark. -/
theorem segmentsOf_last (ends : List Bool) : ∀ {fuel : Nat} {afterValue : Bool}
    {piece : List Char}, lexClosed env false fuel afterValue piece →
    segmentsOf env afterValue ends piece = (tokensOf env afterValue piece, [])
  | _, _, [], _ => rfl
  | 0, _, c :: piece, h => by simp [lexClosed] at h
  | fuel + 1, afterValue, c :: piece, h => by
      simp only [lexClosed, reduceCtorEq, decide_false, Bool.false_or, Bool.not_false,
        Bool.true_or, Bool.and_true, Bool.and_eq_true] at h
      have hc : c ≠ '?' := by simpa [peekIs] using h.1
      rw [tokensOf_cons, segmentsOf_cons hc, segmentsOf_last ends h.2]
      rfl

theorem peekIs_pasteValue (value : List Char) :
    ∃ c text, pasteValue value = c :: text ∧ c ≠ '*' := by
  by_cases hnull : value = nullWord
  · subst hnull
    exact ⟨'N', ['U', 'L', 'L'], rfl, by decide⟩
  by_cases hnumeric : looksNumeric value = true
  · rw [pasteValue_numeric hnumeric]
    cases value with
    | nil => cases hnumeric
    | cons c text =>
      refine ⟨c, text, rfl, ?_⟩
      rintro rfl
      cases hnumeric
  · rw [pasteValue, if_neg (not_or.mpr ⟨hnull, hnumeric⟩)]
    exact ⟨'\'', _, rfl, by decide⟩

/-- A text that ends its strings and comments is expanded by itself in front of another one. -/
theorem expandOf_before (hstar : peekIs more (· == '*') = false) :
    ∀ {fuel : Nat} {piece : List Char},
    (piece.getLast? = some '-' → peekIs more (· == '-') = false) →
    expandClosed fuel piece → expandOf (piece ++ more) = expandOf piece ++ expandOf more
  | _, [], _, _ => rfl
  | 0, c :: piece, _, h => by simp [expandClosed] at h
  | fuel + 1, c :: piece, hdash, h => by
      simp only [expandClosed, reduceCtorEq, decide_false, Bool.false_or, Bool.and_eq_true] at h
      have hrest : (expandStep (c :: piece)).rest.getLast? = some '-' →
          peekIs more (· == '-') = false := by
        intro hlast
        obtain ⟨front, hfront⟩ := (expandStep_suffix c piece).trans (List.suffix_cons c piece)
        apply hdash
        rw [← hfront, List.getLast?_append, hlast]
        rfl
      rw [expandOf_cons, List.cons_append, expandOf_cons, ← List.cons_append,
        expandStep_before hstar hdash h.1]
      simp only [StringRead.append, expandOf_before hstar hrest h.2, List.append_assoc]

/-- What stands behind a piece: a literal with more behind it, or a mark. -/
theorem expandOf_joinPasted : ∀ {afterValue : Bool} {values : List (List Char)}
    {piece : List Char} {pieces : List (List Char)},
    PiecesApart env afterValue values piece pieces →
    values.length = pieces.length →
    expandOf (joinPieces (values.map pasteValue) piece pieces) =
      joinPieces (values.map pasteValue) (expandOf piece) (pieces.map expandOf)
  | _, [], _, [], _, _ => rfl
  | _, v :: values, piece, next :: pieces, h, hlength => by
      obtain ⟨⟨hexpand, hdash⟩, -, -, hnext⟩ := h
      obtain ⟨c, text, htext, hc⟩ := peekIs_pasteValue v
      have hstar : ∀ rest, peekIs (pasteValue v ++ rest) (· == '*') = false := by
        intro rest
        rw [htext]
        simpa [peekIs] using hc
      have hminus : ∀ rest, piece.getLast? = some '-' →
          peekIs (pasteValue v ++ rest) (· == '-') = false := by
        intro rest hlast
        have hpeek := hdash hlast
        rw [List.headD_cons, htext] at hpeek
        rw [htext]
        exact hpeek
      have ih := expandOf_joinPasted hnext (by simpa using hlength)
      rw [List.tail_cons] at ih
      simp only [List.map_cons, joinPieces, List.headD_cons, List.tail_cons, List.append_assoc]
      rw [expandOf_before (hstar _) (hminus _) hexpand, expandOf_pasteValue, ih]
  | _, [], _, _ :: _, _, hlength | _, _ :: _, _, [], _, hlength => absurd hlength (by simp)

theorem expandOf_joinMarks : ∀ {afterValue : Bool} {values : List (List Char)}
    {piece : List Char} {pieces : List (List Char)},
    PiecesApart env afterValue values piece pieces →
    expandOf (joinPieces [] piece pieces) = joinPieces [] (expandOf piece) (pieces.map expandOf)
  | _, _, _, [], _ => rfl
  | _, values, piece, next :: pieces, h => by
      obtain ⟨⟨hexpand, -⟩, -, -, hnext⟩ := h
      have ih := expandOf_joinMarks hnext
      simp only [List.map_cons, joinPieces, List.headD_nil, List.tail_nil, List.append_assoc,
        List.singleton_append]
      rw [expandOf_before rfl (fun _ => rfl) hexpand, expandOf_mark, ih]

variable {afterValue : Bool}

/-- A piece, the literal behind it and the rest of the query are read one after the other. -/
theorem tokensOf_step {v : List Char} {values : List (List Char)} {piece next : List Char}
    {pieces : List (List Char)}
    (h : PiecesApart env afterValue (v :: values) piece (next :: pieces)) :
    tokensOf env afterValue (joinPieces ((v :: values).map pasteValue) (expandOf piece)
        ((next :: pieces).map expandOf)) =
      tokensOf env afterValue (expandOf piece) ++
        (tokensOf env (valueAfter env afterValue (expandOf piece)) (pasteValue v) ++
          tokensOf env (valueAfter env (valueAfter env afterValue (expandOf piece)) (pasteValue v))
            (joinPieces (values.map pasteValue) (expandOf next) (pieces.map expandOf))) := by
  obtain ⟨-, hpiece, hliteral, -⟩ := h
  rw [List.headD_cons, List.tail_cons] at hpiece hliteral
  simp only [List.map_cons, joinPieces, List.headD_cons, List.tail_cons, List.append_assoc]
  rw [tokensOf_apart hpiece, tokensOf_apart hliteral]

/-- The reading of the prepared text goes on behind a mark as behind its literal. -/
theorem segmentsOf_step {v : List Char} {values : List (List Char)} {piece next : List Char}
    {pieces : List (List Char)} (ends : List Bool)
    (h : PiecesApart env afterValue (v :: values) piece (next :: pieces)) :
    segmentsOf env afterValue ends
        (joinPieces [] (expandOf piece) ((next :: pieces).map expandOf)) =
      (tokensOf env afterValue (expandOf piece),
        (segmentsOf env (ends.headD true) ends.tail
          (joinPieces [] (expandOf next) (pieces.map expandOf))).1 ::
        (segmentsOf env (ends.headD true) ends.tail
          (joinPieces [] (expandOf next) (pieces.map expandOf))).2) := by
  obtain ⟨-, hpiece, -, -⟩ := h
  simp only [List.map_cons, joinPieces, List.headD_nil, List.tail_nil, List.append_assoc,
    List.singleton_append]
  exact segmentsOf_piece ends _ hpiece

theorem valueAfter_pasteValue {v : List Char} {literal : List Token} (hl : LiteralOf env v literal)
    (h : tokensOf env afterValue (pasteValue v) = literal) :
    valueAfter env afterValue (pasteValue v) = endsValue false literal := by
  rw [valueAfter, h, endsValue_literal hl.ne_nil]

/-- The query of well-spelled values is read as the prepared text with their literals. -/
theorem tokensOf_wellSpelled : ∀ {afterValue : Bool} {values : List (List Char)}
    {piece : List Char} {pieces : List (List Char)},
    PiecesApart env afterValue values piece pieces →
    values.length = pieces.length → (∀ v ∈ values, WellSpelled v) →
    ∃ literals, List.Forall₂ (LiteralOf env) values literals ∧
      tokensOf env afterValue
          (joinPieces (values.map pasteValue) (expandOf piece) (pieces.map expandOf)) =
        fillSegments literals
          (segmentsOf env afterValue (literalEnds literals)
            (joinPieces [] (expandOf piece) (pieces.map expandOf))).1
          (segmentsOf env afterValue (literalEnds literals)
            (joinPieces [] (expandOf piece) (pieces.map expandOf))).2
  | afterValue, [], piece, [], h, _, _ => by
      refine ⟨[], List.Forall₂.nil, ?_⟩
      have hlast := segmentsOf_last (literalEnds []) h
      simp only [List.map_nil, joinPieces, hlast]
      rfl
  | afterValue, v :: values, piece, next :: pieces, h, hlength, hspelled => by
      have hl : LiteralOf env v (tokensOf env (valueAfter env afterValue (expandOf piece))
          (pasteValue v)) :=
        literalOf_pasteValue (hspelled v List.mem_cons_self)
      have hafter := valueAfter_pasteValue hl rfl
      have hnext := h.2.2.2
      rw [List.headD_cons, List.tail_cons, hafter] at hnext
      obtain ⟨literals, hliterals, htokens⟩ := tokensOf_wellSpelled hnext (by simpa using hlength)
        fun w hw => hspelled w (.tail _ hw)
      refine ⟨_ :: literals, List.Forall₂.cons hl hliterals, ?_⟩
      rw [tokensOf_step h, segmentsOf_step _ h, hafter, htokens, ← List.append_assoc]
      rfl
  | _, [], _, _ :: _, _, hlength, _ | _, _ :: _, _, [], _, hlength, _ => absurd hlength (by simp)

/-- A query that is read as the prepared text with a literal for each mark has well-spelled
values. -/
theorem wellSpelled_of_tokens : ∀ {afterValue : Bool} {values : List (List Char)}
    {literals : List (List Token)} {piece : List Char} {pieces : List (List Char)},
    PiecesApart env afterValue values piece pieces → values.length = pieces.length →
    List.Forall₂ (LiteralOf env) values literals →
    tokensOf env afterValue
        (joinPieces (values.map pasteValue) (expandOf piece) (pieces.map expandOf)) =
      fillSegments literals
        (segmentsOf env afterValue (literalEnds literals)
          (joinPieces [] (expandOf piece) (pieces.map expandOf))).1
        (segmentsOf env afterValue (literalEnds literals)
          (joinPieces [] (expandOf piece) (pieces.map expandOf))).2 →
    ∀ v ∈ values, WellSpelled v
  | _, [], _, _, [], _, _, _, _ => fun v hv => (List.not_mem_nil hv).elim
  | afterValue, v :: values, literal :: literals, piece, next :: pieces, h, hlength, hliterals,
      htokens => by
      obtain ⟨hl, hliterals⟩ := List.forall₂_cons.mp hliterals
      rw [tokensOf_step h, segmentsOf_step _ h] at htokens
      simp only [fillSegments, literalEnds, List.map_cons, List.headD_cons, List.tail_cons,
        List.append_assoc] at htokens
      have hvalue := List.append_cancel_left htokens
      obtain ⟨hspelled, hpasted⟩ := literal_of_tokens hl hvalue
      have hafter := valueAfter_pasteValue hl hpasted
      rw [hpasted, hafter] at hvalue
      have hnext := h.2.2.2
      rw [List.headD_cons, List.tail_cons, hafter] at hnext
      have ih := wellSpelled_of_tokens hnext (by simpa using hlength) hliterals
        (List.append_cancel_left hvalue)
      intro w hw
      rcases List.mem_cons.mp hw with rfl | hw
      · exact hspelled
      · exact ih w hw
  | _, _ :: _, [], _, _, _, _, hliterals, _ => nomatch hliterals
  | _, [], _, _, _ :: _, _, hlength, _, _ | _, _ :: _, _, _, [], _, hlength, _, _ =>
    absurd hlength (by simp)

end

/-- Literals of values of the same kinds are alike to the lexer. -/
theorem literalEnds_eq {env : LexerEnv} : ∀ {values values' : List (List Char)}
    {literals literals' : List (List Token)}, List.Forall₂ (LiteralOf env) values literals →
    List.Forall₂ (LiteralOf env) values' literals' →
    values.map valueKind = values'.map valueKind → literalEnds literals = literalEnds literals'
  | _, _, _, _, .nil, .nil, _ => rfl
  | _, _, _, _, .cons hl hliterals, .cons hl' hliterals', h => by
      rw [List.map_cons, List.map_cons, List.cons.injEq] at h
      have ih := literalEnds_eq hliterals hliterals' h.2
      rw [literalEnds, literalEnds] at ih ⊢
      rw [List.map_cons, List.map_cons, hl.ends, hl'.ends, h.1, ih]
  | _, _, _, _, .nil, .cons _ _, h => by simp at h
  | _, _, _, _, .cons _ _, .nil, h => by simp at h

/-- A query whose pieces and literals are apart is read as the prepared text with literals for its
marks exactly when its values are well spelled. -/
theorem executedRight_iff_wellSpelled {env : LexerEnv} {userVars : VarMap}
    {usingVars : List (List Char)} {prepared query : List Char}
    (h : preparedQuery userVars usingVars prepared = .ok query)
    (hapart : PreparedApart env prepared (usingVars.map (variableValue userVars))) :
    ExecutedRight env prepared query (usingVars.map (variableValue userVars)) ↔
      ∀ v ∈ usingVars.map (variableValue userVars), WellSpelled v := by
  obtain ⟨hlength, rfl⟩ := preparedQuery_eq h
  rw [← List.length_map (f := variableValue userVars)] at hlength
  generalize usingVars.map (variableValue userVars) = values at *
  have hquery : tokenize env (joinPieces (values.map pasteValue)
      (cutPrepared prepared.length prepared).1 (cutPrepared prepared.length prepared).2) =
      tokensOf env false (joinPieces (values.map pasteValue)
        (expandOf (cutPrepared prepared.length prepared).1)
        ((cutPrepared prepared.length prepared).2.map expandOf)) := by
    rw [← expandOf_joinPasted hapart hlength, tokenize, expandExecutableComments_eq]
    rfl
  have hread : ∀ ends, readSegments env ends prepared = segmentsOf env false ends
      (joinPieces [] (expandOf (cutPrepared prepared.length prepared).1)
        ((cutPrepared prepared.length prepared).2.map expandOf)) := by
    intro ends
    rw [← expandOf_joinMarks hapart, joinPieces_cutPrepared le_rfl, readSegments,
      expandExecutableComments_eq]
    rfl
  rw [ExecutedRight, hquery]
  simp only [hread]
  constructor
  · rintro ⟨literals, hliterals, htokens⟩
    exact wellSpelled_of_tokens hapart hlength hliterals htokens
  · exact tokensOf_wellSpelled hapart hlength

end RusqlEngine
