import RusqlEngine.StatementSplit

/-!
# Ends of statements in a part of the input

Whether a semicolon ends a statement is decided by the text up to it: what the scan looks ahead
at is either before the semicolon, or a comment that hides the semicolon. Behind an end the scan
goes on as if it began there. So the input of a connection is cut alike however it arrives.
-/

namespace RusqlEngine.StatementSplit

open Scanner

section

theorem pastBlock_suffix : ∀ cs : List Char, pastBlock cs <:+ cs
  | [] => List.suffix_rfl
  | [_] => List.nil_suffix
  | c :: d :: cs => by
      rw [pastBlock]
      split
      · exact (List.suffix_cons d cs).trans (List.suffix_cons c _)
      · exact (pastBlock_suffix (d :: cs)).trans (List.suffix_cons c _)

theorem pastString_suffix : ∀ cs : List Char, pastString cs <:+ cs
  | [] => List.suffix_rfl
  | [_] => List.nil_suffix
  | c :: d :: cs => by
      have htail : cs <:+ c :: d :: cs := (List.suffix_cons d cs).trans (List.suffix_cons c _)
      rw [pastString]
      split
      · exact (pastString_suffix cs).trans htail
      · split
        · exact List.suffix_cons c _
        · exact (pastString_suffix (d :: cs)).trans (List.suffix_cons c _)

theorem pastQuoted_suffix (quote : Char) (cs : List Char) : pastQuoted quote cs <:+ cs :=
  (List.tail_suffix _).trans (List.dropWhile_suffix _)

/-- What a comment or a blank leaves, where one stands at the beginning. -/
def pastBlank (c : Char) (cs : List Char) : Option (List Char) :=
  if isSpace c then some cs
  else if opensLine c cs then some (cs.dropWhile (· ≠ '\n'))
  else if opensBlock c cs then some (pastBlock cs.tail)
  else none

variable {c : Char} {cs : List Char}

theorem pastBlank_suffix {rest : List Char} (h : pastBlank c cs = some rest) : rest <:+ cs := by
  rw [pastBlank] at h
  split at h
  · cases h
    exact List.suffix_rfl
  · split at h
    · cases h
      exact List.dropWhile_suffix _
    · split at h
      · cases h
        exact (pastBlock_suffix _).trans (List.tail_suffix cs)
      · cases h

theorem pastBlank_eq_none_iff : pastBlank c cs = none ↔
    ¬ isSpace c ∧ ¬ (opensLine c cs || opensBlock c cs) := by
  rw [pastBlank, Bool.or_eq_true]
  by_cases hspace : isSpace c = true
  · simp [hspace]
  · by_cases hline : opensLine c cs = true
    · simp [hspace, hline]
    · simp [hspace, hline]

theorem ne_newline_of_opensLine (h : opensLine c cs) : c ≠ '\n' := by
  rintro rfl
  simp [opensLine] at h

theorem skipBlankLoop_succ (fuel : ℕ) (c : Char) (cs : List Char) :
    skipBlankLoop (fuel + 1) (c :: cs) =
      ((pastBlank c cs).map (skipBlankLoop fuel)).getD (c :: cs) := by
  rw [skipBlankLoop, pastBlank]
  split
  · rfl
  · split
    next hline =>
      rw [List.dropWhile_cons_of_pos (by simpa using ne_newline_of_opensLine hline)]
      rfl
    next =>
      split
      · rw [List.drop_one]
        rfl
      · rfl

theorem skipBlankLoop_of_le : ∀ {n m : ℕ} {cs : List Char}, cs.length ≤ n → cs.length ≤ m →
    skipBlankLoop n cs = skipBlankLoop m cs
  | 0, 0, _, _, _ | 0, _ + 1, [], _, _ | _ + 1, 0, [], _, _ | _ + 1, _ + 1, [], _, _ => rfl
  | n + 1, m + 1, c :: cs, hn, hm => by
      rw [skipBlankLoop_succ, skipBlankLoop_succ]
      cases hp : pastBlank c cs with
      | none => rfl
      | some rest =>
        have hlen := (pastBlank_suffix hp).length_le
        exact skipBlankLoop_of_le (hlen.trans (Nat.le_of_succ_le_succ hn))
          (hlen.trans (Nat.le_of_succ_le_succ hm))

theorem skipBlank_cons (c : Char) (cs : List Char) :
    skipBlank (c :: cs) = ((pastBlank c cs).map skipBlank).getD (c :: cs) := by
  rw [skipBlank, List.length_cons, skipBlankLoop_succ]
  cases hp : pastBlank c cs with
  | none => rfl
  | some rest => exact skipBlankLoop_of_le (pastBlank_suffix hp).length_le le_rfl

theorem skipBlank_of_some {rest : List Char} (h : pastBlank c cs = some rest) :
    skipBlank (c :: cs) = skipBlank rest := by
  rw [skipBlank_cons, h]
  rfl

theorem skipBlank_of_none (h : pastBlank c cs = none) : skipBlank (c :: cs) = c :: cs := by
  rw [skipBlank_cons, h]
  rfl

theorem skipBlank_suffix (cs : List Char) : skipBlank cs <:+ cs := by
  induction hn : cs.length using Nat.strongRecOn generalizing cs with
  | ind n ih =>
    cases cs with
    | nil => exact List.suffix_rfl
    | cons c cs =>
      cases hp : pastBlank c cs with
      | none => rw [skipBlank_of_none hp]
      | some rest =>
        have hsub := pastBlank_suffix hp
        rw [skipBlank_of_some hp]
        refine (ih _ ?_ rest rfl).trans (hsub.trans (List.suffix_cons c cs))
        rw [← hn]
        exact Nat.lt_succ_of_le hsub.length_le

end

section

variable (q : List Char)

theorem pastString_semicolon : pastString (';' :: q) = pastString q := by
  cases q with
  | nil => rfl
  | cons d q => rw [pastString, if_neg (by decide), if_neg (by decide)]

theorem pastBlock_semicolon : pastBlock (';' :: q) = pastBlock q := by
  cases q with
  | nil => rfl
  | cons d q => rw [pastBlock, if_neg (by simp)]

theorem stopsAlike_pastString : StopsAlike ';' pastString
  | [] => .inr fun q => pastString_semicolon q ▸ pastString_suffix q
  | [c] => by
      by_cases hescape : c = '\\'
      · refine .inr fun q => ?_
        rw [List.singleton_append, pastString, if_pos hescape]
        exact pastString_suffix q
      · by_cases hquote : c = '\''
        · refine .of_suffix List.nil_suffix fun q => ?_
          rw [List.singleton_append, pastString, if_neg hescape, if_pos hquote]
          rfl
        · refine .inr fun q => ?_
          rw [List.singleton_append, pastString, if_neg hescape, if_neg hquote,
            pastString_semicolon]
          exact pastString_suffix q
  | c :: d :: v => by
      by_cases hescape : c = '\\'
      · refine (stopsAlike_pastString v).of_eq
          ((List.suffix_cons d v).trans (List.suffix_cons c _)) fun q => ?_
        rw [List.cons_append, List.cons_append, pastString, if_pos hescape]
      · by_cases hquote : c = '\''
        · refine .of_suffix (List.suffix_cons c _) fun q => ?_
          rw [List.cons_append, List.cons_append, pastString, if_neg hescape, if_pos hquote]
        · refine (stopsAlike_pastString (d :: v)).of_eq (List.suffix_cons c _) fun q => ?_
          rw [List.cons_append, List.cons_append, pastString, if_neg hescape, if_neg hquote]

theorem stopsAlike_pastBlock : StopsAlike ';' pastBlock
  | [] => .inr fun q => pastBlock_semicolon q ▸ pastBlock_suffix q
  | [c] => by
      refine .inr fun q => ?_
      rw [List.singleton_append, pastBlock, if_neg (by simp), pastBlock_semicolon]
      exact pastBlock_suffix q
  | c :: d :: v => by
      by_cases hclose : c = '*' ∧ d = '/'
      · refine .of_suffix ((List.suffix_cons d v).trans (List.suffix_cons c _)) fun q => ?_
        rw [List.cons_append, List.cons_append, pastBlock, if_pos hclose]
      · refine (stopsAlike_pastBlock (d :: v)).of_eq (List.suffix_cons c _) fun q => ?_
        rw [List.cons_append, List.cons_append, pastBlock, if_neg hclose]

theorem stopsAlike_pastQuoted (quote : Char) : StopsAlike ';' (pastQuoted quote) :=
  (stopsAlike_dropWhile ';' (· ≠ quote)).tail

theorem opensLine_append (c : Char) (v q : List Char) :
    opensLine c (v ++ ';' :: q) = opensLine c v := by
  rw [opensLine, opensLine, peekIs_append_stop _ rfl]

theorem opensBlock_append (c : Char) (v q : List Char) :
    opensBlock c (v ++ ';' :: q) = opensBlock c v := by
  rw [opensBlock, opensBlock, peekIs_append_stop _ rfl]

theorem pastBlank_semicolon : pastBlank ';' q = none := by
  rw [pastBlank, if_neg (by decide), if_neg (by simp [opensLine]), if_neg (by simp [opensBlock])]

theorem skipBlank_semicolon : skipBlank (';' :: q) = ';' :: q :=
  skipBlank_of_none (pastBlank_semicolon q)

theorem pastBlank_append (c : Char) (v : List Char) :
    (∀ q, pastBlank c (v ++ ';' :: q) = none) ∨
      (∃ v', v' <:+ v ∧ ∀ q, pastBlank c (v ++ ';' :: q) = some (v' ++ ';' :: q)) ∨
      ∀ q, ∃ rest, rest <:+ q ∧ pastBlank c (v ++ ';' :: q) = some rest := by
  have hcases : ∀ f : List Char → List Char, StopsAt ';' f v →
      (∀ q, pastBlank c (v ++ ';' :: q) = some (f (v ++ ';' :: q))) →
      (∃ v', v' <:+ v ∧ ∀ q, pastBlank c (v ++ ';' :: q) = some (v' ++ ';' :: q)) ∨
      ∀ q, ∃ rest, rest <:+ q ∧ pastBlank c (v ++ ';' :: q) = some rest := by
    intro f hf hp
    rcases hf with ⟨v', hsub, hv'⟩ | hpast
    · exact .inl ⟨v', hsub, fun q => by rw [hp, hv']⟩
    · exact .inr fun q => ⟨_, hpast q, hp q⟩
  by_cases hspace : isSpace c = true
  · exact .inr (.inl ⟨v, List.suffix_rfl, fun q => by rw [pastBlank, if_pos hspace]⟩)
  · by_cases hline : opensLine c v = true
    · refine .inr (hcases _ (stopsAlike_dropWhile ';' (· ≠ '\n') v) fun q => ?_)
      rw [pastBlank, if_neg hspace, opensLine_append, if_pos hline]
    · by_cases hblock : opensBlock c v = true
      · have htail : ∀ q, (v ++ ';' :: q).tail = v.tail ++ ';' :: q := fun q =>
          List.tail_append_of_ne_nil (by rintro rfl; simp [opensBlock, peekIs] at hblock)
        have hstop : StopsAt ';' (fun l => pastBlock l.tail) v :=
          (stopsAlike_pastBlock v.tail).of_eq (List.tail_suffix v) fun q => by rw [htail]
        refine .inr (hcases _ hstop fun q => ?_)
        rw [pastBlank, if_neg hspace, opensLine_append, if_neg hline, opensBlock_append,
          if_pos hblock]
      · refine .inl fun q => ?_
        rw [pastBlank, if_neg hspace, opensLine_append, if_neg hline, opensBlock_append,
          if_neg hblock]

theorem stopsAlike_skipBlank : StopsAlike ';' skipBlank := by
  intro v
  induction hn : v.length using Nat.strongRecOn generalizing v with
  | ind n ih =>
    cases v with
    | nil => exact .of_suffix List.nil_suffix skipBlank_semicolon
    | cons c v =>
      rcases pastBlank_append c v with hnone | ⟨v', hsub, hv'⟩ | hpast
      · exact .of_suffix List.suffix_rfl fun q => skipBlank_of_none (hnone q)
      · have hlt : v'.length < n := hn ▸ Nat.lt_succ_of_le hsub.length_le
        exact (ih _ hlt v' rfl).of_eq (hsub.trans (List.suffix_cons c v))
          fun q => skipBlank_of_some (hv' q)
      · refine .inr fun q => ?_
        obtain ⟨rest, hrest, hp⟩ := hpast q
        rw [List.cons_append, skipBlank_of_some hp]
        exact (skipBlank_suffix rest).trans hrest

end

section

/-- Two texts are the same to what looks ahead at them. -/
structure LooksAlike (after after' : List Char) : Prop where
  head : (skipBlank after).head? = (skipBlank after').head?
  word : wordAt (skipBlank after) = wordAt (skipBlank after')

variable {after after' : List Char}

theorem LooksAlike.peekIs_eq (h : LooksAlike after after') (accepts : Char → Bool) :
    peekIs (skipBlank after) accepts = peekIs (skipBlank after') accepts := by
  rw [peekIs, peekIs, h.head]

theorem LooksAlike.isEmpty_eq (h : LooksAlike after after') :
    (skipBlank after).isEmpty = (skipBlank after').isEmpty := by
  rw [Bool.eq_iff_iff, List.isEmpty_iff, List.isEmpty_iff, ← List.head?_eq_none_iff, h.head,
    List.head?_eq_none_iff]

theorem LooksAlike.usedAsName_eq (h : LooksAlike after after') (prev : Char)
    (prevWord : List Char) (lookAhead : Bool) :
    usedAsName prev prevWord after lookAhead = usedAsName prev prevWord after' lookAhead := by
  simp only [usedAsName, h.peekIs_eq, h.word]

theorem LooksAlike.word_eq (h : LooksAlike after after') (st : ScanState) (text : List Char) :
    st.word text after = st.word text after' := by
  simp only [ScanState.word, ScanState.atBegin, ScanState.atEnd, h.usedAsName_eq, h.peekIs_eq,
    h.isEmpty_eq, h.word]

theorem looksAlike_of_append {v v' : List Char}
    (h : ∀ q, skipBlank (v ++ ';' :: q) = v' ++ ';' :: q)
      (q : List Char) : LooksAlike (v ++ ';' :: q) (v ++ [';']) where
  head := by
    rw [h q, h []]
    cases v' with
    | nil => rfl
    | cons c v' => rfl
  word := by
    rw [h q, h [], wordAt, wordAt, peekIs_append_stop _ rfl, peekIs_append_stop _ rfl,
      takeWhile_append_stop rfl, takeWhile_append_stop rfl]

end

section

variable {st : ScanState} {c : Char} {cs : List Char}

theorem skipBlank_comment (hcomment : (opensLine c cs || opensBlock c cs)) :
    skipBlank (c :: cs) <:+ cs := by
  cases hp : pastBlank c cs with
  | none => exact absurd hcomment (pastBlank_eq_none_iff.mp hp).2
  | some rest =>
    rw [skipBlank_of_some hp]
    exact (skipBlank_suffix rest).trans (pastBlank_suffix hp)

theorem stopsAt_comment {v : List Char} (hcomment : (opensLine c v || opensBlock c v)) :
    StopsAt ';' (fun l => skipBlank (c :: l)) v := by
  rcases pastBlank_append c v with hnone | ⟨v', hsub, hv'⟩ | hpast
  · refine absurd ?_ (pastBlank_eq_none_iff.mp (hnone [])).2
    rw [opensLine_append, opensBlock_append, hcomment]
  · exact (stopsAlike_skipBlank v').of_eq hsub fun q => skipBlank_of_some (hv' q)
  · refine .inr fun q => ?_
    obtain ⟨rest, hrest, hp⟩ := hpast q
    have hsub := (skipBlank_suffix rest).trans hrest
    rw [← skipBlank_of_some hp] at hsub
    exact hsub

/-- What a turn can do. -/
theorem scanTurn_cases (c : Char) (cs : List Char) :
    (∃ rest, rest <:+ cs ∧ ∀ st, scanTurn st (c :: cs) = ⟨st, rest, false⟩) ∨
    (∃ rest, rest <:+ cs ∧ ∀ st, scanTurn st (c :: cs) = ⟨st.sign c, rest, false⟩) ∨
    (∀ st, scanTurn st (c :: cs) = ⟨st.word (c :: cs.takeWhile wordChar) (cs.dropWhile wordChar),
      cs.dropWhile wordChar, false⟩) ∨
    ∀ st, scanTurn st (c :: cs) = ⟨st.other c, cs, c == ';' && st.beginDepth == 0⟩ := by
  by_cases hspace : isSpace c = true
  · exact .inl ⟨cs, List.suffix_rfl, fun st => by rw [scanTurn, if_pos hspace]⟩
  · by_cases hcomment : (opensLine c cs || opensBlock c cs) = true
    · exact .inl ⟨_, skipBlank_comment hcomment,
        fun st => by rw [scanTurn, if_neg hspace, if_pos hcomment]⟩
    · by_cases hstring : c = '\''
      · exact .inr (.inl ⟨_, pastString_suffix cs, fun st => by
          rw [scanTurn, if_neg hspace, if_neg hcomment, if_pos hstring]⟩)
      · by_cases hquoted : c = '"' ∨ c = '`'
        · exact .inr (.inl ⟨_, pastQuoted_suffix c cs, fun st => by
            rw [scanTurn, if_neg hspace, if_neg hcomment, if_neg hstring, if_pos hquoted]⟩)
        · by_cases hword : wordStart c = true
          · exact .inr (.inr (.inl fun st => by
              rw [scanTurn, if_neg hspace, if_neg hcomment, if_neg hstring, if_neg hquoted,
                if_pos hword]))
          · exact .inr (.inr (.inr fun st => by
              rw [scanTurn, if_neg hspace, if_neg hcomment, if_neg hstring, if_neg hquoted,
                if_neg hword]))

theorem scanTurn_consumes : Consumes scanTurn := by
  intro st c cs
  rcases scanTurn_cases c cs with ⟨rest, hsub, h⟩ | ⟨rest, hsub, h⟩ | h | h
  · exact h st ▸ hsub
  · exact h st ▸ hsub
  · exact h st ▸ List.dropWhile_suffix _
  · exact h st ▸ List.suffix_rfl

theorem scanTurn_marksAt : MarksAt scanTurn ';' := by
  intro st c cs hm
  rcases scanTurn_cases c cs with ⟨rest, -, h⟩ | ⟨rest, -, h⟩ | h | h
  · rw [h] at hm
    cases hm
  · rw [h] at hm
    cases hm
  · rw [h] at hm
    cases hm
  · rw [h] at hm
    exact eq_of_beq (Bool.and_eq_true_iff.mp hm).1

theorem marks_skipBlank (st : ScanState) (cs : List Char) :
    marks scanTurn st cs =
      (marks scanTurn st (skipBlank cs)).map (· + (cs.length - (skipBlank cs).length)) := by
  induction hn : cs.length using Nat.strongRecOn generalizing cs with
  | ind n ih =>
    subst hn
    cases cs with
    | nil => rfl
    | cons c cs =>
      by_cases hspace : isSpace c = true
      · have hturn : scanTurn st (c :: cs) = ⟨st, cs, false⟩ := by rw [scanTurn, if_pos hspace]
        have hblank : skipBlank (c :: cs) = skipBlank cs :=
          skipBlank_of_some (by rw [pastBlank, if_pos hspace])
        have hlen := (skipBlank_suffix cs).length_le
        rw [marks_cons scanTurn_consumes, hturn, hblank, if_neg Bool.false_ne_true,
          List.nil_append, ih cs.length (Nat.lt_succ_self _) cs rfl, List.map_map]
        congr 1
        funext k
        simp only [Function.comp_apply, List.length_cons]
        omega
      · by_cases hcomment : (opensLine c cs || opensBlock c cs) = true
        · have hturn : scanTurn st (c :: cs) = ⟨st, skipBlank (c :: cs), false⟩ := by
            rw [scanTurn, if_neg hspace, if_pos hcomment]
          rw [marks_cons scanTurn_consumes, hturn, if_neg Bool.false_ne_true, List.nil_append,
            List.length_cons]
        · have hp : pastBlank c cs = none := pastBlank_eq_none_iff.mpr ⟨hspace, hcomment⟩
          rw [skipBlank_of_none hp, Nat.sub_self]
          simp

theorem lt_of_mem_marks_hidden {v q : List Char} (hhidden : skipBlank (v ++ ';' :: q) <:+ q) :
    ∀ k ∈ marks scanTurn st (v ++ ';' :: q), v.length < k := by
  intro k hk
  rw [marks_skipBlank] at hk
  obtain ⟨j, -, rfl⟩ := List.mem_map.mp hk
  have := hhidden.length_le
  rw [List.length_append, List.length_cons]
  omega

/-- A word before a semicolon: what follows is looked at up to the semicolon, unless a comment hides
that. -/
theorem steadyAt_word {v : List Char} (hturn : ∀ q, scanTurn st (c :: (v ++ ';' :: q)) =
      ⟨st.word (c :: v.takeWhile wordChar) (v.dropWhile wordChar ++ ';' :: q),
        v.dropWhile wordChar ++ ';' :: q, false⟩) : SteadyAt scanTurn ';' st (c :: v) := by
  have hsub : v.dropWhile wordChar <:+ v := List.dropWhile_suffix wordChar
  rcases stopsAlike_skipBlank (v.dropWhile wordChar) with ⟨v', -, hv'⟩ | hpast
  · have hsame : ∀ q, scanTurn st (c :: (v ++ ';' :: q)) =
        ⟨st.word (c :: v.takeWhile wordChar) (v.dropWhile wordChar ++ [';']),
          v.dropWhile wordChar ++ ';' :: q, false⟩ := fun q => by
      rw [hturn q, (looksAlike_of_append hv' q).word_eq]
    exact .of_turn hsub hsame
  · refine .inr (.inr fun q k hk => ?_)
    rw [List.cons_append, marks_cons scanTurn_consumes, hturn q, if_neg Bool.false_ne_true,
      List.nil_append, List.mem_map] at hk
    obtain ⟨j, hj, rfl⟩ := hk
    have hlt := lt_of_mem_marks_hidden (hpast q) j hj
    have hle := hsub.length_le
    simp only [List.length_append, List.length_cons]
    omega

theorem scanTurn_steady : Steady scanTurn ';' := by
  intro st v
  cases v with
  | nil => exact .inl ⟨rfl, st.beginDepth == 0, fun q => rfl⟩
  | cons c v =>
    have happend : ∀ q, (opensLine c (v ++ ';' :: q) || opensBlock c (v ++ ';' :: q)) =
        (opensLine c v || opensBlock c v) :=
      fun q => by rw [opensLine_append, opensBlock_append]
    by_cases hspace : isSpace c = true
    · exact .of_turn List.suffix_rfl fun q => by rw [scanTurn, if_pos hspace]
    · by_cases hcomment : (opensLine c v || opensBlock c v) = true
      · exact .of_reader scanTurn_consumes (stopsAt_comment hcomment) fun q => by
          rw [scanTurn, if_neg hspace, happend, if_pos hcomment]
      · by_cases hstring : c = '\''
        · exact .of_reader scanTurn_consumes (stopsAlike_pastString v) fun q => by
            rw [scanTurn, if_neg hspace, happend, if_neg hcomment, if_pos hstring]
        · by_cases hquoted : c = '"' ∨ c = '`'
          · exact .of_reader scanTurn_consumes (stopsAlike_pastQuoted c v) fun q => by
              rw [scanTurn, if_neg hspace, happend, if_neg hcomment, if_neg hstring, if_pos hquoted]
          · by_cases hword : wordStart c = true
            · refine steadyAt_word fun q => ?_
              rw [scanTurn, if_neg hspace, happend, if_neg hcomment, if_neg hstring,
                if_neg hquoted, if_pos hword]
              simp only [takeWhile_append_stop (show wordChar ';' = false from rfl),
                dropWhile_append_stop (show wordChar ';' = false from rfl)]
            · exact .of_turn List.suffix_rfl fun q => by
                rw [scanTurn, if_neg hspace, happend, if_neg hcomment, if_neg hstring,
                  if_neg hquoted, if_neg hword]

end

section

/-- States that decide alike: the character before only makes a name of the word after it or not. -/
structure DecidesAlike (st st' : ScanState) : Prop where
  beginDepth : st.beginDepth = st'.beginDepth
  caseDepth : st.caseDepth = st'.caseDepth
  prevWord : st.prevWord = st'.prevWord
  prev : signsBeforeName.contains st.prev = signsBeforeName.contains st'.prev

variable {st st' : ScanState}

theorem DecidesAlike.refl (st : ScanState) : DecidesAlike st st :=
  ⟨rfl, rfl, rfl, rfl⟩

theorem DecidesAlike.usedAsName_eq (h : DecidesAlike st st') (after : List Char)
    (lookAhead : Bool) : usedAsName st.prev st.prevWord after lookAhead =
      usedAsName st'.prev st'.prevWord after lookAhead := by
  simp only [usedAsName, h.prevWord, h.prev]

theorem DecidesAlike.sign_eq (h : DecidesAlike st st') (c : Char) : st.sign c = st'.sign c := by
  simp only [ScanState.sign, h.beginDepth, h.caseDepth]

theorem DecidesAlike.other_eq (h : DecidesAlike st st') (c : Char) : st.other c = st'.other c := by
  rw [ScanState.other, ScanState.other, h.beginDepth]
  split
  · rfl
  · exact h.sign_eq c

theorem DecidesAlike.atBegin (h : DecidesAlike st st') (after : List Char) :
    (st.atBegin after).beginDepth = (st'.atBegin after).beginDepth ∧
      (st.atBegin after).caseDepth = (st'.atBegin after).caseDepth := by
  rw [ScanState.atBegin, ScanState.atBegin, h.usedAsName_eq]
  split
  · exact ⟨h.beginDepth, h.caseDepth⟩
  · dsimp only
    split
    · exact ⟨h.beginDepth, h.caseDepth⟩
    · exact ⟨congrArg (· + 1) h.beginDepth, h.caseDepth⟩

theorem DecidesAlike.atCase (h : DecidesAlike st st') :
    st.atCase.beginDepth = st'.atCase.beginDepth ∧ st.atCase.caseDepth = st'.atCase.caseDepth := by
  rw [ScanState.atCase, ScanState.atCase, h.prevWord]
  split
  · exact ⟨h.beginDepth, h.caseDepth⟩
  · exact ⟨h.beginDepth, congrArg (· + 1) h.caseDepth⟩

theorem DecidesAlike.atEnd (h : DecidesAlike st st') (after : List Char) :
    (st.atEnd after).beginDepth = (st'.atEnd after).beginDepth ∧
      (st.atEnd after).caseDepth = (st'.atEnd after).caseDepth := by
  rw [ScanState.atEnd, ScanState.atEnd, h.usedAsName_eq, h.caseDepth, h.prevWord]
  split
  · exact ⟨h.beginDepth, h.caseDepth⟩
  · dsimp only
    split
    · exact ⟨h.beginDepth, rfl⟩
    · split
      · exact ⟨h.beginDepth, h.caseDepth⟩
      · split
        · exact ⟨h.beginDepth, rfl⟩
        · exact ⟨congrArg (· - 1) h.beginDepth, rfl⟩

theorem DecidesAlike.word_eq (h : DecidesAlike st st') (text after : List Char) :
    st.word text after = st'.word text after := by
  rw [ScanState.word, ScanState.word]
  split
  · rw [(h.atBegin after).1, (h.atBegin after).2]
  · split
    · rw [h.atCase.1, h.atCase.2]
    · split
      · rw [(h.atEnd after).1, (h.atEnd after).2]
      · rw [h.beginDepth, h.caseDepth]

theorem scanTurn_alike : Alike scanTurn DecidesAlike where
  rest := by
    intro st st' cs _
    cases cs with
    | nil => rfl
    | cons c cs =>
      rcases scanTurn_cases c cs with ⟨rest, -, h⟩ | ⟨rest, -, h⟩ | h | h
      · rw [h, h]
      · rw [h, h]
      · rw [h, h]
      · rw [h, h]
  marked := by
    intro st st' cs hst
    cases cs with
    | nil => rfl
    | cons c cs =>
      rcases scanTurn_cases c cs with ⟨rest, -, h⟩ | ⟨rest, -, h⟩ | h | h
      · rw [h, h]
      · rw [h, h]
      · rw [h, h]
      · rw [h, h, hst.beginDepth]
  state := by
    intro st st' cs hst
    cases cs with
    | nil => exact hst
    | cons c cs =>
      rcases scanTurn_cases c cs with ⟨rest, -, h⟩ | ⟨rest, -, h⟩ | h | h
      · rw [h, h]
        exact hst
      · rw [h, h, hst.sign_eq]
        exact .refl _
      · rw [h, h, hst.word_eq]
        exact .refl _
      · rw [h, h, hst.other_eq]
        exact .refl _

theorem scanTurn_restarts : Restarts scanTurn ScanState.start where
  rest := by
    intro st c cs hm
    rcases scanTurn_cases c cs with ⟨rest, -, h⟩ | ⟨rest, -, h⟩ | h | h
    · rw [h] at hm
      cases hm
    · rw [h] at hm
      cases hm
    · rw [h] at hm
      cases hm
    · rw [h]
  state := by
    intro st c cs hm l
    rcases scanTurn_cases c cs with ⟨rest, -, h⟩ | ⟨rest, -, h⟩ | h | h
    · rw [h] at hm
      cases hm
    · rw [h] at hm
      cases hm
    · rw [h] at hm
      cases hm
    · rw [h] at hm ⊢
      have hc : c = ';' := eq_of_beq (Bool.and_eq_true_iff.mp hm).1
      have hdepth : st.beginDepth = 0 := eq_of_beq (Bool.and_eq_true_iff.mp hm).2
      refine scanTurn_alike.marks_eq scanTurn_consumes ?_
      rw [ScanState.other, if_pos ⟨hc, hdepth⟩, hc]
      exact ⟨hdepth, rfl, rfl, rfl⟩

end

section

variable {σ : Type}

/-- The calls of `on_end` for a list of positions. -/
def callAll (onEnd : σ → ℕ → σ × Bool) : σ → List ℕ → σ
  | acc, [] => acc
  | acc, k :: l => if (onEnd acc k).2 then (onEnd acc k).1 else callAll onEnd (onEnd acc k).1 l

theorem scanLoop_eq (onEnd : σ → ℕ → σ × Bool) (n : ℕ) : ∀ {fuel : ℕ} {acc : σ} {st : ScanState}
    {cs : List Char}, cs.length ≤ fuel → cs.length ≤ n → scanLoop onEnd n fuel acc st cs =
      callAll onEnd acc ((marks scanTurn st cs).map (· + (n - cs.length)))
  | 0, _, _, [], _, _ => rfl
  | _ + 1, _, _, [], _, _ => rfl
  | fuel + 1, acc, st, c :: cs, hfuel, hn => by
      have hrest := scanTurn_consumes.length_le st c cs
      have hfuel' := hrest.trans (Nat.le_of_succ_le_succ hfuel)
      rw [List.length_cons] at hn
      have hshift : ((· + (n - (cs.length + 1))) ∘
          (· + (cs.length + 1 - (scanTurn st (c :: cs)).rest.length)) : ℕ → ℕ) =
          (· + (n - (scanTurn st (c :: cs)).rest.length)) := by
        funext k
        simp only [Function.comp_apply]
        omega
      rw [scanLoop, marks_cons scanTurn_consumes, List.map_append, List.map_map, List.length_cons,
        hshift]
      cases hm : (scanTurn st (c :: cs)).marked with
      | true =>
        simp only [if_true, List.map_cons, List.map_nil, List.singleton_append, Nat.zero_add,
          callAll]
        rw [scanLoop_eq onEnd n hfuel' (by omega)]
      | false =>
        simp only [Bool.false_eq_true, if_false, List.map_nil, List.nil_append]
        exact scanLoop_eq onEnd n hfuel' (by omega)

theorem scan_eq (onEnd : σ → ℕ → σ × Bool) (acc : σ) (s : List Char) :
    scan onEnd acc s = callAll onEnd acc (marks scanTurn ScanState.start s) := by
  rw [scan, scanLoop_eq onEnd s.length le_rfl le_rfl, Nat.sub_self]
  simp

theorem callAll_first (l : List ℕ) : callAll (fun _ pos => (some pos, true)) none l = l.head? := by
  cases l with
  | nil => rfl
  | cons k l => rfl

theorem callAll_count (n : ℕ) (l : List ℕ) :
    callAll (fun count _ => (count + 1, false)) n l = n + l.length := by
  induction l generalizing n with
  | nil => rfl
  | cons k l ih =>
    rw [callAll, if_neg Bool.false_ne_true, ih, List.length_cons]
    omega

theorem callAll_collect (ends l : List ℕ) :
    callAll (fun ends pos => (ends ++ [pos], false)) ends l = ends ++ l := by
  induction l generalizing ends with
  | nil => exact (List.append_nil ends).symm
  | cons k l ih => rw [callAll, if_neg Bool.false_ne_true, ih, List.append_assoc,
      List.singleton_append]

theorem findStatementEnd_eq : findStatementEnd = firstMark scanTurn ScanState.start := by
  funext s
  rw [findStatementEnd, scan_eq, callAll_first, firstMark]

variable (s : List Char)

theorem statementEnds_eq : statementEnds s = marks scanTurn ScanState.start s := by
  rw [statementEnds, scan_eq, callAll_collect, List.nil_append]

theorem countStatementEnds_eq : countStatementEnds s = (statementEnds s).length := by
  rw [countStatementEnds, scan_eq, callAll_count, statementEnds_eq, Nat.zero_add]

theorem findStatementEnd_stable : Stable findStatementEnd where
  lt := by
    intro p k hk
    rw [findStatementEnd_eq] at hk
    exact lt_length_of_mem_marks scanTurn_consumes k (List.mem_of_head? hk)
  append := by
    intro p k hk q
    rw [findStatementEnd_eq] at hk ⊢
    exact firstMark_append scanTurn_steady scanTurn_consumes scanTurn_marksAt hk q

theorem statementEnds_restart {s : List Char} {k : ℕ} (hk : findStatementEnd s = some k) :
    statementEnds s = k :: (statementEnds (s.drop (k + 1))).map (· + (k + 1)) := by
  rw [findStatementEnd_eq] at hk
  rw [statementEnds_eq, statementEnds_eq, scanTurn_restarts.marks_eq scanTurn_consumes hk]

theorem cut_findStatementEnd : (cut findStatementEnd s).1 = statements s := by
  have hstable := findStatementEnd_stable
  rw [findStatementEnd_eq] at hstable
  rw [findStatementEnd_eq, cut_firstMark scanTurn_consumes scanTurn_restarts hstable, statements,
    statementEnds_eq]

theorem foldl_feed_statements (pieces : List (List Char)) (buf : List Char) :
    pieces.foldl (feed findStatementEnd) (cut findStatementEnd buf) =
      cut findStatementEnd (buf ++ pieces.flatten) :=
  foldl_feed findStatementEnd_stable pieces buf

/-- However the input arrives, no character is lost or taken twice, and no statement ends in the
text that is kept. -/
theorem statements_keep_input (pieces : List (List Char)) :
    ∃ taken kept, pieces.foldl (feed findStatementEnd) ([], []) = (taken, kept) ∧
      taken.flatMap (· ++ [';']) ++ kept = pieces.flatten ∧ findStatementEnd kept = none := by
  obtain ⟨htext, hnone⟩ := cut_eq findStatementEnd_stable (fun p k hk => by
    rw [findStatementEnd_eq] at hk
    exact scanTurn_marksAt.getElem? scanTurn_consumes k (List.mem_of_mem_head? hk)) pieces.flatten
  exact ⟨_, _, foldl_feed_statements pieces [], htext, hnone⟩

theorem takenStatements_eq (pieces : List (List Char)) :
    takenStatements pieces = (statements pieces.flatten).map trimCopy := by
  rw [takenStatements, ← cut_findStatementEnd]
  exact congrArg (fun found => found.1.map trimCopy) (foldl_feed_statements pieces [])

theorem length_statements : (statements s).length = countStatementEnds s := by
  rw [statements, length_between, countStatementEnds_eq]

theorem query_handleClient (buf : List Char) (lines taken : List (List Char)) :
    taken.map trimCopy ++ (handleClient buf lines).filterMap Served.query? =
      ((inputLines lines).foldl (feed findStatementEnd) (taken, buf)).1.map trimCopy := by
  induction lines generalizing buf taken with
  | nil => exact List.append_nil _
  | cons line lines ih =>
    rw [handleClient, inputLines]
    split
    · exact List.append_nil _
    · split
      · rw [List.filterMap_cons_none (by rfl)]
        exact ih buf taken
      · have hquery : ∀ found : List (List Char), (found.map
            (fun q => Served.statement (trimCopy q))).filterMap Served.query? =
              found.map trimCopy := by
          intro found
          rw [List.filterMap_map]
          change found.filterMap (some ∘ trimCopy) = _
          rw [List.filterMap_eq_map]
        rw [List.filterMap_append, hquery, ← List.append_assoc, ← List.map_append, ih]
        rfl

/-- However the input of a connection arrives, the server takes the statements out of it that one
scan of the whole input counts: an end found in a part is the end in the whole, and behind an end
the scan begins anew. -/
theorem statements_taken_alike :
    (∀ pieces : List (List Char),
      takenStatements pieces = (statements pieces.flatten).map trimCopy ∧
        (takenStatements pieces).length = countStatementEnds pieces.flatten) ∧
    (∀ lines : List (List Char), (handleClient [] lines).filterMap Served.query? =
      takenStatements (inputLines lines)) ∧
    (∀ (p : List Char) (k : ℕ), findStatementEnd p = some k →
      ∀ q, findStatementEnd (p ++ q) = some k) ∧
    ∀ (s : List Char) (k : ℕ), findStatementEnd s = some k →
      statementEnds s = k :: (statementEnds (s.drop (k + 1))).map (· + (k + 1)) := by
  refine ⟨fun pieces => ⟨takenStatements_eq pieces, ?_⟩, fun lines => ?_, fun p k hk q => ?_,
    fun s k hk => statementEnds_restart hk⟩
  · rw [takenStatements_eq, List.length_map, length_statements]
  · exact query_handleClient [] lines []
  · exact findStatementEnd_stable.append hk q

/-- The first statement of a line that is not complete. -/
theorem statements_taken_alike_first : findStatementEnd "BEGIN; SEL".toList = some 5 ∧
    findStatementEnd ("BEGIN; SEL".toList ++ "ECT 1;".toList) = some 5 :=
  ⟨by decide, statements_taken_alike.2.2.1 _ _ (by decide) _⟩

end

end RusqlEngine.StatementSplit
