import RusqlEngine.Library.Infix
import Mathlib.Data.List.DropRight

/-!
# The text of a result table

An answer is written as a table of lines, which the engine reads back wherever the answer of one
query is the input of another. A cell is escaped (`escape_cell`), padded and set between bars;
`split_row` cuts a line at the bars, takes the padding off and undoes the escapes. What is read is
what was written, for any cells.
-/

namespace RusqlEngine.ResultText

open Infix

/-- The characters of `find_first_not_of(" \t")`. -/
def isPad (c : Char) : Bool :=
  c == ' ' || c == '\t'

/-- What `escape_cell` writes for one character. -/
def escapeChar (atAnEnd : Bool) (c : Char) : List Char :=
  if c = '\\' then ['\\', '\\']
  else if c = '\n' then ['\\', 'n']
  else if c = '|' then ['\\', '|']
  else if c = ' ' ∧ atAnEnd = true then ['\\', 's']
  else if c = '\t' ∧ atAnEnd = true then ['\\', 't']
  else [c]

/-- `escape_cell`: the spaces and tabs at either end, and what is between them. -/
def escapeCell (value : List Char) : List Char :=
  (value.takeWhile isPad).flatMap (escapeChar true) ++
    ((value.dropWhile isPad).rdropWhile isPad).flatMap (escapeChar false) ++
    ((value.dropWhile isPad).rtakeWhile isPad).flatMap (escapeChar true)

def unescapeCell : List Char → List Char
  | [] => []
  | [c] => [c]
  | c :: next :: rest =>
    if c = '\\' ∧ (next = '\\' ∨ next = '|') then next :: unescapeCell rest
    else if c = '\\' ∧ next = 'n' then '\n' :: unescapeCell rest
    else if c = '\\' ∧ next = 's' then ' ' :: unescapeCell rest
    else if c = '\\' ∧ next = 't' then '\t' :: unescapeCell rest
    else c :: unescapeCell (next :: rest)

/-- The pieces of a line between its bars, a bar after a backslash being none
(`find_unescaped_bar`). -/
def splitBars : List Char → List Char → List (List Char)
  | [], cur => [cur]
  | [c], cur => if c = '|' then [cur, []] else [cur ++ [c]]
  | c :: next :: rest, cur =>
    if c = '\\' then splitBars rest (cur ++ [c, next])
    else if c = '|' then cur :: splitBars (next :: rest) []
    else splitBars (next :: rest) (cur ++ [c])

def trimPad (piece : List Char) : List Char :=
  (piece.dropWhile isPad).rdropWhile isPad

def readPiece (piece : List Char) : Option (List Char) :=
  if piece = [] then none else some (unescapeCell (trimPad piece))

def splitRow (line : List Char) : List (List Char) :=
  (splitBars line []).filterMap readPiece

def cellText (e : List Char × Nat) : List Char :=
  ' ' :: (escapeCell e.1 ++ List.replicate (e.2 - (escapeCell e.1).length) ' ') ++ [' ', '|']

def rowLine (cells : List (List Char)) (widths : List Nat) : List Char :=
  '|' :: (cells.zip widths).flatMap cellText

def sepLine (widths : List Nat) : List Char :=
  '+' :: widths.flatMap fun w => List.replicate (w + 2) '-' ++ ['+']

/-- The lines of a text. -/
def splitLines : List Char → List (List Char)
  | [] => [[]]
  | c :: rest =>
    if c = '\n' then [] :: splitLines rest
    else match splitLines rest with
      | l :: ls => (c :: l) :: ls
      | [] => [[c]]

def joinLines : List (List Char) → List Char
  | [] => []
  | [l] => l
  | l :: ls => l ++ '\n' :: joinLines ls

variable (b : Bool)

theorem escapeChar_cases (c : Char) :
    (∃ d, escapeChar b c = ['\\', d]) ∨ (escapeChar b c = [c] ∧ c ≠ '\\' ∧ c ≠ '|' ∧ c ≠ '\n' ∧
      (b → isPad c = false)) := by
  unfold escapeChar
  split_ifs with h1 h2 h3 h4 h5
  · exact .inl ⟨_, rfl⟩
  · exact .inl ⟨_, rfl⟩
  · exact .inl ⟨_, rfl⟩
  · exact .inl ⟨_, rfl⟩
  · exact .inl ⟨_, rfl⟩
  · refine .inr ⟨rfl, h1, h3, h2, fun hb => ?_⟩
    have hspace : c ≠ ' ' := fun h => h4 ⟨h, hb⟩
    have htab : c ≠ '\t' := fun h => h5 ⟨h, hb⟩
    simp [isPad, hspace, htab]

theorem unescapeCell_escapeChar (c : Char) (rest : List Char) :
    unescapeCell (escapeChar b c ++ rest) = c :: unescapeCell rest := by
  unfold escapeChar
  split_ifs with h1 h2 h3 h4 h5
  · simp [unescapeCell, h1]
  · simp [unescapeCell, h2]
  · simp [unescapeCell, h3]
  · simp [unescapeCell, h4.1]
  · simp [unescapeCell, h5.1]
  · cases rest with
    | nil => rfl
    | cons next rest => simp [unescapeCell, h1]

theorem unescapeCell_flatMap (l rest : List Char) :
    unescapeCell (l.flatMap (escapeChar b) ++ rest) = l ++ unescapeCell rest := by
  induction l with
  | nil => rfl
  | cons c l ih =>
    rw [List.flatMap_cons, List.append_assoc, unescapeCell_escapeChar, ih, List.cons_append]

variable (value : List Char)

theorem unescapeCell_escapeCell : unescapeCell (escapeCell value) = value := by
  have hend := unescapeCell_flatMap true ((value.dropWhile isPad).rtakeWhile isPad) []
  rw [List.append_nil] at hend
  rw [escapeCell, List.append_assoc, unescapeCell_flatMap, unescapeCell_flatMap, hend,
    show unescapeCell [] = [] from rfl, List.append_nil, List.rdropWhile_append_rtakeWhile,
    List.takeWhile_append_dropWhile]

theorem splitBars_escapeChar (c : Char) (rest cur : List Char) :
    splitBars (escapeChar b c ++ rest) cur = splitBars rest (cur ++ escapeChar b c) := by
  rcases escapeChar_cases b c with ⟨d, h⟩ | ⟨h, hback, hbar, -, -⟩
  · rw [h]
    simp [splitBars]
  · rw [h]
    cases rest with
    | nil => simp [splitBars, hbar]
    | cons next rest => simp [splitBars, hback, hbar]

theorem splitBars_flatMap (l rest cur : List Char) :
    splitBars (l.flatMap (escapeChar b) ++ rest) cur =
      splitBars rest (cur ++ l.flatMap (escapeChar b)) := by
  induction l generalizing cur with
  | nil => simp
  | cons c l ih =>
    rw [List.flatMap_cons, List.append_assoc, splitBars_escapeChar, ih, List.append_assoc]

theorem splitBars_escapeCell (value rest cur : List Char) :
    splitBars (escapeCell value ++ rest) cur = splitBars rest (cur ++ escapeCell value) := by
  simp only [escapeCell, List.append_assoc, splitBars_flatMap]

variable {c : Char}

theorem splitBars_pad (hc : isPad c) (rest cur : List Char) :
    splitBars (c :: rest) cur = splitBars rest (cur ++ [c]) := by
  have hplain : c ≠ '\\' ∧ c ≠ '|' := by
    simp only [isPad, Bool.or_eq_true, beq_iff_eq] at hc
    rcases hc with rfl | rfl <;> decide
  cases rest with
  | nil => simp [splitBars, hplain.2]
  | cons next rest => simp [splitBars, hplain.1, hplain.2]

theorem splitBars_replicate (n : Nat) (rest cur : List Char) :
    splitBars (List.replicate n ' ' ++ rest) cur =
      splitBars rest (cur ++ List.replicate n ' ') := by
  induction n generalizing cur with
  | zero => simp
  | succ n ih =>
    rw [List.replicate_succ, List.cons_append, splitBars_pad rfl, ih, List.append_assoc,
      List.singleton_append]

theorem splitBars_bar (rest cur : List Char) :
    splitBars ('|' :: rest) cur = cur :: splitBars rest [] := by
  cases rest with
  | nil => simp [splitBars]
  | cons next rest => simp [splitBars]

def NoPadEnds (l : List Char) : Prop :=
  (∀ c ∈ l.head?, isPad c = false) ∧ ∀ c ∈ l.getLast?, isPad c = false

theorem head?_escapeChar {b : Bool} (hc : b ∨ isPad c = false) :
    ∀ d ∈ (escapeChar b c).head?, isPad d = false := by
  intro d hd
  rcases escapeChar_cases b c with ⟨e, h⟩ | ⟨h, -, -, -, hpad⟩
  · rw [h, List.head?_cons, Option.mem_some_iff] at hd
    rw [← hd]
    rfl
  · rw [h, List.head?_cons, Option.mem_some_iff] at hd
    rw [← hd]
    exact hc.elim hpad id

theorem getLast?_escapeChar {b : Bool} (hc : b ∨ isPad c = false) :
    ∀ d ∈ (escapeChar b c).getLast?, isPad d = false := by
  intro d hd
  unfold escapeChar at hd
  split_ifs at hd with h1 h2 h3 h4 h5 <;>
    simp only [List.getLast?_cons_cons, List.getLast?_singleton, Option.mem_some_iff] at hd <;>
    subst hd
  · rfl
  · rfl
  · rfl
  · rfl
  · rfl
  · rcases hc with rfl | hc
    · have hspace : c ≠ ' ' := fun h => h4 ⟨h, rfl⟩
      have htab : c ≠ '\t' := fun h => h5 ⟨h, rfl⟩
      simp [isPad, hspace, htab]
    · exact hc

theorem escapeChar_ne_nil (c : Char) : escapeChar b c ≠ [] := by
  rcases escapeChar_cases b c with ⟨e, h⟩ | ⟨h, -⟩ <;> simp [h]

variable {l : List Char}

theorem head?_flatMap_escapeChar {b : Bool} (h : ∀ c ∈ l.head?, b ∨ isPad c = false) :
    ∀ d ∈ (l.flatMap (escapeChar b)).head?, isPad d = false := by
  cases l with
  | nil => simp
  | cons c l =>
    rw [List.flatMap_cons, List.head?_append_of_ne_nil _ (escapeChar_ne_nil b c)]
    exact head?_escapeChar (h c rfl)

theorem getLast?_flatMap_escapeChar {b : Bool} (h : ∀ c ∈ l.getLast?, b ∨ isPad c = false) :
    ∀ d ∈ (l.flatMap (escapeChar b)).getLast?, isPad d = false := by
  induction l using List.reverseRecOn with
  | nil => simp
  | append_singleton l c =>
    rw [List.flatMap_append, List.flatMap_singleton,
      List.getLast?_append_of_ne_nil _ (escapeChar_ne_nil b c)]
    exact getLast?_escapeChar (h c (by simp))

theorem noPadEnds_escapeCell : NoPadEnds (escapeCell value) := by
  have hlead : ∀ c ∈ (value.takeWhile isPad).head?, true ∨ isPad c = false :=
    fun _ _ => .inl rfl
  have hmid : ∀ c ∈ ((value.dropWhile isPad).rdropWhile isPad).head?,
      false ∨ isPad c = false := by
    intro c hc
    refine .inr ?_
    have hpre := List.rdropWhile_prefix isPad (l := value.dropWhile isPad)
    obtain ⟨t, ht⟩ := hpre
    have hhead : c ∈ (value.dropWhile isPad).head? := by
      rw [← ht]
      cases hx : (value.dropWhile isPad).rdropWhile isPad with
      | nil => rw [hx] at hc; cases hc
      | cons x xs => rw [hx] at hc; exact hc
    have hnot := List.head?_dropWhile_not isPad value
    rw [hhead] at hnot
    exact hnot
  have hmidLast : ∀ c ∈ ((value.dropWhile isPad).rdropWhile isPad).getLast?,
      false ∨ isPad c = false := by
    intro c hc
    refine .inr ?_
    have hne : (value.dropWhile isPad).rdropWhile isPad ≠ [] := by
      rintro he
      rw [he] at hc
      cases hc
    have hlast := List.rdropWhile_last_not isPad (value.dropWhile isPad) hne
    rw [List.getLast?_eq_some_getLast hne, Option.mem_some_iff] at hc
    rw [hc] at hlast
    simpa using hlast
  constructor
  · intro d hd
    rw [escapeCell, List.append_assoc, List.head?_append] at hd
    cases hfirst : ((value.takeWhile isPad).flatMap (escapeChar true)).head? with
    | some e =>
      rw [hfirst, Option.some_or] at hd
      exact head?_flatMap_escapeChar hlead d (hfirst ▸ hd)
    | none =>
      rw [hfirst, Option.none_or, List.head?_append] at hd
      cases hsecond : (((value.dropWhile isPad).rdropWhile isPad).flatMap
          (escapeChar false)).head? with
      | some e =>
        rw [hsecond, Option.some_or] at hd
        exact head?_flatMap_escapeChar hmid d (hsecond ▸ hd)
      | none =>
        rw [hsecond, Option.none_or] at hd
        exact head?_flatMap_escapeChar (fun _ _ => .inl rfl) d hd
  · intro d hd
    rw [escapeCell, List.getLast?_append] at hd
    cases hthird : (((value.dropWhile isPad).rtakeWhile isPad).flatMap
        (escapeChar true)).getLast? with
    | some e =>
      rw [hthird, Option.some_or] at hd
      exact getLast?_flatMap_escapeChar (fun _ _ => .inl rfl) d (hthird ▸ hd)
    | none =>
      rw [hthird, Option.none_or, List.getLast?_append] at hd
      cases hsecond : (((value.dropWhile isPad).rdropWhile isPad).flatMap
          (escapeChar false)).getLast? with
      | some e =>
        rw [hsecond, Option.some_or] at hd
        exact getLast?_flatMap_escapeChar hmidLast d (hsecond ▸ hd)
      | none =>
        rw [hsecond, Option.none_or] at hd
        exact getLast?_flatMap_escapeChar (fun _ _ => .inl rfl) d hd

theorem trimPad_of_noPadEnds (h : NoPadEnds l) (n : Nat) :
    trimPad (' ' :: (l ++ List.replicate n ' ') ++ [' ']) = l := by
  have hend : (l ++ List.replicate n ' ') ++ [' '] = l ++ List.replicate (n + 1) ' ' := by
    rw [List.append_assoc, List.replicate_succ']
  rw [trimPad, List.cons_append, hend, List.dropWhile_cons_of_pos (by decide)]
  cases l with
  | nil =>
    rw [List.nil_append, List.dropWhile_replicate]
    simp [isPad]
  | cons c l =>
    have hc : isPad c = false := h.1 c rfl
    rw [List.cons_append, List.dropWhile_cons_of_neg (by simp [hc]), ← List.cons_append]
    have hpads : (c :: l ++ List.replicate (n + 1) ' ').rdropWhile isPad =
        (c :: l).rdropWhile isPad := by
      induction n + 1 with
      | zero => rw [List.replicate_zero, List.append_nil]
      | succ m ih =>
        rw [List.replicate_succ', ← List.append_assoc, List.rdropWhile_concat_pos _ _ _ rfl, ih]
    rw [hpads, List.rdropWhile_eq_self_iff]
    intro hne
    have := h.2 _ (List.getLast?_eq_some_getLast hne)
    simp [this]

theorem readPiece_cell (n : Nat) :
    readPiece (' ' :: (escapeCell value ++ List.replicate n ' ') ++ [' ']) = some value := by
  rw [readPiece, if_neg (by simp), trimPad_of_noPadEnds (noPadEnds_escapeCell value),
    unescapeCell_escapeCell]

variable (e : List Char × Nat)

theorem splitBars_cellText (rest : List Char) :
    splitBars (cellText e ++ rest) [] =
      (' ' :: (escapeCell e.1 ++ List.replicate (e.2 - (escapeCell e.1).length) ' ') ++ [' ']) ::
        splitBars rest [] := by
  rw [cellText, List.append_assoc, List.cons_append, splitBars_pad rfl, List.append_assoc,
    splitBars_escapeCell, splitBars_replicate, List.cons_append, splitBars_pad rfl,
    List.cons_append, List.nil_append, splitBars_bar]
  simp only [List.nil_append, List.cons_append, List.append_assoc]

theorem filterMap_readPiece_cells (es : List (List Char × Nat)) :
    (splitBars (es.flatMap cellText) []).filterMap readPiece = es.map Prod.fst := by
  induction es with
  | nil => rfl
  | cons e es ih =>
    rw [List.flatMap_cons, splitBars_cellText, List.filterMap_cons_some (readPiece_cell e.1 _),
      ih, List.map_cons]

theorem splitRow_rowLine {cells : List (List Char)} {widths : List Nat}
    (h : cells.length = widths.length) : splitRow (rowLine cells widths) = cells := by
  rw [splitRow, rowLine, splitBars_bar, List.filterMap_cons_none rfl, filterMap_readPiece_cells,
    List.map_fst_zip (le_of_eq h)]

theorem newline_notMem_escapeChar (c : Char) : '\n' ∉ escapeChar b c := by
  unfold escapeChar
  split_ifs with h1 h2 h3 h4 h5
  · decide
  · decide
  · decide
  · decide
  · decide
  · simpa using Ne.symm h2

theorem newline_notMem_escapeCell : '\n' ∉ escapeCell value := by
  simp only [escapeCell, List.mem_append, List.mem_flatMap, not_or, not_exists, not_and]
  exact ⟨⟨fun c _ => newline_notMem_escapeChar _ c, fun c _ => newline_notMem_escapeChar _ c⟩,
    fun c _ => newline_notMem_escapeChar _ c⟩

theorem newline_notMem_cellText : '\n' ∉ cellText e := by
  simp [cellText, newline_notMem_escapeCell]

theorem newline_notMem_rowLine (cells : List (List Char)) (widths : List Nat) :
    '\n' ∉ rowLine cells widths := by
  simp only [rowLine, List.mem_cons, List.mem_flatMap, not_or, not_exists, not_and]
  exact ⟨by decide, fun e _ => newline_notMem_cellText e⟩

theorem newline_notMem_sepLine (widths : List Nat) : '\n' ∉ sepLine widths := by
  simp [sepLine]

theorem splitLines_line (h : '\n' ∉ l) (rest : List Char) :
    splitLines (l ++ '\n' :: rest) = l :: splitLines rest := by
  induction l with
  | nil => simp [splitLines]
  | cons c l ih =>
    have hc : c ≠ '\n' := fun he => h (he ▸ List.mem_cons_self)
    rw [List.cons_append, splitLines, if_neg hc, ih fun hl => h (.tail _ hl)]

theorem splitLines_of_notMem (h : '\n' ∉ l) : splitLines l = [l] := by
  induction l with
  | nil => rfl
  | cons c l ih =>
    have hc : c ≠ '\n' := fun he => h (he ▸ List.mem_cons_self)
    rw [splitLines, if_neg hc, ih fun hl => h (.tail _ hl)]

theorem splitLines_joinLines {ls : List (List Char)} (hne : ls ≠ [])
    (h : ∀ l ∈ ls, '\n' ∉ l) : splitLines (joinLines ls) = ls := by
  induction ls with
  | nil => exact absurd rfl hne
  | cons l ls ih =>
    have hl := h l List.mem_cons_self
    cases ls with
    | nil => exact splitLines_of_notMem hl
    | cons l' ls =>
      rw [joinLines, splitLines_line hl, ih (by simp) fun x hx => h x (.tail _ hx)]
      exact nofun

/-- An answer: the headers of its columns, and its rows. -/
structure Answer where
  columns : List (List Char)
  rows : List (List (List Char))
  wide : ∀ r ∈ rows, r.length = columns.length
deriving DecidableEq

/-- `col_widths`: as wide as the header and as the widest cell, both as they are written. -/
def Answer.widths (a : Answer) : List Nat :=
  a.rows.foldl (fun ws r => List.zipWith max ws (r.map fun c => (escapeCell c).length))
    (a.columns.map fun c => (escapeCell c).length)

def emptyText : List Char :=
  ['0', ' ', 'r', 'o', 'w', 's', ' ', 'r', 'e', 't', 'u', 'r', 'n', 'e', 'd', '.']

def countLine (n : Nat) : List Char :=
  Nat.toDigits 10 n ++ [' ', 'r', 'o', 'w', '(', 's', ')', ' ', 'r', 'e', 't', 'u', 'r', 'n', 'e',
    'd', '.']

/-- The lines of an answer that has rows. -/
def Answer.lines (a : Answer) : List (List Char) :=
  [sepLine a.widths, rowLine a.columns a.widths, sepLine a.widths] ++
    a.rows.map (fun r => rowLine r a.widths) ++ [sepLine a.widths, countLine a.rows.length]

/-- `format_set_result`, and the end of `exec_select`. -/
def Answer.text (a : Answer) : List Char :=
  if a.rows = [] then emptyText else joinLines a.lines

/-- The columns and the cells of the rows `parse_table_output` finds in a text. -/
def readTable (output : List Char) : List (List Char) × List (List (List Char)) :=
  let lines := splitLines output
  if (lines.headD []).head? = some '+' then
    match lines.filter fun l => l.head? = some '|' with
    | [] => ([], [])
    | header :: rows => (splitRow header, rows.map splitRow)
  else ([], [])

/-- The row lines of a text, from its lines and the separators that were passed. -/
def rowLines : Nat → List (List Char) → List (List Char)
  | _, [] => []
  | separators, l :: ls =>
    if l.head? = some '+' then rowLines (separators + 1) ls
    else if l.head? = some '|' ∧ 2 ≤ separators then l :: rowLines separators ls
    else rowLines separators ls

/-- `extract_values_from_output`. -/
def extractValues (output : List Char) : List (List Char) :=
  (rowLines 0 (splitLines output)).map fun l => (splitRow l).headD []

/-- `extract_cells_from_output`, row by row. -/
def extractCells (output : List Char) (width : Nat) : Option (List (List (List Char))) :=
  (rowLines 0 (splitLines output)).mapM fun l =>
    if (splitRow l).length = width then some (splitRow l) else none

variable (a : Answer)

theorem Answer.length_widths : a.widths.length = a.columns.length := by
  have hfold : ∀ (rows : List (List (List Char))) (ws : List Nat),
      (∀ r ∈ rows, r.length = ws.length) →
      (rows.foldl (fun ws r => List.zipWith max ws (r.map fun c => (escapeCell c).length))
        ws).length = ws.length := by
    intro rows
    induction rows with
    | nil => exact fun _ _ => rfl
    | cons r rows ih =>
      intro ws h
      have hlen : (List.zipWith max ws (r.map fun c => (escapeCell c).length)).length =
          ws.length := by
        rw [List.length_zipWith, List.length_map, h r List.mem_cons_self, min_self]
      rw [List.foldl_cons, ih _ fun x hx => by
        rw [hlen]
        exact h x (.tail _ hx), hlen]
  rw [Answer.widths, hfold, List.length_map]
  intro r hr
  rw [List.length_map, a.wide r hr]

theorem isDigit_head?_countLine (n : Nat) : ∀ c ∈ (countLine n).head?, c.isDigit := by
  intro c hc
  have hne : Nat.toDigits 10 n ≠ [] := Nat.toDigits_ne_nil
  rw [countLine, List.head?_append_of_ne_nil _ hne] at hc
  exact Nat.isDigit_of_mem_toDigits (by decide) (by decide) (List.mem_of_mem_head? hc)

theorem newline_notMem_countLine (n : Nat) : '\n' ∉ countLine n := by
  rw [countLine, List.mem_append]
  rintro (h | h)
  · have := Nat.isDigit_of_mem_toDigits (by decide) (by decide) h
    revert this
    decide
  · revert h
    decide

theorem Answer.newline_notMem : ∀ l ∈ a.lines, '\n' ∉ l := by
  intro l hl
  simp only [Answer.lines, List.mem_append, List.mem_cons, List.mem_map, List.not_mem_nil,
    or_false] at hl
  rcases hl with ((rfl | rfl | rfl) | ⟨r, -, rfl⟩) | rfl | rfl
  · exact newline_notMem_sepLine _
  · exact newline_notMem_rowLine _ _
  · exact newline_notMem_sepLine _
  · exact newline_notMem_rowLine _ _
  · exact newline_notMem_sepLine _
  · exact newline_notMem_countLine _

theorem Answer.splitLines_text {a : Answer} (h : a.rows ≠ []) : splitLines a.text = a.lines := by
  rw [Answer.text, if_neg h, splitLines_joinLines (by simp [Answer.lines]) a.newline_notMem]

theorem rowLines_text_rows (rows : List (List (List Char))) (rest : List (List Char)) :
    rowLines 2 (rows.map (fun r => rowLine r a.widths) ++ rest) =
      rows.map (fun r => rowLine r a.widths) ++ rowLines 2 rest := by
  induction rows with
  | nil => rfl
  | cons r rows ih =>
    rw [List.map_cons, List.cons_append, rowLines, if_neg (by simp [rowLine]),
      if_pos ⟨by simp [rowLine], le_rfl⟩, ih, List.cons_append]

theorem head?_countLine_ne {n : Nat} (h : c.isDigit = false) : (countLine n).head? ≠ some c := by
  intro he
  rw [isDigit_head?_countLine n c he] at h
  exact Bool.noConfusion h

theorem Answer.rowLines_text :
    rowLines 0 (splitLines a.text) = a.rows.map fun r => rowLine r a.widths := by
  by_cases h : a.rows = []
  · rw [Answer.text, if_pos h, h, List.map_nil]
    decide
  · have htail : rowLines 2 [sepLine a.widths, countLine a.rows.length] = [] := by
      rw [rowLines, if_pos (by simp [sepLine]), rowLines, if_neg (head?_countLine_ne rfl),
        if_neg (fun hc => head?_countLine_ne rfl hc.1), rowLines]
    rw [a.splitLines_text h, Answer.lines, List.append_assoc, List.cons_append, List.cons_append,
      List.cons_append, List.nil_append, rowLines, if_pos (by simp [sepLine]), rowLines,
      if_neg (by simp [rowLine]), if_neg (by simp), rowLines, if_pos (by simp [sepLine]),
      rowLines_text_rows, htail, List.append_nil]

theorem Answer.extractValues_text : extractValues a.text = a.rows.map fun r => r.headD [] := by
  rw [extractValues, a.rowLines_text, List.map_map]
  refine List.map_congr_left fun r hr => ?_
  rw [Function.comp_apply, splitRow_rowLine (by rw [a.wide r hr, a.length_widths])]

theorem Answer.extractCells_text : extractCells a.text a.columns.length = some a.rows := by
  have hrows : ∀ rows : List (List (List Char)), (∀ r ∈ rows, r.length = a.columns.length) →
      (rows.map fun r => rowLine r a.widths).mapM (fun l =>
        if (splitRow l).length = a.columns.length then some (splitRow l) else none) =
        some rows := by
    intro rows
    induction rows with
    | nil => exact fun _ => rfl
    | cons r rows ih =>
      intro h
      have hr := h r List.mem_cons_self
      rw [List.map_cons, List.mapM_cons, splitRow_rowLine (by rw [hr, a.length_widths]),
        if_pos hr, ih fun x hx => h x (.tail _ hx)]
      rfl
  rw [extractCells, a.rowLines_text, hrows _ a.wide]

/-- The lines of a table read back as its columns and rows, whatever lines without a bar in
front stand behind it. -/
theorem Answer.readTable_joinLines {tail : List (List Char)} (hnewline : ∀ l ∈ tail, '\n' ∉ l)
    (hbar : ∀ l ∈ tail, l.head? ≠ some '|') :
    readTable (joinLines ([sepLine a.widths, rowLine a.columns a.widths, sepLine a.widths] ++
      a.rows.map (fun r => rowLine r a.widths) ++ sepLine a.widths :: tail)) =
      (a.columns, a.rows) := by
  have hbars : (a.rows.map fun r => rowLine r a.widths).filter
      (fun l => l.head? = some '|') = a.rows.map fun r => rowLine r a.widths := by
    rw [List.filter_eq_self]
    intro l hl
    obtain ⟨r, -, rfl⟩ := List.mem_map.mp hl
    simp [rowLine]
  have htail : tail.filter (fun l => l.head? = some '|') = [] := by
    rw [List.filter_eq_nil_iff]
    intro l hl
    simpa using hbar l hl
  have hcells : (a.rows.map fun r => rowLine r a.widths).map splitRow = a.rows := by
    rw [List.map_map]
    calc a.rows.map (splitRow ∘ fun r => rowLine r a.widths) = a.rows.map id :=
          List.map_congr_left fun r hr =>
            splitRow_rowLine (by rw [a.wide r hr, a.length_widths])
      _ = a.rows := List.map_id _
  have hlines : ∀ l ∈ [sepLine a.widths, rowLine a.columns a.widths, sepLine a.widths] ++
      a.rows.map (fun r => rowLine r a.widths) ++ sepLine a.widths :: tail, '\n' ∉ l := by
    intro l hl
    simp only [List.mem_append, List.mem_cons, List.mem_map, List.not_mem_nil, or_false] at hl
    rcases hl with ((rfl | rfl | rfl) | ⟨r, -, rfl⟩) | rfl | hl
    · exact newline_notMem_sepLine _
    · exact newline_notMem_rowLine _ _
    · exact newline_notMem_sepLine _
    · exact newline_notMem_rowLine _ _
    · exact newline_notMem_sepLine _
    · exact hnewline l hl
  have hfilter : ([sepLine a.widths, rowLine a.columns a.widths, sepLine a.widths] ++
      a.rows.map (fun r => rowLine r a.widths) ++ sepLine a.widths :: tail).filter
        (fun l => l.head? = some '|') =
      rowLine a.columns a.widths :: a.rows.map fun r => rowLine r a.widths := by
    rw [List.filter_append, List.filter_append, hbars]
    simp [sepLine, rowLine, htail]
  rw [readTable]
  simp only [splitLines_joinLines (by simp) hlines, hfilter]
  rw [if_pos (by simp [sepLine]), splitRow_rowLine a.length_widths.symm, hcells]

theorem Answer.readTable_text :
    readTable a.text = if a.rows = [] then ([], []) else (a.columns, a.rows) := by
  split_ifs with h
  · rw [Answer.text, if_pos h]
    decide
  · rw [Answer.text, if_neg h]
    refine a.readTable_joinLines (fun l hl => ?_) fun l hl => ?_
    · rw [List.mem_singleton.mp hl]
      exact newline_notMem_countLine _
    · rw [List.mem_singleton.mp hl]
      exact head?_countLine_ne rfl

def emptyMark : List Char :=
  ['0', ' ', 'r', 'o', 'w', 's', ' ', 'r', 'e', 't', 'u', 'r', 'n', 'e', 'd']

theorem skip_pads_left {rest : List Char} (hl : ∀ c ∈ l, isPad c)
    (h : emptyMark <:+: l ++ rest) : emptyMark <:+: rest := by
  refine infix_of_skip_left (by decide) (fun c hc he => ?_) h
  have hpad := hl c hc
  rw [← Option.some.inj he] at hpad
  revert hpad
  decide

theorem skip_pads_right {rest : List Char} (hl : ∀ c ∈ l, isPad c)
    (h : emptyMark <:+: rest ++ l) : emptyMark <:+: rest := by
  refine infix_of_skip_right (by decide) (fun c hc he => ?_) h
  have hpad := hl c hc
  rw [← Option.some.inj he] at hpad
  revert hpad
  decide

theorem prefix_of_flatMap_escapeChar {es : List (Bool × Char)} {w : List Char}
    (hw : '\\' ∉ w) (h : w <+: es.flatMap fun e => escapeChar e.1 e.2) : w <+: es.map Prod.snd := by
  induction es generalizing w with
  | nil => simpa using h
  | cons e es ih =>
    cases w with
    | nil => exact List.nil_prefix
    | cons y w =>
      rw [List.mem_cons, not_or] at hw
      rw [List.flatMap_cons] at h
      rcases escapeChar_cases e.1 e.2 with ⟨d, he⟩ | ⟨he, -⟩
      · rw [he] at h
        exact absurd (List.cons_prefix_cons.mp h).1.symm hw.1
      · rw [he] at h
        obtain ⟨rfl, htail⟩ := List.cons_prefix_cons.mp h
        exact List.cons_prefix_cons.mpr ⟨rfl, ih hw.2 htail⟩

theorem escapeChar_escaped {b : Bool} {d : Char} (h : escapeChar b c = ['\\', d]) : d ≠ '0' := by
  unfold escapeChar at h
  split_ifs at h with h1 h2 h3 h4 h5
  all_goals
    simp only [List.cons.injEq, true_and, and_true, List.cons_ne_nil, List.nil_eq, and_false] at h
  all_goals
    rw [← h]
    decide

theorem infix_of_flatMap_escapeChar {es : List (Bool × Char)}
    (h : emptyMark <:+: es.flatMap fun e => escapeChar e.1 e.2) :
    emptyMark <:+: es.map Prod.snd := by
  induction es with
  | nil => simpa using h
  | cons e es ih =>
    have hnext : emptyMark <:+: es.map Prod.snd → emptyMark <:+: (e :: es).map Prod.snd :=
      fun hin => hin.trans (List.suffix_cons e.2 (es.map Prod.snd)).isInfix
    rcases escapeChar_cases e.1 e.2 with ⟨d, he⟩ | ⟨he, -⟩
    · rw [List.flatMap_cons, he] at h
      refine hnext (ih (infix_of_skip_left (by decide) (fun c hc hhead => ?_) h))
      rw [List.mem_cons, List.mem_singleton] at hc
      rcases hc with rfl | rfl
      · exact absurd hhead (by decide)
      · exact escapeChar_escaped he (Option.some.inj hhead).symm
    · have hfull := h
      rw [List.flatMap_cons, he] at h
      rcases List.infix_cons_iff.mp h with hpre | hrest
      · have hes : emptyMark <+: (e :: es).flatMap fun e => escapeChar e.1 e.2 := by
          rw [List.flatMap_cons, he]
          exact hpre
        exact (prefix_of_flatMap_escapeChar (by decide) hes).isInfix
      · exact hnext (ih hrest)

theorem emptyMark_infix_escapeCell : emptyMark <:+: escapeCell value ↔ emptyMark <:+: value := by
  set mid := (value.dropWhile isPad).rdropWhile isPad with hmid
  set trail := (value.dropWhile isPad).rtakeWhile isPad with htrail
  have hparts : value.takeWhile isPad ++ mid ++ trail = value := by
    rw [List.append_assoc, hmid, htrail, List.rdropWhile_append_rtakeWhile,
      List.takeWhile_append_dropWhile]
  constructor
  · intro h
    have hflat : emptyMark <:+: ((value.takeWhile isPad).map (fun c => (true, c)) ++
        mid.map (fun c => (false, c)) ++ trail.map (fun c => (true, c))).flatMap
          fun e => escapeChar e.1 e.2 := by
      simpa [escapeCell, List.flatMap_map] using h
    have hes := infix_of_flatMap_escapeChar hflat
    rw [← hparts]
    simpa [Function.comp_def] using hes
  · intro h
    rw [← hparts, List.append_assoc] at h
    have hin : emptyMark <:+: mid :=
      skip_pads_right (fun c hc => List.mem_rtakeWhile_imp hc)
        (skip_pads_left (fun c hc => List.mem_takeWhile_imp hc) h)
    obtain ⟨p, q, hpq⟩ := hin
    rw [escapeCell, ← hmid, ← hpq, List.flatMap_append, List.flatMap_append]
    have hself : emptyMark.flatMap (escapeChar false) = emptyMark := by decide
    rw [hself]
    exact ⟨(value.takeWhile isPad).flatMap (escapeChar true) ++ p.flatMap (escapeChar false),
      q.flatMap (escapeChar false) ++ trail.flatMap (escapeChar true), by
        simp only [List.append_assoc, htrail]⟩

theorem emptyMark_infix_cellText : emptyMark <:+: cellText e ↔ emptyMark <:+: e.1 := by
  rw [← emptyMark_infix_escapeCell e.1]
  constructor
  · intro h
    have hbar : emptyMark <:+: [' '] ++ (escapeCell e.1 ++
        List.replicate (e.2 - (escapeCell e.1).length + 1) ' ') ++ ['|'] := by
      simpa [cellText, List.replicate_succ'] using h
    have hpads := infix_of_skip_right (by decide) (by simp [emptyMark]) hbar
    have hspaces := skip_pads_left (by simp [isPad]) hpads
    refine skip_pads_right (fun c hc => ?_) hspaces
    rw [List.eq_of_mem_replicate hc]
    rfl
  · rintro ⟨p, q, h⟩
    rw [cellText, ← h]
    exact ⟨' ' :: p, q ++ List.replicate (e.2 - (p ++ emptyMark ++ q).length) ' ' ++ [' ', '|'], by
      simp only [List.cons_append, List.append_assoc]⟩

theorem emptyMark_infix_cells (es : List (List Char × Nat)) :
    emptyMark <:+: es.flatMap cellText ↔ ∃ e ∈ es, emptyMark <:+: e.1 := by
  induction es with
  | nil =>
    simp only [List.flatMap_nil, List.not_mem_nil, false_and, exists_false, iff_false]
    decide
  | cons e es ih =>
    rw [List.flatMap_cons, List.exists_mem_cons_iff, ← ih, ← emptyMark_infix_cellText]
    constructor
    · intro h
      have hbar : emptyMark <:+: (' ' :: (escapeCell e.1 ++
          List.replicate (e.2 - (escapeCell e.1).length) ' ') ++ [' ']) ++
            '|' :: es.flatMap cellText := by
        simpa [cellText] using h
      refine (infix_or_of_notMem (by decide) hbar).imp_left fun hin => hin.trans ?_
      exact ⟨[], ['|'], by simp [cellText]⟩
    · rintro (h | h)
      · exact h.trans (List.prefix_append _ _).isInfix
      · exact h.trans (List.suffix_append _ _).isInfix

theorem emptyMark_infix_rowLine {cells : List (List Char)} {widths : List Nat}
    (h : cells.length = widths.length) :
    emptyMark <:+: rowLine cells widths ↔ ∃ c ∈ cells, emptyMark <:+: c := by
  have hcells : (∃ e ∈ cells.zip widths, emptyMark <:+: e.1) ↔ ∃ c ∈ cells, emptyMark <:+: c := by
    conv_rhs => rw [← List.map_fst_zip (le_of_eq h)]
    simp only [List.mem_map, exists_exists_and_eq_and]
  rw [rowLine, ← hcells, ← emptyMark_infix_cells]
  constructor
  · exact fun hin => infix_of_skip_left (by decide) (by simp [emptyMark])
      (show emptyMark <:+: ['|'] ++ (cells.zip widths).flatMap cellText from hin)
  · exact fun hin => hin.trans (List.suffix_cons _ _).isInfix

theorem not_emptyMark_infix_sepLine (widths : List Nat) : ¬ emptyMark <:+: sepLine widths := by
  intro h
  have hmem := h.subset (show '0' ∈ emptyMark by decide)
  simp [sepLine] at hmem

theorem not_emptyMark_infix_countLine (n : Nat) : ¬ emptyMark <:+: countLine n := by
  intro h
  have hcut : emptyMark <:+: (Nat.toDigits 10 n ++ [' ', 'r', 'o', 'w']) ++
      '(' :: ['s', ')', ' ', 'r', 'e', 't', 'u', 'r', 'n', 'e', 'd', '.'] := by
    simpa [countLine] using h
  rcases infix_or_of_notMem (by decide) hcut with hin | hin
  · have hmem := hin.subset (show 'd' ∈ emptyMark by decide)
    rw [List.mem_append] at hmem
    rcases hmem with hdigit | hword
    · exact absurd (Nat.isDigit_of_mem_toDigits (by decide) (by decide) hdigit) (by decide)
    · exact absurd hword (by decide)
  · exact absurd (hin.subset (show '0' ∈ emptyMark by decide)) (by decide)

theorem emptyMark_infix_joinLines (ls : List (List Char)) :
    emptyMark <:+: joinLines ls ↔ ∃ l ∈ ls, emptyMark <:+: l := by
  induction ls with
  | nil =>
    simp only [joinLines, List.not_mem_nil, false_and, exists_false, iff_false]
    decide
  | cons l ls ih =>
    cases ls with
    | nil => simp [joinLines]
    | cons l' ls =>
      rw [List.exists_mem_cons_iff, ← ih, joinLines]
      · constructor
        · exact fun h => infix_or_of_notMem (by decide) h
        · rintro (h | h)
          · exact h.trans (List.prefix_append _ _).isInfix
          · exact h.trans ((List.suffix_cons _ _).trans (List.suffix_append _ _)).isInfix
      · exact nofun

/-- The mark stands in an answer's text when it has no rows, or when a header or a cell of it has
the mark. -/
theorem Answer.emptyMark_infix_text :
    emptyMark <:+: a.text ↔
      a.rows = [] ∨ (∃ c ∈ a.columns, emptyMark <:+: c) ∨ ∃ r ∈ a.rows, ∃ c ∈ r,
        emptyMark <:+: c := by
  by_cases h : a.rows = []
  · rw [Answer.text, if_pos h]
    exact iff_of_true (by decide) (.inl h)
  · have hrows : ∀ l ∈ a.rows.map (fun r => rowLine r a.widths), emptyMark <:+: l →
        ∃ r ∈ a.rows, ∃ c ∈ r, emptyMark <:+: c := by
      intro l hl hin
      obtain ⟨r, hr, rfl⟩ := List.mem_map.mp hl
      exact ⟨r, hr, (emptyMark_infix_rowLine (by rw [a.wide r hr, a.length_widths])).mp hin⟩
    rw [Answer.text, if_neg h, emptyMark_infix_joinLines, or_iff_right h]
    constructor
    · rintro ⟨l, hl, hin⟩
      rw [Answer.lines, List.mem_append, List.mem_append] at hl
      rcases hl with (hl | hl) | hl
      · simp only [List.mem_cons, List.not_mem_nil, or_false] at hl
        rcases hl with rfl | rfl | rfl
        · exact absurd hin (not_emptyMark_infix_sepLine _)
        · exact .inl ((emptyMark_infix_rowLine a.length_widths.symm).mp hin)
        · exact absurd hin (not_emptyMark_infix_sepLine _)
      · exact .inr (hrows l hl hin)
      · simp only [List.mem_cons, List.not_mem_nil, or_false] at hl
        rcases hl with rfl | rfl
        · exact absurd hin (not_emptyMark_infix_sepLine _)
        · exact absurd hin (not_emptyMark_infix_countLine _)
    · rintro (hcol | ⟨r, hr, hcell⟩)
      · exact ⟨rowLine a.columns a.widths, by simp [Answer.lines],
          (emptyMark_infix_rowLine a.length_widths.symm).mpr hcol⟩
      · refine ⟨rowLine r a.widths, ?_,
          (emptyMark_infix_rowLine (by rw [a.wide r hr, a.length_widths])).mpr hcell⟩
        rw [Answer.lines, List.mem_append, List.mem_append]
        exact .inl (.inr (List.mem_map.mpr ⟨r, hr, rfl⟩))

end RusqlEngine.ResultText
