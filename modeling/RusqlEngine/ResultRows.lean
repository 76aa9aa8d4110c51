import RusqlEngine.With

/-!
# Result tables written from rows

Set operations and RETURNING write their rows under a list of columns; what reads the text back
finds these columns and, in every row, the values of these columns. Two names do not belong to the
text: every row that is read gets `_xmin` and `_xmax` anew.
-/

namespace RusqlEngine

namespace ResultText

/-- The rows under headers, each with the key of its cells. -/
def answerOf (headers : List (String × String)) (missing : String) (rows : List Row) : Answer where
  columns := headers.map fun h => h.1.toList
  rows := rows.map fun row => headers.map fun h => ((row.find h.2).getD missing).toList
  wide := by
    intro r hr
    obtain ⟨row, -, rfl⟩ := List.mem_map.mp hr
    rw [List.length_map, List.length_map]

/-- `format_set_result`; a column that a row does not have is an empty cell. -/
def formatSetResult (cols : List String) (result : List Row) : List Char :=
  (answerOf (cols.map fun c => (c, c)) "" result).text

/-- What `format_returning_rows` reads of a `SelectColumn`. -/
inductive ReturningColumn
  | all
  | column (name : String)
  | columnAlias (name display : String)
  | other
deriving DecidableEq, Repr

/-- A header and the key of its cells. -/
def ReturningColumn.header? : ReturningColumn → Option (String × String)
  | .column name => some (name, name)
  | .columnAlias name display => some (display, name)
  | .all | .other => none

/-- The headers of RETURNING with their keys; `keys` lists the columns of a row in the order of
the unordered map. -/
def returningHeaders (keys : Row → List String) (rows : List Row) (cols : List ReturningColumn) :
    List (String × String) :=
  if ReturningColumn.all ∈ cols then
    (((rows.head?.map keys).getD []).filter fun k => k ≠ "" ∧ k.toList.head? ≠ some '_').map
      fun k => (k, k)
  else cols.filterMap ReturningColumn.header?

/-- The lines of a table without the line that counts its rows. -/
def Answer.tableLines (a : Answer) : List (List Char) :=
  [sepLine a.widths, rowLine a.columns a.widths, sepLine a.widths] ++
    a.rows.map (fun r => rowLine r a.widths) ++ [sepLine a.widths]

/-- `format_returning_rows`; a column that a row does not have is NULL. -/
def formatReturningRows (keys : Row → List String) (rows : List Row)
    (cols : List ReturningColumn) : List Char :=
  if rows = [] then "(0 rows)".toList
  else joinLines (answerOf (returningHeaders keys rows cols) "NULL" rows).tableLines

theorem Answer.readTable_tableLines (a : Answer) :
    readTable (joinLines a.tableLines) = (a.columns, a.rows) :=
  a.readTable_joinLines nofun
    nofun

theorem returningHeaders_columns (keys : Row → List String) (rows : List Row)
    (cols : List String) : returningHeaders keys rows (cols.map .column) =
      cols.map fun c => (c, c) := by
  rw [returningHeaders, if_neg (by simp), List.filterMap_map]
  change cols.filterMap (some ∘ fun c => (c, c)) = _
  rw [List.filterMap_eq_map]

end ResultText

namespace With

open ResultText

theorem find_foldl_set_of_ne {β : Type} (k v : β → String) {c : String} (l : List β) (row : Row)
    (h : ∀ b ∈ l, k b ≠ c) :
    (l.foldl (fun (row : Row) b => row.set (k b) (v b)) row).find c = row.find c := by
  induction l generalizing row with
  | nil => rfl
  | cons b l ih =>
    rw [List.foldl_cons, ih _ fun b' hb' => h b' (.tail _ hb'),
      Row.find_set_of_ne _ _ (Ne.symm (h b List.mem_cons_self))]

variable {cols : List String}

theorem readRow_find_of_notMem {cells : List String} {c : String}
    (hc : ¬ (c = "_xmin" ∨ c = "_xmax")) (hmem : c ∉ cols) :
    (readRow cols cells).find c = none := by
  push Not at hc
  rw [readRow, Row.find_set_of_ne _ _ hc.2, Row.find_set_of_ne _ _ hc.1,
    find_foldl_set_of_ne (fun b : String × Nat => b.1) (fun b => (cells[b.2]?).getD "")]
  · rfl
  · rintro ⟨c', j⟩ hb rfl
    exact hmem (List.mem_of_getElem? (List.mem_zipIdx_iff_getElem?.mp hb))

/-- A row that was written under a list of columns, read back: a name may stand twice among
them. -/
theorem readRow_map (cols : List String) (cell : String → String) (c : String) :
    (readRow cols (cols.map cell)).find c =
      if c = "_xmin" ∨ c = "_xmax" then some "0" else if c ∈ cols then some (cell c) else none := by
  by_cases hc : c = "_xmin" ∨ c = "_xmax"
  · rw [if_pos hc, readRow_hidden _ _ hc]
  · rw [if_neg hc]
    by_cases hmem : c ∈ cols
    · obtain ⟨i, hi⟩ := List.mem_iff_getElem?.mp hmem
      rw [if_pos hmem]
      refine readRow_find hc hi fun j hj => ?_
      rw [List.getElem?_map, hj]
      rfl
    · rw [if_neg hmem, readRow_find_of_notMem hc hmem]

variable {rows : List Row}

theorem parseTableOutput_of_readTable {missing : String} {text : List Char}
    (h : readTable text = ((answerOf (cols.map fun c => (c, c)) missing rows).columns,
      (answerOf (cols.map fun c => (c, c)) missing rows).rows)) :
    (parseTableOutput text).cols = cols ∧ (parseTableOutput text).rows =
      rows.map fun row => readRow cols (cols.map fun c => (row.find c).getD missing) := by
  have hcols : ((answerOf (cols.map fun c => (c, c)) missing rows).columns).map String.ofList =
      cols := by
    simp [answerOf, Function.comp_def]
  rw [parseTableOutput, h]
  refine ⟨hcols, ?_⟩
  dsimp only
  rw [hcols, answerOf, List.map_map]
  refine List.map_congr_left fun row _ => ?_
  simp [Function.comp_def]

/-- The columns are read back, and of every row the values under them; the system cells are
new. -/
structure RowsReadBack (cols : List String) (rows : List Row) (out : TableOutput) : Prop where
  columns : out.cols = cols
  values : List.Forall₂ (fun row back : Row => ∀ c, back.find c =
    if c = "_xmin" ∨ c = "_xmax" then some "0" else if c ∈ cols then row.find c else none)
    rows out.rows

theorem rowsReadBack_of_readTable {missing : String} {text : List Char}
    (hover : ∀ row ∈ rows, ∀ c ∈ cols, (row.find c).isSome)
    (h : readTable text = ((answerOf (cols.map fun c => (c, c)) missing rows).columns,
      (answerOf (cols.map fun c => (c, c)) missing rows).rows)) :
    RowsReadBack cols rows (parseTableOutput text) := by
  obtain ⟨hcols, hrows⟩ := parseTableOutput_of_readTable h
  refine ⟨hcols, ?_⟩
  rw [hrows, List.forall₂_map_right_iff, List.forall₂_same]
  intro row hrow c
  rw [readRow_map]
  split
  next => rfl
  next =>
    split
    next hmem =>
      obtain ⟨v, hv⟩ := Option.isSome_iff_exists.mp (hover row hrow c hmem)
      rw [hv, Option.getD_some]
    next => rfl

theorem readTable_formatSetResult (hrows : rows ≠ []) :
    readTable (formatSetResult cols rows) = ((answerOf (cols.map fun c => (c, c)) "" rows).columns,
      (answerOf (cols.map fun c => (c, c)) "" rows).rows) := by
  rw [formatSetResult, Answer.readTable_text, if_neg]
  simpa [answerOf] using hrows

theorem readTable_formatReturningRows (keys : Row → List String) (hrows : rows ≠ []) :
    readTable (formatReturningRows keys rows (cols.map .column)) =
      ((answerOf (cols.map fun c => (c, c)) "NULL" rows).columns,
        (answerOf (cols.map fun c => (c, c)) "NULL" rows).rows) := by
  rw [formatReturningRows, if_neg hrows, returningHeaders_columns, Answer.readTable_tableLines]

/-- A table reads back as it was written, whatever its cells hold, but for the names `_xmin` and
`_xmax`. -/
theorem tables_read_back (keys : Row → List String) {cols : List String} {rows : List Row}
    (hrows : rows ≠ []) (hover : ∀ row ∈ rows, ∀ c ∈ cols, (row.find c).isSome) :
    RowsReadBack cols rows (parseTableOutput (formatSetResult cols rows)) ∧
      RowsReadBack cols rows
        (parseTableOutput (formatReturningRows keys rows (cols.map .column))) ∧
      ∀ v : List Char, unescapeCell (escapeCell v) = v :=
  ⟨rowsReadBack_of_readTable hover (readTable_formatSetResult hrows),
    rowsReadBack_of_readTable hover (readTable_formatReturningRows keys hrows),
    unescapeCell_escapeCell⟩

/-- A bar and a backslash with spaces around them. -/
theorem tables_read_back_bar : RowsReadBack ["a", "b c"]
    [Row.ofCells [("a", " | \\n"), ("b c", "\\t")], Row.ofCells [("a", ""), ("b c", "NULL")]]
    (parseTableOutput (formatSetResult ["a", "b c"]
      [Row.ofCells [("a", " | \\n"), ("b c", "\\t")], Row.ofCells [("a", ""), ("b c", "NULL")]])) :=
  (tables_read_back (fun _ => []) (List.cons_ne_nil _ _) (by decide)).1

/-- A column of the name `_xmin` loses its value. -/
theorem xmin_not_read_back : ¬ ∀ (cols : List String) (rows : List Row), cols ≠ [] → cols.Nodup →
    rows ≠ [] → (∀ row ∈ rows, ∀ c ∈ cols, (row.find c).isSome) →
    (parseTableOutput (formatSetResult cols rows)).cols = cols ∧
      List.Forall₂ (fun row back : Row => ∀ c ∈ cols, back.find c = row.find c) rows
        (parseTableOutput (formatSetResult cols rows)).rows := by
  intro h
  have hrow := (h ["_xmin"] [Row.ofCells [("_xmin", "5")]] (List.cons_ne_nil _ _)
    (List.nodup_singleton _) (List.cons_ne_nil _ _) (by decide)).2
  rw [(parseTableOutput_of_readTable (readTable_formatSetResult (List.cons_ne_nil _ _))).2,
    List.forall₂_map_right_iff, List.forall₂_same] at hrow
  have hcell := hrow _ List.mem_cons_self "_xmin" List.mem_cons_self
  rw [readRow_hidden _ _ (.inl rfl)] at hcell
  exact absurd hcell (by decide)

end With

end RusqlEngine
