import RusqlEngine.Library.ExceptFold
import RusqlEngine.RecursiveCte
import RusqlEngine.ResultText

/-!
# WITH as a sequence of bindings

A plain body of `exec_with` is run, its text is read back and becomes a table under the name of the
CTE; a recursive body ends the loop: the main query runs as soon as its table is there. A database
is what queries see, tables by their columns and cells. The queries are given by what they answer.
-/

namespace RusqlEngine.With

open ResultText Fixpoint

/-- A table: its columns, what is known of their types, and the cells of its rows. -/
structure Table (τ : Type) where
  cols : List String
  types : τ
  rows : List (List String)
deriving DecidableEq

/-- The tables and the views by name. -/
structure Database (τ : Type) where
  tables : String → Option (Table τ)
  views : List String

/-- `s.tables[name] = rows`, with the columns in the catalog. -/
def Database.put {τ : Type} (db : Database τ) (name : String) (table : Table τ) : Database τ :=
  { db with tables := Function.update db.tables name (some table) }

/-- `s.tables.count(name) || s.views.count(name)`. -/
def Database.taken {τ : Type} (db : Database τ) (name : String) : Bool :=
  (db.tables name).isSome || db.views.contains name

/-- What statements answer over a database (`execute_with_s`), the parts of a UNION, a term as
`semi_naive_ok` reads it, and the types that `derived_column_defs` finds. -/
structure Queries (κ τ : Type) where
  coll : Collation
  run : Database τ → κ → Except String ResultText.Answer
  unionOf : κ → Option (κ × κ)
  select : κ → Option SelectStatement
  derivedColumnDefs : Database τ → κ → List String → List (List String) → τ

/-- A row of `parse_table_output`. -/
def readRow (cols : List String) (cells : List String) : Row :=
  ((cols.zipIdx.foldl (fun (row : Row) c => row.set c.1 ((cells[c.2]?).getD "")) ∅).set
    "_xmin" "0").set "_xmax" "0"

def parseTableOutput (output : List Char) : TableOutput :=
  let cols := (readTable output).1.map String.ofList
  { cols := cols
    rows := (readTable output).2.map fun cells => readRow cols (cells.map String.ofList) }

def cellsOf (cols : List String) (row : Row) : List String :=
  cols.map fun c => (row.find c).getD ""

section

variable {κ τ : Type} (e : Queries κ τ)

def answered (db : Database τ) (q : κ) : Except String TableOutput :=
  (e.run db q).map fun a => parseTableOutput a.text

/-- The table of a plain body. -/
def plainTable (db : Database τ) (body : κ) : Except String (Table τ) :=
  (answered e db body).map fun out =>
    { cols := out.cols
      types := e.derivedColumnDefs db body out.cols (out.rows.map (cellsOf out.cols))
      rows := out.rows.map (cellsOf out.cols) }

/-- The table of a recursive CTE with the given rows; the base types its columns. -/
def recursiveContents (db : Database τ) (left : κ) (base : TableOutput) (rows : List Row) :
    Table τ where
  cols := base.cols
  types := e.derivedColumnDefs db left base.cols (base.rows.map (cellsOf base.cols))
  rows := rows.map (cellsOf base.cols)

/-- The recursive CTE of a base and a term, the term being run with the table in place. -/
def recursiveCte (db : Database τ) (name : String) (left right : κ) (base : TableOutput) :
    RecursiveCte where
  name := name
  base := .ok base
  statement := e.select right
  term contents := answered e (db.put name (recursiveContents e db left base contents)) right

/-- The table the rounds of a recursive body leave. -/
def recursiveTable (db : Database τ) (name : String) (left right : κ) : Except String (Table τ) :=
  (answered e db left).bind fun base =>
    ((recursiveCte e db name left right base).loop e.coll base.cols
      (semiNaiveOk name (e.select right)) 1000 (RecursiveCte.startLoop e.coll base)).map
        (recursiveContents e db left base)

def recursiveParts (recursive : Bool) (body : κ) : Option (κ × κ) :=
  if recursive then e.unionOf body else none

/-- The database the main query of `exec_with` runs over. -/
def mainDatabase (recursive : Bool) (db : Database τ) :
    List (String × κ) → Except String (Database τ)
  | [] => .ok db
  | (name, body) :: ctes =>
    if db.taken name then
      .error ("CTE name '" ++ name ++ "' conflicts with an existing table or view")
    else
      match recursiveParts e recursive body with
      | some (left, right) => (recursiveTable e db name left right).map (db.put name)
      | none => (plainTable e db body).bind fun table =>
        mainDatabase recursive (db.put name table) ctes

/-- `exec_with`; the main query by what it answers over a database. -/
def execWith {α : Type} (recursive : Bool) (db : Database τ) (ctes : List (String × κ))
    (main : Database τ → Except String α) : Except String α :=
  (mainDatabase e recursive db ctes).bind main

/-! ### The bindings -/

/-- The table that holds exactly an answer. -/
def exactTable (db : Database τ) (body : κ) (a : ResultText.Answer) : Table τ where
  cols := a.columns.map String.ofList
  types := e.derivedColumnDefs db body (a.columns.map String.ofList)
    (a.rows.map fun r => r.map String.ofList)
  rows := a.rows.map fun r => r.map String.ofList

def answerCells (a : ResultText.Answer) : List (List String) :=
  a.rows.map fun r => r.map String.ofList

/-- The table of a recursive body with given rows, under the columns of its base. -/
def bodyContents (db : Database τ) (left : κ) (a : ResultText.Answer)
    (rows : List (List String)) : Table τ :=
  { exactTable e db left a with rows := rows }

/-- What the term of a recursive body answers over given rows, under the columns of the base. -/
def termRows (db : Database τ) (name : String) (left right : κ) (a : ResultText.Answer)
    (rows : List (List String)) : Except String (List (List String)) :=
  (e.run (db.put name (bodyContents e db left a rows)) right).map fun b =>
    (answerCells b).map fun cells =>
      (List.range a.columns.length).map fun i => (cells[i]?).getD ""

def cellKeys (coll : Collation) (cells : List String) : List String :=
  cells.map coll.key

/-- A row that follows from the base by the term. -/
abbrev BodyRow (db : Database τ) (name : String) (left right : κ) (a : ResultText.Answer)
    (k : List String) : Prop :=
  Derived (cellKeys e.coll) (termRows e db name left right a) (answerCells a) k

/-- The table holds the rows of the body over the database with the earlier ones in place: those of
its answer, or for a recursive body those that follow from the base, each once. -/
def BodyTable (recursive : Bool) (db : Database τ) (name : String) (body : κ) (table : Table τ) :
    Prop :=
  match recursiveParts e recursive body with
  | some (left, right) => ∃ a, e.run db left = .ok a ∧
      table = bodyContents e db left a table.rows ∧
      (table.rows.map (cellKeys e.coll)).Nodup ∧
      ∀ k, k ∈ keysOf (cellKeys e.coll) table.rows ↔ BodyRow e db name left right a k
  | none => ∃ a, e.run db body = .ok a ∧ table = exactTable e db body a

/-- The database has one table for each CTE. -/
def Bindings (recursive : Bool) (specDb : Database τ) : List (String × κ) → Database τ → Prop
  | [], db => db = specDb
  | (name, body) :: ctes, db => ∃ table, BodyTable e recursive db name body table ∧
      Bindings recursive specDb ctes (db.put name table)

/-- No part is in error: every body has an answer, and the rounds of a recursive one end. -/
def PartsAnswer (recursive : Bool) : List (String × κ) → Database τ → Prop
  | [], _ => True
  | (name, body) :: ctes, db =>
    match recursiveParts e recursive body with
    | some (left, right) => ∃ table, recursiveTable e db name left right = .ok table
    | none => ∃ a, e.run db body = .ok a ∧
        PartsAnswer recursive ctes (db.put name (exactTable e db body a))

/-- An answer whose text says all of it: it has a row, equal names hold equal values, and `_xmin`
and `_xmax` hold `0`. -/
structure ReadsBack (a : ResultText.Answer) : Prop where
  rows : a.rows = [] → a.columns = []
  repeated : ∀ r ∈ a.rows, ∀ i j : Nat, ∀ c, a.columns[i]? = some c → a.columns[j]? = some c →
    r[i]? = r[j]?
  hidden : ∀ r ∈ a.rows, ∀ i : Nat, ∀ c, a.columns[i]? = some c →
    String.ofList c = "_xmin" ∨ String.ofList c = "_xmax" → r[i]? = some ['0']

/-- A recursive body is the last one, and the answer of every plain one reads back. -/
def Bindable (recursive : Bool) (db : Database τ) : List (String × κ) → Prop
  | [] => True
  | (name, body) :: ctes =>
    match recursiveParts e recursive body with
    | some _ => ctes = []
    | none => ∀ a, e.run db body = .ok a →
        ReadsBack a ∧ Bindable recursive (db.put name (exactTable e db body a)) ctes

/-- The rows of a recursive body come back from the text: the base names its columns apart, and
the answers of the term read back where they have a row. The term only gains rows, and its stages
leave each row once. -/
structure RoundsSound (db : Database τ) (name : String) (left right : κ) (a : ResultText.Answer) :
    Prop where
  base : ReadsBack a
  apart : a.columns.Nodup
  visible : ∀ c ∈ a.columns, String.ofList c ≠ "_xmin" ∧ String.ofList c ≠ "_xmax"
  term : ∀ rows b, (∀ k ∈ keysOf (cellKeys e.coll) rows, BodyRow e db name left right a k) →
    e.run (db.put name (bodyContents e db left a rows)) right = .ok b → b.rows = [] ∨ ReadsBack b
  gains : Gains (cellKeys e.coll) (termRows e db name left right a)
  stages : RecursiveCte.InStages (cellKeys e.coll) (termRows e db name left right a)
    (answerCells a) (semiNaiveOk name (e.select right))

/-- The rounds of the recursive body are sound. -/
def RecursionSound (recursive : Bool) : List (String × κ) → Database τ → Prop
  | [], _ => True
  | (name, body) :: ctes, db =>
    match recursiveParts e recursive body with
    | some (left, right) => ∀ a, e.run db left = .ok a → RoundsSound e db name left right a
    | none => ∀ a, e.run db body = .ok a →
        RecursionSound recursive ctes (db.put name (exactTable e db body a))

end

/-! ### Reading an answer back -/

theorem find_foldl_set {β : Type} (k v : β → String) {c w : String} (l : List β) (row : Row)
    (hval : ∀ b ∈ l, k b = c → v b = w) (hmem : row.find c = some w ∨ ∃ b ∈ l, k b = c) :
    (l.foldl (fun (row : Row) b => row.set (k b) (v b)) row).find c = some w := by
  induction l generalizing row with
  | nil => simpa using hmem
  | cons b l ih =>
    rw [List.foldl_cons]
    refine ih _ (fun b' hb' => hval b' (.tail _ hb')) ?_
    by_cases hb : k b = c
    · refine .inl ?_
      rw [hb, Row.find_set, hval b List.mem_cons_self hb]
    · rw [Row.find_set_of_ne _ _ (Ne.symm hb)]
      refine hmem.imp_right ?_
      rintro ⟨b', hb', hk⟩
      rcases List.mem_cons.mp hb' with rfl | htail
      · exact absurd hk hb
      · exact ⟨b', htail, hk⟩

theorem readRow_hidden (cols cells : List String) {c : String} (hc : c = "_xmin" ∨ c = "_xmax") :
    (readRow cols cells).find c = some "0" := by
  rcases hc with rfl | rfl
  · rw [readRow, Row.find_set_of_ne _ _ (by decide), Row.find_set]
  · rw [readRow, Row.find_set]

theorem readRow_find {cols cells : List String} {c w : String} {i : Nat}
    (hc : ¬ (c = "_xmin" ∨ c = "_xmax")) (hi : cols[i]? = some c)
    (hval : ∀ j : Nat, cols[j]? = some c → (cells[j]?).getD "" = w) :
    (readRow cols cells).find c = some w := by
  push Not at hc
  rw [readRow, Row.find_set_of_ne _ _ hc.2, Row.find_set_of_ne _ _ hc.1]
  refine find_foldl_set (fun b : String × Nat => b.1) (fun b => (cells[b.2]?).getD "") _ _ ?_ ?_
  · rintro ⟨c', j⟩ hb rfl
    exact hval j (List.mem_zipIdx_iff_getElem?.mp hb)
  · exact .inr ⟨(c, i), List.mem_zipIdx_iff_getElem?.mpr hi, rfl⟩

/-- The cells of a row are read back exactly when equal names hold equal values and the hidden
columns `0`. -/
theorem cellsOf_readRow_iff {cols cells : List String} (hlen : cells.length = cols.length) :
    cellsOf cols (readRow cols cells) = cells ↔
      (∀ i j : Nat, ∀ c, cols[i]? = some c → cols[j]? = some c → cells[i]? = cells[j]?) ∧
      ∀ i : Nat, ∀ c, cols[i]? = some c → c = "_xmin" ∨ c = "_xmax" → cells[i]? = some "0" := by
  constructor
  · intro h
    have hget : ∀ (i : Nat) (c : String), cols[i]? = some c →
        cells[i]? = some (((readRow cols cells).find c).getD "") := by
      intro i c hi
      rw [← congrArg (fun l : List String => l[i]?) h, cellsOf, List.getElem?_map, hi]
      rfl
    refine ⟨fun i j c hi hj => ?_, fun i c hi hc => ?_⟩
    · rw [hget i c hi, hget j c hj]
    · rw [hget i c hi, readRow_hidden cols cells hc]
      rfl
  · rintro ⟨hrep, hhid⟩
    refine List.ext_getElem? fun i => ?_
    rw [cellsOf, List.getElem?_map]
    cases hi : cols[i]? with
    | none =>
      rw [List.getElem?_eq_none_iff, ← hlen, ← List.getElem?_eq_none_iff] at hi
      rw [hi]
      rfl
    | some c =>
      rw [Option.map_some]
      obtain ⟨hlt, -⟩ := List.getElem?_eq_some_iff.mp hi
      have hcell : ∃ w, cells[i]? = some w :=
        ⟨cells[i], List.getElem?_eq_getElem (hlen ▸ hlt)⟩
      obtain ⟨w, hw⟩ := hcell
      by_cases hc : c = "_xmin" ∨ c = "_xmax"
      · rw [readRow_hidden cols cells hc, hhid i c hi hc]
        rfl
      · rw [readRow_find hc hi fun j hj => by rw [← hrep i j c hi hj, hw, Option.getD_some], hw]
        rfl

theorem ofList_injective : Function.Injective String.ofList := by
  intro a b h
  simpa using congrArg String.toList h

/-- The same for names and cells as the lists of characters they are in an answer. -/
theorem cellsOf_readRow_map_iff {cols cells : List (List Char)}
    (hlen : cells.length = cols.length) :
    cellsOf (cols.map String.ofList) (readRow (cols.map String.ofList)
        (cells.map String.ofList)) = cells.map String.ofList ↔
      (∀ i j : Nat, ∀ c, cols[i]? = some c → cols[j]? = some c → cells[i]? = cells[j]?) ∧
      ∀ i : Nat, ∀ c, cols[i]? = some c →
        String.ofList c = "_xmin" ∨ String.ofList c = "_xmax" → cells[i]? = some ['0'] := by
  have hzero : ∀ i : Nat, (cells.map String.ofList)[i]? = some "0" ↔ cells[i]? = some ['0'] := by
    intro i
    rw [List.getElem?_map]
    exact (Option.map_injective ofList_injective).eq_iff (b := some ['0'])
  have hsame : ∀ i j : Nat, (cells.map String.ofList)[i]? = (cells.map String.ofList)[j]? ↔
      cells[i]? = cells[j]? := by
    intro i j
    rw [List.getElem?_map, List.getElem?_map]
    exact (Option.map_injective ofList_injective).eq_iff
  rw [cellsOf_readRow_iff (by simpa using hlen)]
  simp only [hzero, hsame]
  simp only [List.getElem?_map, Option.map_eq_some_iff]
  refine and_congr ⟨fun h i j c hi hj => ?_, fun h i j c hi hj => ?_⟩
    ⟨fun h i c hi hc => ?_, fun h i c hi hc => ?_⟩
  · exact h i j _ ⟨c, hi, rfl⟩ ⟨c, hj, rfl⟩
  · obtain ⟨c₁, hi, rfl⟩ := hi
    obtain ⟨c₂, hj, heq⟩ := hj
    rw [ofList_injective heq] at hj
    exact h i j c₁ hi hj
  · exact h i _ ⟨c, hi, rfl⟩ hc
  · obtain ⟨c, hi, rfl⟩ := hi
    exact h i c hi hc

theorem readsBack_iff (a : ResultText.Answer) : ReadsBack a ↔
    (parseTableOutput a.text).cols = a.columns.map String.ofList ∧
      (parseTableOutput a.text).rows.map (cellsOf (parseTableOutput a.text).cols) =
        a.rows.map fun r => r.map String.ofList := by
  by_cases hrows : a.rows = []
  · have hread := a.readTable_text
    rw [if_pos hrows] at hread
    simp only [parseTableOutput, hread, List.map_nil, hrows]
    constructor
    · intro h
      rw [h.rows hrows]
      exact ⟨rfl, trivial⟩
    · intro h
      refine ⟨fun _ => List.map_eq_nil_iff.mp h.1.symm, fun r hr => ?_, fun r hr => ?_⟩
      · rw [hrows] at hr
        exact nomatch hr
      · rw [hrows] at hr
        exact nomatch hr
  · have hread := a.readTable_text
    rw [if_neg hrows] at hread
    simp only [parseTableOutput, hread, List.map_map, List.map_inj_left, Function.comp_apply,
      true_and]
    constructor
    · exact fun h r hr => (cellsOf_readRow_map_iff (a.wide r hr)).mpr
        ⟨h.repeated r hr, h.hidden r hr⟩
    · intro h
      exact ⟨fun hnil => absurd hnil hrows,
        fun r hr => ((cellsOf_readRow_map_iff (a.wide r hr)).mp (h r hr)).1,
        fun r hr => ((cellsOf_readRow_map_iff (a.wide r hr)).mp (h r hr)).2⟩

/-! ### The rounds of a recursive body -/

/-- A row of the term under the base's columns is the row that would be read with these cells. -/
theorem mapRow_eq_readRow (cols recCols : List String) (recRow : Row) :
    mapRow cols recCols recRow = readRow cols ((List.range cols.length).map fun i =>
      ((recCols[i]?).bind recRow.find).getD "") := by
  have hfold : ∀ row : Row, cols.zipIdx.foldl (fun (mapped : Row) c =>
        mapped.set c.1 (((recCols[c.2]?).bind recRow.find).getD "")) row =
      cols.zipIdx.foldl (fun (row : Row) c =>
        row.set c.1 ((((List.range cols.length).map fun i =>
          ((recCols[i]?).bind recRow.find).getD "")[c.2]?).getD "")) row := by
    intro row
    refine List.foldl_ext _ _ _ fun row c hc => ?_
    have hlt : c.2 < cols.length := List.snd_lt_of_mem_zipIdx hc
    rw [List.getElem?_map, List.getElem?_range hlt]
    rfl
  rw [mapRow, readRow, hfold]

theorem isSome_find_readRow {cols cells : List String} {c : String} (hc : c ∈ cols) :
    ((readRow cols cells).find c).isSome := by
  have hset : ∀ (l : List (String × Nat)) (row : Row),
      ((row.find c).isSome ∨ ∃ b ∈ l, b.1 = c) →
        ((l.foldl (fun (row : Row) b => row.set b.1 ((cells[b.2]?).getD "")) row).find c).isSome =
          true := by
    intro l
    induction l with
    | nil => exact fun row h => by simpa using h
    | cons b l ih =>
      intro row h
      rw [List.foldl_cons]
      refine ih _ ?_
      by_cases hb : b.1 = c
      · refine .inl ?_
        rw [hb, Row.find_set]
        rfl
      · rw [Row.find_set_of_ne _ _ (Ne.symm hb)]
        refine h.imp_right ?_
        rintro ⟨b', hb', hname⟩
        rcases List.mem_cons.mp hb' with rfl | htail
        · exact absurd hname hb
        · exact ⟨b', htail, hname⟩
  by_cases hhidden : c = "_xmin" ∨ c = "_xmax"
  · rw [readRow_hidden cols cells hhidden]
    rfl
  · push Not at hhidden
    rw [readRow, Row.find_set_of_ne _ _ hhidden.2, Row.find_set_of_ne _ _ hhidden.1]
    refine hset _ _ (.inr ?_)
    obtain ⟨i, hi⟩ := List.mem_iff_getElem?.mp hc
    exact ⟨(c, i), List.mem_zipIdx_iff_getElem?.mpr hi, rfl⟩

theorem columnKeys_eq_cellKeys {coll : Collation} {cols : List String} {row : Row}
    (h : ∀ c ∈ cols, (row.find c).isSome) :
    columnKeys coll cols row = cellKeys coll (cellsOf cols row) := by
  rw [columnKeys, cellKeys, cellsOf, List.map_map]
  refine List.map_congr_left fun c hc => ?_
  obtain ⟨text, htext⟩ := Option.isSome_iff_exists.mp (h c hc)
  rw [cellKey, Function.comp_apply, htext]
  rfl

section

variable {κ τ : Type} {e : Queries κ τ} {db : Database τ} {name : String} {left right : κ}
  {a : ResultText.Answer}

/-- What the rounds hold are rows of the body. -/
theorem RoundsSound.views (h : RoundsSound e db name left right a) {base : TableOutput}
    (hcols : base.cols = a.columns.map String.ofList)
    (hrows : base.rows.map (cellsOf base.cols) = answerCells a) :
    RecursiveCte.Views e.coll (recursiveCte e db name left right base) base.cols
      (fun row => ∀ c ∈ base.cols, (row.find c).isSome) (cellsOf base.cols)
      (cellKeys e.coll) (termRows e db name left right a) (answerCells a) where
  keys _ := columnKeys_eq_cellKeys
  terms contents _ hderived := by
    have hcontents : recursiveContents e db left base contents =
        bodyContents e db left a (contents.map (cellsOf base.cols)) := by
      rw [recursiveContents, hrows, hcols]
      rfl
    have hrun : (recursiveCte e db name left right base).term contents =
        answered e (db.put name (bodyContents e db left a
          (contents.map (cellsOf base.cols)))) right := by
      rw [← hcontents]
      rfl
    rw [RecursiveCte.mappedTerm, hrun, answered, termRows]
    cases hanswer : e.run (db.put name (bodyContents e db left a
        (contents.map (cellsOf base.cols)))) right with
    | error err => rfl
    | ok b =>
      refine congrArg Except.ok ?_
      rw [List.map_map]
      rcases h.term _ b hderived hanswer with hnone | hback
      · have hread := b.readTable_text
        rw [if_pos hnone] at hread
        simp only [parseTableOutput, hread, List.map_nil, answerCells, hnone]
      · obtain ⟨hbcols, hbrows⟩ := (readsBack_iff b).mp hback
        have hcells : answerCells b = _ := hbrows.symm
        simp only [hcells, List.map_map]
        refine List.map_congr_left fun row _ => ?_
        have hlen : base.cols.length = a.columns.length := by rw [hcols, List.length_map]
        have hplain : ∀ c ∈ base.cols, ¬ (c = "_xmin" ∨ c = "_xmax") := by
          rw [hcols]
          intro c hc
          obtain ⟨c', hc', rfl⟩ := List.mem_map.mp hc
          exact not_or.mpr (h.visible c' hc')
        have hnodup : base.cols.Nodup := hcols ▸ h.apart.map ofList_injective
        rw [Function.comp_apply, Function.comp_apply, mapRow_eq_readRow,
          (cellsOf_readRow_iff (by simp)).mpr, hlen]
        · refine List.map_congr_left fun i _ => ?_
          rw [cellsOf, List.getElem?_map]
          cases (parseTableOutput b.text).cols[i]? <;> rfl
        · refine ⟨fun i j c hi hj => ?_, fun i c hi hc => ?_⟩
          · have hlt := (List.getElem?_eq_some_iff.mp hi).1
            rw [(List.getElem?_inj hlt hnodup).mp (hi.trans hj.symm)]
          · exact (hplain c (List.mem_of_getElem? hi) hc).elim
  answers contents rows hanswer row hrow := by
    rw [RecursiveCte.mappedTerm] at hanswer
    cases hterm : (recursiveCte e db name left right base).term contents with
    | error err =>
      rw [hterm] at hanswer
      cases hanswer
    | ok out =>
      rw [hterm] at hanswer
      obtain rfl := Except.ok.inj hanswer
      obtain ⟨recRow, -, rfl⟩ := List.mem_map.mp hrow
      rw [mapRow_eq_readRow]
      exact fun c => isSome_find_readRow

/-- The table that sound rounds leave holds the rows of the body. -/
theorem RoundsSound.bodyTable (h : RoundsSound e db name left right a)
    (hrun : e.run db left = .ok a) {table : Table τ}
    (htable : recursiveTable e db name left right = .ok table) :
    table = bodyContents e db left a table.rows ∧ (table.rows.map (cellKeys e.coll)).Nodup ∧
      ∀ k, k ∈ keysOf (cellKeys e.coll) table.rows ↔ BodyRow e db name left right a k := by
  obtain ⟨hcols, hrows⟩ := (readsBack_iff a).mp h.base
  obtain ⟨base, hbase⟩ : ∃ base, base = parseTableOutput a.text := ⟨_, rfl⟩
  rw [← hbase] at hcols hrows
  change base.rows.map (cellsOf base.cols) = answerCells a at hrows
  have hleft : answered e db left = .ok base := by
    rw [answered, hrun, hbase]
    rfl
  have v := h.views hcols hrows
  cases hloop : (recursiveCte e db name left right base).loop e.coll base.cols
      (semiNaiveOk name (e.select right)) 1000 (RecursiveCte.startLoop e.coll base) with
  | error err =>
    simp only [recursiveTable, hleft, Except.bind, hloop] at htable
    cases htable
  | ok rows =>
    simp only [recursiveTable, hleft, Except.bind, hloop] at htable
    obtain rfl := Except.ok.inj htable
    have hgood : ∀ row ∈ base.rows, ∀ c ∈ base.cols, (row.find c).isSome := by
      rw [hbase]
      intro row hrow c hc
      obtain ⟨cells, -, rfl⟩ := List.mem_map.mp hrow
      exact isSome_find_readRow hc
    have hkeys : keysOf (cellKeys e.coll) (base.rows.map (cellsOf base.cols)) =
        keysOf (cellKeys e.coll) (answerCells a) := by rw [hrows]
    have hstart : RecursiveCte.InStage e.coll base.cols (semiNaiveOk name (e.select right))
        (fun row => ∀ c ∈ base.cols, (row.find c).isSome) (cellsOf base.cols)
        (cellKeys e.coll) (termRows e db name left right a) (answerCells a) 0
        (RecursiveCte.startLoop e.coll base) := by
      cases semiNaiveOk name (e.select right) <;> exact ⟨hgood, hgood, rfl, hkeys, hkeys⟩
    obtain ⟨-, hderived, honce⟩ :=
      RecursiveCte.loop_spec v h.gains h.stages.told h.stages.suffice hstart hloop
    have hbaseOnce : ((base.rows.map (cellsOf base.cols)).map (cellKeys e.coll)).Nodup := by
      rw [hrows]
      exact h.stages.once
    refine ⟨?_, honce h.stages.newOnce ?_, hderived⟩
    · rw [recursiveContents, hrows, hcols]
      rfl
    · cases semiNaiveOk name (e.select right) <;> exact ⟨hbaseOnce, hbaseOnce⟩

end

/-! ### The list of CTEs -/

section

variable {κ τ : Type} {e : Queries κ τ} {recursive : Bool} {db : Database τ}

theorem plainTable_of_run {body : κ} {a : ResultText.Answer} (h : e.run db body = .ok a) :
    ∃ t, plainTable e db body = .ok t ∧ (t = exactTable e db body a ↔ ReadsBack a) := by
  refine ⟨_, by rw [plainTable, answered, h]; rfl, ?_⟩
  rw [readsBack_iff, exactTable, Table.mk.injEq]
  constructor
  · exact fun h => ⟨h.1, h.2.2⟩
  · intro h
    refine ⟨h.1, ?_, h.2⟩
    rw [h.2, h.1]

theorem Database.put_tables_self (name : String) (t : Table τ) :
    (db.put name t).tables name = some t :=
  Function.update_self ..

variable {n : String}

theorem Database.put_tables_of_ne {name : String} (t : Table τ) (h : n ≠ name) :
    (db.put name t).tables n = db.tables n :=
  Function.update_of_ne h ..

variable {ctes : List (String × κ)} {db' : Database τ}

theorem mainDatabase_tables (h : mainDatabase e recursive db ctes = .ok db')
    (hn : n ∉ ctes.map Prod.fst) : db'.tables n = db.tables n := by
  induction ctes generalizing db with
  | nil => rw [← Except.ok.inj h]
  | cons cte ctes ih =>
    obtain ⟨name, body⟩ := cte
    rw [List.map_cons, List.mem_cons, not_or] at hn
    rw [mainDatabase] at h
    split_ifs at h
    split at h
    · rename_i left right _
      cases ht : recursiveTable e db name left right with
      | error err => rw [ht] at h; exact nomatch h
      | ok t =>
        rw [ht] at h
        rw [← Except.ok.inj h, Database.put_tables_of_ne t hn.1]
    · cases ht : plainTable e db body with
      | error err => rw [ht] at h; exact nomatch h
      | ok t =>
        rw [ht] at h
        rw [ih h hn.2, Database.put_tables_of_ne t hn.1]

theorem bindings_tables (h : Bindings e recursive db' ctes db) (hn : n ∉ ctes.map Prod.fst) :
    db'.tables n = db.tables n := by
  induction ctes generalizing db with
  | nil => rw [← show db = db' from h]
  | cons cte ctes ih =>
    rw [List.map_cons, List.mem_cons, not_or] at hn
    obtain ⟨table, -, hrest⟩ := h
    rw [ih hrest hn.2, Database.put_tables_of_ne table hn.1]

theorem bindings_isSome {name : String} {body : κ} (hname : name ∉ ctes.map Prod.fst)
    (h : Bindings e recursive db' ((name, body) :: ctes) db) : (db'.tables name).isSome := by
  obtain ⟨table, -, hrest⟩ := h
  rw [bindings_tables hrest hname, Database.put_tables_self]
  rfl

theorem taken_put {name : String} (t : Table τ) (h : n ≠ name) :
    (db.put name t).taken n = db.taken n := by
  rw [Database.taken, Database.taken, Database.put_tables_of_ne t h]
  rfl

theorem taken_rest {name : String} (hname : name ∉ ctes.map Prod.fst)
    (hfresh : ∀ n ∈ ctes.map Prod.fst, db.taken n = false) (t : Table τ) :
    ∀ n ∈ ctes.map Prod.fst, (db.put name t).taken n = false := by
  intro n hn
  have hne : n ≠ name := by
    rintro rfl
    exact hname hn
  rw [taken_put t hne]
  exact hfresh n hn

/-- Where the rounds are sound, the main query runs over the database of the bindings. -/
theorem mainDatabase_bindings (hnd : (ctes.map Prod.fst).Nodup)
    (hfresh : ∀ n ∈ ctes.map Prod.fst, db.taken n = false)
    (hparts : PartsAnswer e recursive ctes db) (hbind : Bindable e recursive db ctes)
    (hsound : RecursionSound e recursive ctes db) :
    ∃ specDb, mainDatabase e recursive db ctes = .ok specDb ∧
      Bindings e recursive specDb ctes db := by
  induction ctes generalizing db with
  | nil => exact ⟨db, rfl, rfl⟩
  | cons cte ctes ih =>
    obtain ⟨name, body⟩ := cte
    rw [List.map_cons, List.nodup_cons] at hnd
    have hname : db.taken name = false := hfresh name List.mem_cons_self
    have hrest := taken_rest hnd.1 fun n hn => hfresh n (.tail _ hn)
    rw [mainDatabase, if_neg (by simp [hname])]
    rw [PartsAnswer] at hparts
    rw [Bindable] at hbind
    rw [RecursionSound] at hsound
    simp only [Bindings, BodyTable]
    cases hrec : recursiveParts e recursive body with
    | some parts =>
      obtain ⟨left, right⟩ := parts
      simp only [hrec] at hparts hbind hsound ⊢
      obtain ⟨table, htable⟩ := hparts
      have hleft : ∃ a, e.run db left = .ok a := by
        cases hrun : e.run db left with
        | error err =>
          rw [recursiveTable, answered, hrun] at htable
          cases htable
        | ok a => exact ⟨a, rfl⟩
      obtain ⟨a, ha⟩ := hleft
      refine ⟨db.put name table, by rw [htable]; rfl, table, ⟨a, ha, ?_⟩, ?_⟩
      · exact (hsound a ha).bodyTable ha htable
      · rw [hbind]
        rfl
    | none =>
      simp only [hrec] at hparts hbind hsound ⊢
      obtain ⟨a, ha, hparts⟩ := hparts
      obtain ⟨hreads, hbind⟩ := hbind a ha
      obtain ⟨t, ht, hback⟩ := plainTable_of_run ha
      obtain ⟨specDb, hmain, hspec⟩ := ih hnd.2 (hrest _) hparts hbind (hsound a ha)
      refine ⟨specDb, ?_, exactTable e db body a, ⟨a, ha, rfl⟩, hspec⟩
      rw [ht, hback.mpr hreads]
      exact hmain

/-- Where it does, no CTE follows a recursive one and the answers of the plain bodies read back. -/
theorem bindable_of_mainDatabase {specDb : Database τ} (hnd : (ctes.map Prod.fst).Nodup)
    (hfresh : ∀ n ∈ ctes.map Prod.fst, db.taken n = false)
    (hmain : mainDatabase e recursive db ctes = .ok specDb)
    (hspec : Bindings e recursive specDb ctes db) : Bindable e recursive db ctes := by
  induction ctes generalizing db with
  | nil => trivial
  | cons cte ctes ih =>
    obtain ⟨name, body⟩ := cte
    rw [List.map_cons, List.nodup_cons] at hnd
    have hname : db.taken name = false := hfresh name List.mem_cons_self
    have hrest := taken_rest hnd.1 fun n hn => hfresh n (.tail _ hn)
    rw [mainDatabase, if_neg (by simp [hname])] at hmain
    simp only [Bindings, BodyTable] at hspec
    obtain ⟨table, htable, hspec⟩ := hspec
    rw [Bindable]
    cases hrec : recursiveParts e recursive body with
    | some parts =>
      obtain ⟨left, right⟩ := parts
      simp only [hrec] at hmain ⊢
      cases ht : recursiveTable e db name left right with
      | error err =>
        rw [ht] at hmain
        cases hmain
      | ok t =>
        rw [ht] at hmain
        obtain rfl : db.put name t = specDb := Except.ok.inj hmain
        cases ctes with
        | nil => rfl
        | cons cte' ctes =>
          obtain ⟨n', b'⟩ := cte'
          have hsome := bindings_isSome (List.nodup_cons.mp hnd.2).1 hspec
          have hfree := hrest t n' List.mem_cons_self
          rw [Database.taken, hsome] at hfree
          cases hfree
    | none =>
      simp only [hrec] at hmain htable ⊢
      obtain ⟨a, ha, rfl⟩ := htable
      obtain ⟨t, ht, hback⟩ := plainTable_of_run ha
      rw [ht] at hmain
      have hcode := mainDatabase_tables hmain hnd.1
      have hbound := bindings_tables hspec hnd.1
      rw [Database.put_tables_self] at hcode hbound
      have heq : t = exactTable e db body a := Option.some.inj (hcode.symm.trans hbound)
      rw [heq] at hmain
      intro a' ha'
      obtain rfl : a = a' := Except.ok.inj (ha.symm.trans ha')
      exact ⟨hback.mp heq, ih hnd.2 (hrest _) hmain hspec⟩

theorem bind_eq_apply_iff (code : Except String (Database τ)) (specDb : Database τ) :
    (∀ main : Database τ → Except String ResultText.Answer, code.bind main = main specDb) ↔
      code = .ok specDb := by
  classical
  constructor
  · intro h
    have hmain := h fun d => if d = specDb then .ok ⟨[], [], by simp⟩ else .error ""
    rw [if_pos rfl] at hmain
    cases code with
    | error err => exact nomatch hmain
    | ok d =>
      change (if d = specDb then _ else _) = _ at hmain
      by_cases hd : d = specDb
      · rw [hd]
      · rw [if_neg hd] at hmain
        exact nomatch hmain
  · rintro rfl main
    rfl

end

/-- `SELECT 1 AS n`, `SELECT n FROM r WHERE n > 1`, their UNION, and `SELECT * FROM table`. -/
inductive SmallQuery
  | one
  | above
  | union
  | all (table : String)
deriving DecidableEq, Repr

/-- The answer `n = 1`. -/
def oneRow : ResultText.Answer where
  columns := [['n']]
  rows := [[['1']]]
  wide := by decide

def noRow : ResultText.Answer where
  columns := [['n']]
  rows := []
  wide := by decide

/-- What the four answer where every table holds 1. -/
def smallQueries : Queries SmallQuery Unit where
  coll := printableCollation
  run db
    | .one => .ok oneRow
    | .above => .ok noRow
    | .union => .ok oneRow
    | .all table => if (db.tables table).isSome then .ok oneRow
        else .error ("Table '" ++ table ++ "' not found")
  unionOf
    | .union => some (.one, .above)
    | _ => none
  select _ := none
  derivedColumnDefs _ _ _ _ := ()

def noTables : Database Unit where
  tables _ := none
  views := []

/-- `n = 1`, as a table. -/
def oneTable : Table Unit where
  cols := ["n"]
  types := ()
  rows := [["1"]]

theorem recursiveTable_noTables :
    recursiveTable smallQueries noTables "r" .one .above = .ok oneTable :=
  ExceptFold.eq_ok_of_toOption (by decide)

theorem recursiveTable_put (t : Table Unit) (ht : t = oneTable) :
    recursiveTable smallQueries (noTables.put "a" t) "r" .one .above = .ok oneTable := by
  rw [ht]
  exact ExceptFold.eq_ok_of_toOption (by decide)

theorem readsBack_oneRow : ReadsBack oneRow := by
  rw [readsBack_iff]
  decide

/-- The term of the UNION gives no row. -/
theorem not_gives_above (db : Database Unit) (rows : List (List String)) (k : List String) :
    ¬ Gives (cellKeys printableCollation) (termRows smallQueries db "r" .one .above oneRow) rows
      k := by
  rintro ⟨_, hrows, hk⟩
  obtain rfl := Except.ok.inj hrows
  simp [keysOf, answerCells, noRow] at hk

theorem bodyRow_iff (db : Database Unit) (k : List String) :
    BodyRow smallQueries db "r" .one .above oneRow k ↔ k = ["1"] := by
  constructor
  · intro h
    cases h with
    | base hk =>
      obtain ⟨cells, hcells, rfl⟩ := hk
      rw [List.mem_singleton.mp (show cells ∈ [["1"]] from hcells)]
      decide
    | term _ hgives => exact (not_gives_above db _ k hgives).elim
  · rintro rfl
    exact .base ⟨["1"], List.mem_singleton_self _, by decide⟩

theorem roundsSound_above (db : Database Unit) :
    RoundsSound smallQueries db "r" .one .above oneRow where
  base := readsBack_oneRow
  apart := by decide
  visible := by decide
  term _ b _ hb := .inl (by rw [← Except.ok.inj hb]; rfl)
  gains _ _ _ _ _ k hk := (not_gives_above db _ k hk).elim
  stages :=
    { told := fun k hk k' hk' _ =>
      ((bodyRow_iff db k).mp hk).trans ((bodyRow_iff db k').mp hk').symm
      once := by decide
      newOnce := by
        rintro n contents rows - - hrows k - hk
        exact not_gives_above db contents k ⟨rows, hrows, mem_keysOf.mpr hk.mem⟩
      suffice := by
        rintro - n k ⟨contents, -, hk⟩
        exact (not_gives_above db contents k hk).elim }

theorem bodyTable_union (db : Database Unit) :
    BodyTable smallQueries true db "r" .union oneTable := by
  refine ⟨oneRow, rfl, rfl, by decide, fun k => (Iff.trans ?_ (bodyRow_iff db k).symm)⟩
  constructor
  · rintro ⟨cells, hcells, rfl⟩
    rw [List.mem_singleton.mp (show cells ∈ [["1"]] from hcells)]
    decide
  · rintro rfl
    exact ⟨["1"], List.mem_singleton_self _, by decide⟩

end RusqlEngine.With
