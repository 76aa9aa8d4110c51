import RusqlEngine.Multi

/-!
# What a failed MERGE or multi-table statement leaves behind

A statement that is carried out in parts leaves nothing of it when its first part is the refused
one, and that part undoes its own work.
-/

namespace RusqlEngine

open FkUpdate Parts

def PartsUndone (tables : Tables) (out : PartAnswer) : Prop :=
  ∀ e, out.2 = .error e → out.1 = tables

namespace Part

variable (one : OneTable) (tables : Tables)

/-- The statement of the part passes its own checks on the tables. -/
def Accepts : Part → Prop
  | .update table columns values =>
    ∃ writes, (one.update tables table columns values).1.OwnClear writes ∧
      (one.update tables table columns values).1.CascadeClear writes
  | .delete table condition =>
    (tables table).isSome = true ∧
      ((one.delete tables table).1.fastPath (some condition) ∨
        ∃ sim, (one.delete tables table).1.plan (some condition) = .ok sim)
  | .insert table written =>
    (∃ rows, tables table = some rows ∧
      ∃ prep, (one.insert tables table).prepareRows rows .abort false 1 written {} = .ok prep) ∧
      one.unwritable tables (.insert table written) = none
  | .noTable _ => False

/-- The statement, when refused, has changed nothing: an UPDATE is not refused after it has written
its own rows. -/
def Keeps : Part → Prop
  | .update table columns values =>
    ∀ writes, (one.update tables table columns values).1.OwnClear writes →
      (one.update tables table columns values).1.CascadeClear writes
  | _ => True

/-- The part passes: its BEFORE triggers, its own checks on what they leave, its AFTER triggers. -/
def Passes (part : Part) : Prop :=
  ∃ fired, (one.before tables part).2 = .ok fired ∧
    fired.Accepts one (one.before tables part).1 ∧
      (one.fireAfter tables part (one.runInner (one.before tables part).1 fired).1).2 = .ok ()

/-- The BEFORE triggers leave every row as it was, and they or the statement's own checks refuse the
part, which has then written nothing. -/
def Clean (part : Part) : Prop :=
  (one.before tables part).1 = tables ∧
    ∀ fired, (one.before tables part).2 = .ok fired →
      ¬ fired.Accepts one tables ∧ fired.Keeps one tables

/-- The BEFORE triggers have changed a row, or the statement has been carried out. -/
def Started (part : Part) : Prop :=
  (one.before tables part).1 ≠ tables ∨
    ∃ fired, (one.before tables part).2 = .ok fired ∧ fired.Accepts one tables

end Part

section

variable {one : OneTable} {tables : Tables}

theorem mapError_eq_error_iff {ε ε' α : Type} {x : Except ε α} {g : ε → ε'} :
    (∃ e, x.mapError g = .error e) ↔ ∃ e, x = .error e := by
  cases x <;> simp [Except.mapError]

theorem FkUpdate.result_error_iff {u : FkUpdate} :
    (∃ e, u.execUpdateInner.result = .error e) ↔
      ¬ ∃ writes, u.OwnClear writes ∧ u.CascadeClear writes := by
  constructor
  · rintro ⟨e, he⟩ ⟨writes, hown, hcascade⟩
    obtain ⟨plan, hplan⟩ := cascadePhase_eq_ok_iff.mpr hcascade
    simp [execUpdateInner, ownPhase_eq_ok_iff.mpr hown, hplan] at he
  · intro h
    cases hown : u.ownPhase with
    | error e => exact ⟨e, by rw [execUpdateInner, hown]⟩
    | ok writes =>
      cases hcascade : u.cascadePhase writes with
      | error e => exact ⟨e, by simp only [execUpdateInner, hown, hcascade]⟩
      | ok plan =>
        exact (h ⟨writes, ownPhase_eq_ok_iff.mp hown,
          cascadePhase_eq_ok_iff.mp ⟨plan, hcascade⟩⟩).elim

theorem FkUpdate.execUpdateInner_of_keeps {u : FkUpdate}
    (h : ¬ ∃ writes, u.OwnClear writes ∧ u.CascadeClear writes)
    (hkeeps : ∀ writes, u.OwnClear writes → u.CascadeClear writes) :
    u.execUpdateInner.tables = u.db.tables ∧ u.execUpdateInner.txn = u.txn := by
  cases hown : u.ownPhase with
  | error e =>
    rw [execUpdateInner, hown]
    exact ⟨rfl, rfl⟩
  | ok writes =>
    have hclear := ownPhase_eq_ok_iff.mp hown
    exact (h ⟨writes, hclear, hkeeps writes hclear⟩).elim

/-- An UPDATE that its foreign-key actions refuse has written its own rows. -/
theorem FkUpdate.keeps_of_tables_eq {u : FkUpdate}
    (hleft : u.execUpdateInner.tables = u.db.tables) :
    ∀ writes, u.OwnClear writes → u.CascadeClear writes := by
  intro writes hown
  by_contra hcascade
  have hwrites : writes ≠ [] := by
    rintro rfl
    exact hcascade (cascadeClear_nil u)
  cases hphase : u.cascadePhase writes with
  | ok plan => exact hcascade (cascadePhase_eq_ok_iff.mp ⟨plan, hphase⟩)
  | error e =>
    simp only [execUpdateInner, ownPhase_eq_ok_iff.mpr hown, hphase] at hleft
    exact writtenTables_ne hwrites hleft

/-- A DELETE is refused exactly when its table is not there or its foreign-key actions are
refused. -/
theorem DeleteStmt.execDelete_error_iff {d : DeleteStmt} {condition : CondExpr} :
    (∃ e, d.execDelete ⟨some condition, none⟩ = .error e) ↔
      ¬ ((d.db.tables d.table).isSome ∧ (d.fastPath (some condition) ∨
        ∃ sim, d.plan (some condition) = .ok sim)) := by
  simp only [DeleteStmt.execDelete, DeleteStmt.execDeleteInner]
  cases hnone : (d.db.tables d.table).isNone with
  | true => simp [Option.isNone_iff_eq_none.mp hnone]
  | false =>
    have hsome : (d.db.tables d.table).isSome := by simpa using hnone
    simp only [Bool.false_eq_true, if_false, hsome, true_and]
    cases hfast : d.fastPath (some condition) with
    | true => simp
    | false =>
      cases hplan : d.plan (some condition) with
      | error e => simp [bind, Except.bind]
      | ok sim => simp [bind, Except.bind, pure, Except.pure]

theorem runInner_error_iff (part : Part) :
    (∃ e, (one.runInner tables part).2 = .error e) ↔ ¬ part.Accepts one tables := by
  cases part with
  | update table columns values =>
    rw [OneTable.runInner]
    exact mapError_eq_error_iff.trans result_error_iff
  | delete table condition =>
    obtain ⟨⟨d, hdb, htable⟩, hd⟩ : ∃ d, d = one.delete tables table := ⟨_, rfl⟩
    have hiff := @DeleteStmt.execDelete_error_iff d condition
    rw [hdb, htable] at hiff
    rw [OneTable.runInner, Part.Accepts, ← hd]
    cases hdelete : d.execDelete ⟨some condition, none⟩ with
    | error e | ok out => simpa [hdelete] using hiff
  | insert table written =>
    rw [OneTable.runInner, Part.Accepts]
    cases htable : tables table with
    | none => simp
    | some rows =>
      simp only [InsertEnv.execInsert, InsertEnv.execInsertInner]
      cases hprep : (one.insert tables table).prepareRows rows .abort false 1 written {} with
      | error e => simp [hprep]
      | ok prep => cases hwrite : one.unwritable tables (.insert table written) <;> simp [hprep]
  | noTable table =>
    rw [OneTable.runInner, Part.Accepts]
    simp

theorem runInner_left_iff {part : Part} (h : ¬ part.Accepts one tables) :
    (one.runInner tables part).1 = tables ↔ part.Keeps one tables := by
  obtain ⟨e, he⟩ := (runInner_error_iff part).mpr h
  cases part with
  | update table columns values =>
    obtain ⟨⟨u, hdb, htable, hcols, hwhere⟩, hu⟩ :
      ∃ u, u = one.update tables table columns values := ⟨_, rfl⟩
    simp only [OneTable.runInner, Part.Keeps, Part.Accepts, ← hu] at h ⊢
    constructor
    · intro hleft
      exact keeps_of_tables_eq (hleft.trans hdb.symm)
    · intro hkeeps
      exact (execUpdateInner_of_keeps h hkeeps).1.trans hdb
  | delete table condition =>
    refine iff_of_true ?_ trivial
    rw [OneTable.runInner] at he ⊢
    cases hdelete : (one.delete tables table).1.execDelete ⟨some condition, none⟩ with
    | error message => rfl
    | ok out =>
      rw [hdelete] at he
      cases he
  | insert table written =>
    refine iff_of_true ?_ trivial
    rw [OneTable.runInner] at he ⊢
    cases hrows : tables table with
    | none => rfl
    | some rows =>
      rw [hrows] at he
      cases hinsert : (one.insert tables table).execInsert rows .abort written with
      | error refused => simp only [hinsert]
      | ok left =>
        simp only [hinsert] at he ⊢
        cases hwrite : one.unwritable tables (.insert table written) with
        | some e => rfl
        | none =>
          rw [hwrite] at he
          cases he
  | noTable table => exact iff_of_true rfl trivial

theorem refused_runPart_iff (part : Part) :
    Refused (runPart one) tables part ↔ ¬ part.Passes one tables := by
  rw [Refused, runPart, Part.Passes]
  cases hbefore : one.before tables part with
  | mk left fired =>
    cases fired with
    | error e => simp
    | ok fired =>
      have hinner := @runInner_error_iff one left fired
      simp only [Except.ok.injEq, exists_eq_left']
      cases hrun : one.runInner left fired with
      | mk written answer =>
        rw [hrun] at hinner
        cases answer with
        | error e =>
          have hrefused : ¬ fired.Accepts one left := hinner.mp ⟨e, rfl⟩
          simp [hrefused]
        | ok done =>
          have hpasses : fired.Accepts one left := by simpa using hinner
          cases (one.fireAfter tables part written).2 <;> simp [hpasses]

theorem runPart_of_clean {part : Part} (h : part.Clean one tables) :
    (runPart one tables part).1 = tables := by
  obtain ⟨hleft, hrefused⟩ := h
  rw [runPart]
  cases hbefore : one.before tables part with
  | mk left fired =>
    rw [hbefore] at hleft hrefused
    obtain rfl : left = tables := hleft
    cases fired with
    | error e => rfl
    | ok fired =>
      obtain ⟨hno, hkeeps⟩ := hrefused fired rfl
      have hinner := (runInner_left_iff hno).mpr hkeeps
      obtain ⟨e, he⟩ := (runInner_error_iff fired).mpr hno
      cases hrun : one.runInner left fired with
      | mk written answer =>
        rw [hrun] at hinner he
        obtain rfl : answer = .error e := he
        simpa only [hrun] using hinner

theorem clean_or_started {part : Part} (hleft : (runPart one tables part).1 = tables) :
    part.Clean one tables ∨ part.Started one tables := by
  by_cases hbefore : (one.before tables part).1 = tables
  · by_cases hstarted : part.Started one tables
    · exact .inr hstarted
    · refine .inl ⟨hbefore, fun fired hfired => ?_⟩
      have hno : ¬ fired.Accepts one tables := fun h => hstarted (.inr ⟨fired, hfired, h⟩)
      refine ⟨hno, (runInner_left_iff hno).mp ?_⟩
      obtain ⟨e, he⟩ := (runInner_error_iff fired).mpr hno
      have hout : one.before tables part = (tables, .ok fired) := Prod.ext hbefore hfired
      rw [runPart, hout] at hleft
      cases hrun : one.runInner tables fired with
      | mk written answer =>
        rw [hrun] at he
        obtain rfl : answer = .error e := he
        simpa only [hrun] using hleft
  · exact .inr (.inl hbefore)

theorem known_runPart (one : OneTable) :
    Known (fun tables part => part.Passes one tables) (fun _ _ => False)
      (fun tables part => part.Clean one tables) (runPart one) where
  refused_iff := refused_runPart_iff _
  idle_left h := h.elim
  clean_left _ := runPart_of_clean

/-- Every part passes in turn, so that nothing fails, or the first part is the refused one and has
changed nothing. -/
def PartsLeaveNothing (one : OneTable) (tables : Tables) (parts : List Part) : Prop :=
  InTurn (runPart one) (fun tables part => part.Passes one tables) tables parts ∨
    ∃ part ∈ parts.head?, ¬ part.Passes one tables ∧ part.Clean one tables

/-- A part is refused behind another one, or after it has started. -/
abbrev PartRefusedLate (one : OneTable) (tables : Tables) (parts : List Part) : Prop :=
  RefusedLate (fun tables part => part.Passes one tables) (fun _ _ => False)
    (fun tables part => part.Started one tables) (runPart one) tables parts

theorem partsUndone_run {parts : List Part} (h : PartsLeaveNothing one tables parts) :
    PartsUndone tables (run (runPart one) tables (.ok ()) parts) := by
  refine (known_runPart one).undone (h.imp_right ?_)
  rintro ⟨part, hpart, hrefused⟩
  obtain ⟨rest, rfl⟩ := List.head?_eq_some_iff.mp hpart
  exact ⟨[], part, rest, rfl, by simp, hrefused⟩

theorem cases_of_partsUndone {parts : List Part}
    (h : PartsUndone tables (run (runPart one) tables (.ok ()) parts)) :
    PartsLeaveNothing one tables parts ∨ PartRefusedLate one tables parts := by
  rcases (known_runPart one).cases_of_undone (fun left => left = tables)
    (fun tables part => part.Started one tables) (fun _ _ => clean_or_started) h with
    hall | ⟨pre, part, post, rfl, hpre, hrefused⟩ | hlate
  · exact .inl (.inl hall)
  · cases pre with
    | nil => exact .inl (.inr ⟨part, rfl, hrefused⟩)
    | cons b pre => exact (hpre b List.mem_cons_self).elim
  · exact .inr hlate

/-- A table is missing, a row to insert or to delete is refused before any change, or the parts
leave nothing. -/
def MergeStmt.LeavesNothing (m : MergeStmt) (one : OneTable) (tables : Tables) : Prop :=
  tables m.source = none ∨ tables m.target = none ∨ (∃ e, m.refusedFirst one tables = some e) ∨
    PartsLeaveNothing one tables (m.parts tables)

theorem partsUndone_execMerge (m : MergeStmt) :
    (m.LeavesNothing one tables → PartsUndone tables (execMerge one tables m)) ∧
      (PartsUndone tables (execMerge one tables m) →
        m.LeavesNothing one tables ∨ PartRefusedLate one tables (m.parts tables)) := by
  have hread : ∀ e, PartsUndone tables (tables, .error e) := fun _ _ _ => rfl
  rw [MergeStmt.LeavesNothing, execMerge]
  cases hsource : tables m.source with
  | none => simp [hread]
  | some _ =>
    cases htarget : tables m.target with
    | none => simp [hread]
    | some _ =>
      cases hrefused : m.refusedFirst one tables with
      | some e => simp [hread]
      | none =>
        simp only [Option.isNone_some, Bool.false_eq_true, if_false, reduceCtorEq, exists_false,
          false_or]
        exact ⟨partsUndone_run, cases_of_partsUndone⟩

/-- What the join of a multi-table statement says of its parts. -/
theorem partsUndone_of_read {read : Except PartError (List Row)} {parts : List Row → List Part} :
    ((∀ joined, read = .ok joined → PartsLeaveNothing one tables (parts joined)) →
        PartsUndone tables (match read with
          | .error e => (tables, .error e)
          | .ok joined => run (runPart one) tables (.ok ()) (parts joined))) ∧
      (PartsUndone tables (match read with
          | .error e => (tables, .error e)
          | .ok joined => run (runPart one) tables (.ok ()) (parts joined)) →
        (∀ joined, read = .ok joined → PartsLeaveNothing one tables (parts joined)) ∨
          ∃ joined, read = .ok joined ∧ PartRefusedLate one tables (parts joined)) := by
  cases read with
  | error e => exact ⟨fun _ _ _ => rfl, fun _ => .inl fun _ h => by cases h⟩
  | ok joined =>
    simp only [Except.ok.injEq, forall_eq', exists_eq_left']
    exact ⟨partsUndone_run, cases_of_partsUndone⟩

/-- A failed MERGE, multi-table UPDATE or multi-table DELETE leaves nothing when it is refused while
it reads, or its first part is the refused one; without that, only one that is refused behind
another part or after a part has started may be undone. -/
theorem multiTable_allOrNothing (one : OneTable) (tables : Tables) (m : MergeStmt)
    (u : MultiUpdate) (d : MultiDelete) :
    ((m.LeavesNothing one tables → PartsUndone tables (execMerge one tables m)) ∧
      (PartsUndone tables (execMerge one tables m) →
        m.LeavesNothing one tables ∨ PartRefusedLate one tables (m.parts tables))) ∧
    ((u.tables = [] ∨ (∀ joined, u.read tables = .ok joined →
          PartsLeaveNothing one tables (u.parts joined)) →
        PartsUndone tables (execMultiUpdate one tables u)) ∧
      (PartsUndone tables (execMultiUpdate one tables u) →
        (u.tables = [] ∨ ∀ joined, u.read tables = .ok joined →
          PartsLeaveNothing one tables (u.parts joined)) ∨
        ∃ joined, u.read tables = .ok joined ∧
          PartRefusedLate one tables (u.parts joined))) ∧
    (((∀ joined, d.read tables = .ok joined →
          PartsLeaveNothing one tables (d.parts one joined)) →
        PartsUndone tables (execMultiDelete one tables d)) ∧
      (PartsUndone tables (execMultiDelete one tables d) →
        (∀ joined, d.read tables = .ok joined →
          PartsLeaveNothing one tables (d.parts one joined)) ∨
        ∃ joined, d.read tables = .ok joined ∧
          PartRefusedLate one tables (d.parts one joined))) := by
  refine ⟨partsUndone_execMerge m, ?_, partsUndone_of_read⟩
  rw [execMultiUpdate]
  by_cases hnone : u.tables = []
  · simp only [hnone, true_or, if_true, implies_true, and_true, forall_const]
    exact fun _ _ => rfl
  · simp only [hnone, if_false, false_or]
    exact partsUndone_of_read

end

/-- Tables with the one column `id`, their primary key. -/
def idSchema : TableSchema :=
  ⟨[⟨"id", true, false⟩], [], []⟩

/-- `parcels(id)` is referred to by `labels(parcel)`, and refuses to lose a row that is. -/
def shopDb (tables : Tables) : CascadeDb where
  coll := asciiCollation
  catalog := [("labels", [⟨"parcel", [⟨"parcels", "id", .restrict, .restrict⟩], none⟩])]
  tables := tables
  absent := fun _ _ _ => false

/-- A live row of the table that is not written has the key of a new version. -/
def shopDuplicate (rows : List Row) (writes : List (Nat × Row × Row)) : Option String :=
  (writes.find? fun w => (List.range rows.length).any fun pos =>
      decide (pos ∉ writes.map (·.1)) && (rows[pos]?).any fun row =>
        isVisible row && row.find "id" == w.2.2.find "id").map fun w =>
    "Duplicate value '" ++ cell w.2.2 "id" ++ "' for UNIQUE/PRIMARY KEY column 'id'"

/-- A server with nobody else on it, and no triggers. -/
def shop : OneTable where
  update tables table columns values := ⟨{
    db := shopDb tables
    schemas := fun _ => some idSchema
    table := table
    search :=
      { schema := idSchema, rows := [], rowPkPos := none, activeTxnIds := ∅, curTxn := 0, myId := 8
        peekNextId := 9, minRows := 64
        whereTrue := fun row => (values (matchKey (pkCols idSchema) row)).isSome
        hasCondition := false, hasSubquery := false, pkEqValue := none, gathered := none }
    changedCols := columns
    refusedEarly := none
    rewritten := fun row => .ok (columns.foldl (fun new col =>
      new.set col (cell ((values (matchKey (pkCols idSchema) row)).getD ∅) col)) row)
    chainPossible := false
    keyClaims := fun _ _ => []
    uniqueViolation := shopDuplicate ((tables table).getD [])
    order := id
    order_perm := fun plan => List.Perm.refl plan
    claimTxnId := 8
    txn := TxnManager.fresh
    ownRound := ⟨fun _ => .granted, fun _ => .granted⟩
    ownRest := []
    cascadeRound := ⟨fun _ => .granted, fun _ => .granted⟩
    cascadeRest := [] }, rfl, rfl, rfl, rfl⟩
  delete tables table := ⟨{
    db := shopDb tables
    table := table
    schema := idSchema
    typeOf := fun _ => ⟨.number, true⟩
    parsesNumber := fun _ => true
    rowPkPos := none
    rangeKeys := fun _ _ => []
    rangeKeys_nodup := fun _ _ => List.nodup_nil
    gathered := fun _ _ => none
    located := id
    activeTxnIds := ∅
    curTxn := 0
    cascadeId := 8
    myId := 8
    minRows := 64
    leaf3 := fun leaf row => match leaf with
      | .eq column value _ => if row.find column = some value then .true else .false
      | .between _ _ _ _ _ => .unknown
      | .other _ _ => .true
    subquery3 := fun _ _ _ => .unknown }, rfl, rfl⟩
  insert _ _ := InsertEnv.plainEnv idSchema
  unwritable _ _ := none
  fireBefore tables part := (tables, .ok (match part with | .insert _ written => written | _ => []))
  fireAfter _ _ left := (left, .ok ())
  inLeaf := fun _ _ => 0

/-- `MERGE INTO orders USING news ON orders.id = news.id WHEN MATCHED THEN UPDATE SET id = news.to
WHEN NOT MATCHED THEN INSERT VALUES (news.id)`. -/
def moveOrders : MergeStmt where
  target := "orders"
  source := "news"
  schema := idSchema
  keyed := none
  normalizeKey := id
  on := fun tgt src => tgt.find "id" == src.find "id"
  matchedUpdate := some [("id", fun _ src => cell src "to")]
  matchedUpdateCond := fun _ _ => true
  matchedDelete := false
  matchedDeleteCond := fun _ _ => false
  updateFirst := true
  notMatchedColumns := ["id"]
  notMatchedValues := ["id"]

def shopRow (cells : List (String × String)) : Row :=
  (Row.ofCells cells).tag 3

/-- One order, and news of it that moves it to the number of another one. -/
def shopTables : Tables := fun name =>
  if name = "orders" then some [shopRow [("id", "1")]]
  else if name = "news" then
    some [shopRow [("id", "1"), ("to", "2")], shopRow [("id", "2"), ("to", "3")]]
  else if name = "parcels" then some [shopRow [("id", "1")], shopRow [("id", "9")]]
  else if name = "labels" then some [shopRow [("parcel", "1")]]
  else none

/-- `UPDATE orders JOIN parcels ON orders.id = parcels.id SET orders.id = 5, parcels.id = 9`. -/
def moveBoth : MultiUpdate where
  tables := ["orders"]
  joins := [("parcels", "parcels")]
  assignments := [("orders.id", fun _ => "5"), ("parcels.id", fun _ => "9")]
  schemas := fun _ => some idSchema
  read := fun _ => .ok [Row.ofCells [("orders.id", "1"), ("parcels.id", "1")]]

/-- `DELETE orders, parcels FROM orders JOIN parcels ON orders.id = parcels.id`. -/
def dropBoth : MultiDelete where
  deleteTables := ["orders", "parcels"]
  aliases := []
  schemas := fun _ => some idSchema
  read := fun _ => .ok [Row.ofCells [("orders.id", "1"), ("parcels.id", "1")]]

/-- The insert of the MERGE meets the order that its update has moved, the second table of the
UPDATE has the key already, and a parcel of the DELETE has a label: each statement fails with
the orders changed. -/
theorem multiTable_keeps_first_part :
    (∃ e, (execMerge shop shopTables moveOrders).2 = .error e ∧
      (execMerge shop shopTables moveOrders).1 ≠ shopTables) ∧
    (∃ e, (execMultiUpdate shop shopTables moveBoth).2 = .error e ∧
      (execMultiUpdate shop shopTables moveBoth).1 ≠ shopTables) ∧
    (∃ e, (execMultiDelete shop shopTables dropBoth).2 = .error e ∧
      (execMultiDelete shop shopTables dropBoth).1 ≠ shopTables) := by
  have hne : ∀ {left : Tables}, left "orders" ≠ shopTables "orders" → left ≠ shopTables := by
    rintro left h rfl
    exact h rfl
  refine ⟨⟨.key (.duplicateValue "2" "id"), by decide +kernel, ?_⟩,
    ⟨.text "Duplicate value '9' for UNIQUE/PRIMARY KEY column 'id'", by decide +kernel, ?_⟩,
    ⟨.text "Foreign key violation: row in 'parcels' is referenced by 'labels'.'parcel'",
      by decide +kernel, ?_⟩⟩
  · exact hne (by decide +kernel)
  · exact hne (by decide +kernel)
  · exact hne (by decide +kernel)

end RusqlEngine
