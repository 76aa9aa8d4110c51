import RusqlEngine.Cascade
import RusqlEngine.Library.ExceptFold
import Mathlib.Data.List.GetD

/-!
# The plan of a DELETE, and how the children of a row are found

`plan_cascade_delete` follows the rows of the statement one after the other, in the order it reads
them; their positions are given. The children of a row are the same by a scan and by the index that
a column gets after some scans, so the plan does not depend on how many scans a column has had.
-/

namespace RusqlEngine.CascadeDb

open ExceptFold

/-- The value of a cell as the statement found it. -/
def foundValue (db : CascadeDb) (table : String) (pos : Nat) (column : String) : String :=
  (((db.rowsOf table).getD pos ∅).find column).getD executorNull

def Live (db : CascadeDb) (table : String) (pos : Nat) : Prop :=
  pos < (db.rowsOf table).length ∧ isVisible ((db.rowsOf table).getD pos ∅)

def Same (db : CascadeDb) (a b : String) : Prop :=
  db.coll.key a = db.coll.key b

/-- The cache of foreign-key values, perhaps one behind, calls no value of a live row absent. -/
def AbsentSound (db : CascadeDb) : Prop :=
  ∀ table column value pos, db.absent table column value → value ≠ executorNull →
    db.Live table pos → ¬ db.Same (db.foundValue table pos column) value

/-- The row of the table refers to the value by the foreign key, as the statement found it. -/
def RefersTo (db : CascadeDb) (e : Edge) (pos : Nat) (value : String) : Prop :=
  db.Live e.table pos ∧ db.Same (db.foundValue e.table pos e.column) value

/-- The rows that a statement names, when nothing refers to one of them. -/
def markTargets (db : CascadeDb) (table : String) (targets : List Nat) : CascadeSim :=
  targets.foldl (fun sim pos => db.markGone sim true table pos) CascadeSim.start

/-- `has_children`: some key of a target is not known to be without children. -/
def hasChildren (db : CascadeDb) (table : String) (targets : List Nat) : Bool :=
  targets.any fun pos => (db.edgesOf table).any fun e =>
    (((db.rowsOf table).getD pos ∅).find e.refColumn).any fun value =>
      decide (value ≠ executorNull) && !db.absent e.table e.column value

/-- A target is passed over once it is gone, or when a rewrite of it has taken it out of the
WHERE. -/
def passedOver (sim : CascadeSim) (holds : Row → Bool) (reread : Bool) (table : String)
    (pos : Nat) : Bool :=
  sim.gone table pos || (reread && (sim.rewritten table pos).any fun image => !holds image)

/-- The targets one after the other. -/
def deleteTargets (db : CascadeDb) (table : String) (targets : List Nat) (holds : Row → Bool)
    (reread : Bool) (sim : CascadeSim) : Except String CascadeSim :=
  targets.foldlM (fun sim pos =>
    if passedOver sim holds reread table pos then .ok sim
    else db.deleteRow kCascadeDepthLimit table pos sim) sim

def planCascadeDelete (db : CascadeDb) (table : String) (targets : List Nat) (holds : Row → Bool)
    (reread : Bool) : Except String CascadeSim :=
  if db.edgesOf table = [] then .ok (db.markTargets table targets)
  else if !db.hasChildren table targets then .ok (db.markTargets table targets)
  else db.deleteTargets table targets holds reread CascadeSim.start

/-- The rows that an UPDATE rewrites, one after the other and column by column. -/
def changeTargets (db : CascadeDb) (table : String) (pairs : List (Row × Row))
    (changedCols : List String) (sim : CascadeSim) : Except String CascadeSim :=
  pairs.foldlM (fun sim pair =>
    changedCols.foldlM (fun sim column =>
      if (db.edgesOf table).all (fun e => e.refColumn ≠ column) then .ok sim
      else match pair.1.find column with
        | none => .ok sim
        | some before => db.changeKey kCascadeDepthLimit [] table column before
            ((pair.2.find column).getD executorNull) sim) sim) sim

/-- `it != row.end() ? it->second : kNull`. -/
def cellOrNull (row : Row) (column : String) : String :=
  (row.find column).getD executorNull

/-- Every foreign-key value of the contents that is not NULL has a parent row in them. -/
def FkIntact (db : CascadeDb) (contents : String → List Row) : Prop :=
  ∀ e ∈ db.catalog.edges, ∀ row ∈ contents e.table, cellOrNull row e.column ≠ executorNull →
    ∃ parent ∈ contents e.parent,
      db.Same (cellOrNull parent e.refColumn) (cellOrNull row e.column)

def liveRows (db : CascadeDb) (table : String) : List Row :=
  (db.rowsOf table).filter isVisible

/-- The positions of the live rows that stay. -/
def staying (db : CascadeDb) (sim : CascadeSim) (table : String) : List Nat :=
  (List.range (db.rowsOf table).length).filter fun pos =>
    isVisible ((db.rowsOf table).getD pos ∅) && !sim.gone table pos

def rowsAfterDelete (db : CascadeDb) (sim : CascadeSim) (table : String) : List Row :=
  (db.staying sim table).map (db.imageOf sim table)

/-- What a statement may do to a row: remove it, set a column to NULL, or give a column the value
that a parent has got. -/
inductive Effect
  | goes (table : String) (pos : Nat)
  | loses (table : String) (pos : Nat) (column : String)
  | takes (table : String) (pos : Nat) (column value : String)

/-- A row refers to another by a foreign key, as the statement found them. -/
def ChildOf (db : CascadeDb) (e : Edge) (kid : Nat) (table : String) (pos : Nat) : Prop :=
  db.foundValue table pos e.refColumn ≠ executorNull ∧
    db.RefersTo e kid (db.foundValue table pos e.refColumn)

/-- What the rows of a statement bring about through the foreign keys, as it found the rows. -/
inductive Touched (db : CascadeDb) (start : Effect → Prop) : Effect → Prop
  | start {effect : Effect} : start effect → Touched db start effect
  | removed {table : String} {pos : Nat} {e : Edge} {kid : Nat} :
      Touched db start (.goes table pos) → e ∈ db.edgesOf table → db.ChildOf e kid table pos →
      e.onDelete = .cascade → Touched db start (.goes e.table kid)
  | cleared {table : String} {pos : Nat} {e : Edge} {kid : Nat} :
      Touched db start (.goes table pos) → e ∈ db.edgesOf table → db.ChildOf e kid table pos →
      e.onDelete = .setNull ∨ e.onDelete = .setDefault →
      Touched db start (.loses e.table kid e.column)
  | lost {table : String} {pos : Nat} {e : Edge} {kid : Nat} :
      Touched db start (.loses table pos e.refColumn) → e ∈ db.edgesOf table →
      db.ChildOf e kid table pos → e.onUpdate ≠ .restrict →
      Touched db start (.loses e.table kid e.column)
  | followed {table : String} {pos : Nat} {e : Edge} {kid : Nat} {value : String} :
      Touched db start (.takes table pos e.refColumn value) → e ∈ db.edgesOf table →
      db.ChildOf e kid table pos → e.onUpdate = .cascade →
      Touched db start (.takes e.table kid e.column value)
  | dropped {table : String} {pos : Nat} {e : Edge} {kid : Nat} {value : String} :
      Touched db start (.takes table pos e.refColumn value) → e ∈ db.edgesOf table →
      db.ChildOf e kid table pos → e.onUpdate = .setNull ∨ e.onUpdate = .setDefault →
      Touched db start (.loses e.table kid e.column)

/-- The statement reaches no row by a foreign key whose action writes a default other than
NULL. -/
structure NoDefaults (db : CascadeDb) (start : Effect → Prop) : Prop where
  onDelete : ∀ table pos e kid, db.Touched start (.goes table pos) → e ∈ db.edgesOf table →
    db.ChildOf e kid table pos → e.onDelete = .setDefault → e.defaultValue = executorNull
  onUpdate : ∀ table pos e kid, db.Touched start (.loses table pos e.refColumn) ∨
      (∃ value, db.Touched start (.takes table pos e.refColumn value)) → e ∈ db.edgesOf table →
    db.ChildOf e kid table pos → e.onUpdate = .setDefault → e.defaultValue = executorNull

/-- The statement leaves the cell as it found it. -/
def Fixed (db : CascadeDb) (start : Effect → Prop) (table : String) (pos : Nat)
    (column : String) : Prop :=
  ¬ db.Touched start (.loses table pos column) ∧
    ∀ value, ¬ db.Touched start (.takes table pos column value)

/-- A row of the parent's table has the value, and the statement leaves it there. -/
def Anchored (db : CascadeDb) (start : Effect → Prop) (e : Edge) (value : String) : Prop :=
  ∃ pos, db.Live e.parent pos ∧ db.Same (db.foundValue e.parent pos e.refColumn) value ∧
    db.Fixed start e.parent pos e.refColumn

variable {db : CascadeDb}

theorem Same.symm {a b : String} (h : db.Same a b) : db.Same b a :=
  Eq.symm h

theorem Same.trans {a b c : String} (h : db.Same a b) (h' : db.Same b c) : db.Same a c :=
  Eq.trans h h'

theorem not_same_null {value : String} (h : value ≠ executorNull) : ¬ db.Same executorNull value :=
  fun hsame => h (db.coll.key_null value hsame.symm)

theorem equal_iff_same {a b : String} : db.coll.equal a b ↔ db.Same a b :=
  Collation.equal_iff

variable (sim : CascadeSim)

@[simp] theorem countScan_gone (e : Edge) : (countScan sim e).gone = sim.gone := by
  rw [countScan]
  split <;> rfl

@[simp] theorem countScan_rewritten (e : Edge) : (countScan sim e).rewritten = sim.rewritten := by
  rw [countScan]
  split <;> rfl

theorem valueOf_congr {sim sim' : CascadeSim} (h : sim'.rewritten = sim.rewritten)
    (table : String) (pos : Nat) (column : String) :
    db.valueOf sim' table pos column = db.valueOf sim table pos column := by
  rw [valueOf, valueOf, imageOf, imageOf, h]

variable {e : Edge}

theorem mem_edgesOf {table : String} :
    e ∈ db.edgesOf table ↔ e ∈ db.catalog.edges ∧ e.parent = table := by
  rw [edgesOf, List.mem_filter, decide_eq_true_iff]

theorem mem_staying_iff {sim : CascadeSim} {table : String} {pos : Nat} :
    pos ∈ db.staying sim table ↔ db.Live table pos ∧ sim.gone table pos = false := by
  rw [staying, List.mem_filter, List.mem_range, Bool.and_eq_true, Bool.not_eq_true', Live,
    and_assoc]

theorem exists_parent_of_fkIntact (h : db.FkIntact db.liveRows) (he : e ∈ db.catalog.edges)
    {kid : Nat} (hlive : db.Live e.table kid)
    (hvalue : db.foundValue e.table kid e.column ≠ executorNull) :
    ∃ pos, db.Live e.parent pos ∧
      db.Same (db.foundValue e.parent pos e.refColumn) (db.foundValue e.table kid e.column) := by
  have hmem : (db.rowsOf e.table).getD kid ∅ ∈ db.liveRows e.table := by
    rw [liveRows, List.mem_filter, List.getD_eq_getElem _ _ hlive.1]
    exact ⟨List.getElem_mem hlive.1, List.getD_eq_getElem _ ∅ hlive.1 ▸ hlive.2⟩
  obtain ⟨parent, hparent, hsame⟩ := h e he _ hmem hvalue
  obtain ⟨hparent, hvisible⟩ := List.mem_filter.mp hparent
  obtain ⟨pos, hpos, rfl⟩ := List.getElem_of_mem hparent
  have hget : (db.rowsOf e.parent).getD pos ∅ = (db.rowsOf e.parent)[pos] :=
    List.getD_eq_getElem _ _ hpos
  refine ⟨pos, ⟨hpos, by rw [hget]; exact hvisible⟩, ?_⟩
  rw [foundValue, hget]
  exact hsame

theorem any_same_iff {row : Row} {column value : String} (h : value ≠ executorNull) :
    ((row.find column).any fun text => db.coll.equal text value) ↔
      db.Same ((row.find column).getD executorNull) value := by
  cases hfind : row.find column with
  | none => simpa using not_same_null h
  | some text => simpa using equal_iff_same

theorem mem_scanned_iff {value : String} (h : value ≠ executorNull) {pos : Nat} :
    pos ∈ db.scanned e value ↔ pos < (db.rowsOf e.table).length ∧
      db.Same (db.foundValue e.table pos e.column) value := by
  rw [scanned, List.mem_filter, List.mem_range, any_same_iff h]
  rfl

theorem mem_indexed_iff {value : String} (h : value ≠ executorNull) {pos : Nat} :
    pos ∈ db.indexed e value ↔ db.RefersTo e pos value := by
  rw [indexed, List.mem_filter, List.mem_range, RefersTo, Live, and_assoc]
  refine and_congr_right fun _ => ?_
  simp only [Bool.and_eq_true, foundValue]
  refine and_congr_right fun _ => ?_
  cases ((db.rowsOf e.table).getD pos ∅).find e.column with
  | none => simpa using not_same_null h
  | some text =>
    simp only [Option.any_some, Option.getD_some, Bool.and_eq_true, decide_eq_true_eq, beq_iff_eq]
    exact and_iff_right_of_imp fun hkey hnull => not_same_null h (hnull ▸ hkey)

theorem considers_iff {sim : CascadeSim} {value : String} {pos : Nat} :
    db.considers sim e value pos ↔ sim.gone e.table pos = false ∧
      isVisible ((db.rowsOf e.table).getD pos ∅) ∧
      db.Same (db.valueOf sim e.table pos e.column) value := by
  rw [considers, Bool.and_eq_true, Bool.and_eq_true, Bool.not_eq_true', equal_iff_same, and_assoc]

theorem filter_scanned_eq_filter_indexed {sim : CascadeSim} {value : String}
    (h : value ≠ executorNull) :
    (db.scanned e value).filter (db.considers sim e value) =
      (db.indexed e value).filter (db.considers sim e value) := by
  rw [scanned, indexed, List.filter_filter, List.filter_filter]
  refine List.filter_congr fun pos hpos => ?_
  have hlen := List.mem_range.mp hpos
  have hscan := @mem_scanned_iff db e value h pos
  have hindex := @mem_indexed_iff db e value h pos
  rw [scanned, List.mem_filter, and_iff_right hpos] at hscan
  rw [indexed, List.mem_filter, and_iff_right hpos] at hindex
  rw [Bool.eq_iff_iff, Bool.and_eq_true, Bool.and_eq_true, hscan, hindex, considers_iff, RefersTo,
    Live]
  tauto

theorem childrenOf_fst (e : Edge) (value : String) :
    (db.childrenOf sim e value).1 =
      if value = executorNull ∨ db.absent e.table e.column value = true then []
      else (db.indexed e value).filter (db.considers sim e value) := by
  have hconsiders : db.considers (countScan sim e) e value = db.considers sim e value := by
    funext pos
    rw [considers, considers, countScan_gone, valueOf_congr (countScan_rewritten sim e)]
  rw [childrenOf]
  by_cases hnull : value = executorNull
  · rw [if_pos hnull, if_pos (.inl hnull)]
  by_cases hnone : (db.tables e.table).isNone = true
  · have hrows : db.rowsOf e.table = [] := by
      rw [rowsOf, Option.isNone_iff_eq_none.mp hnone, Option.getD_none]
    rw [if_neg hnull, if_pos hnone]
    simp [indexed, hrows]
  by_cases habsent : db.absent e.table e.column value = true
  · rw [if_neg hnull, if_neg hnone, if_pos habsent, if_pos (.inr habsent)]
  · rw [if_neg hnull, if_neg hnone, if_neg habsent, if_neg (by tauto)]
    simp only [hconsiders]
    split
    · rfl
    · exact filter_scanned_eq_filter_indexed hnull

theorem mem_childrenOf_iff (habsent : db.AbsentSound) {sim : CascadeSim} {value : String}
    (h : value ≠ executorNull) {pos : Nat} :
    pos ∈ (db.childrenOf sim e value).1 ↔ db.RefersTo e pos value ∧
      sim.gone e.table pos = false ∧ db.Same (db.valueOf sim e.table pos e.column) value := by
  rw [childrenOf_fst]
  split
  · rename_i hcase
    have habs := hcase.resolve_left h
    simp only [List.not_mem_nil, false_iff, not_and]
    exact fun href => absurd href.2 (habsent _ _ _ _ habs h href.1)
  · rw [List.mem_filter, mem_indexed_iff h, considers_iff]
    exact and_congr_right fun href => and_congr_right fun _ => and_iff_right href.1.2

@[simp] theorem childrenOf_snd_gone (e : Edge) (value : String) :
    (db.childrenOf sim e value).2.gone = sim.gone := by
  rw [childrenOf]
  split_ifs <;> simp

@[simp] theorem childrenOf_snd_rewritten (e : Edge) (value : String) :
    (db.childrenOf sim e value).2.rewritten = sim.rewritten := by
  rw [childrenOf]
  split_ifs <;> simp

section

def forgetScans (sim : CascadeSim) : CascadeSim :=
  { sim with scans := fun _ _ => 0 }

/-- What the function does with a simulation does not depend on its counts. -/
def IgnoresScans (f : CascadeSim → Except String CascadeSim) : Prop :=
  ∀ sim sim', forgetScans sim = forgetScans sim' →
    (f sim).map forgetScans = (f sim').map forgetScans

variable {sim sim' : CascadeSim}

theorem eq_of_forgetScans (h : forgetScans sim = forgetScans sim') :
    sim' = { sim with scans := sim'.scans } := by
  obtain ⟨gone, rewritten, scans, doomed, deleted⟩ := sim
  obtain ⟨gone', rewritten', scans', doomed', deleted'⟩ := sim'
  simp only [forgetScans, CascadeSim.mk.injEq] at h
  obtain ⟨rfl, rfl, -, rfl, rfl⟩ := h
  rfl

theorem gone_eq_of_forgetScans (h : forgetScans sim = forgetScans sim') : sim'.gone = sim.gone := by
  rw [eq_of_forgetScans h]

theorem rewritten_eq_of_forgetScans (h : forgetScans sim = forgetScans sim') :
    sim'.rewritten = sim.rewritten := by
  rw [eq_of_forgetScans h]

theorem forgetScans_childrenOf (sim : CascadeSim) (e : Edge) (value : String) :
    forgetScans (db.childrenOf sim e value).2 = forgetScans sim := by
  rw [childrenOf]
  split_ifs
  · rfl
  · rfl
  · rfl
  · rw [countScan]
    split <;> rfl

theorem childrenOf_fst_congr (h : forgetScans sim = forgetScans sim') (e : Edge) (value : String) :
    (db.childrenOf sim e value).1 = (db.childrenOf sim' e value).1 := by
  have hconsiders : db.considers sim e value = db.considers sim' e value := by
    funext pos
    rw [considers, considers, gone_eq_of_forgetScans h,
      valueOf_congr (rewritten_eq_of_forgetScans h)]
  rw [childrenOf_fst, childrenOf_fst, hconsiders]

theorem forgetScans_childrenOf_congr (h : forgetScans sim = forgetScans sim') (e : Edge)
    (value : String) :
    forgetScans (db.childrenOf sim e value).2 = forgetScans (db.childrenOf sim' e value).2 := by
  rw [forgetScans_childrenOf, forgetScans_childrenOf, h]

theorem forgetScans_setImage_congr (h : forgetScans sim = forgetScans sim') (table : String)
    (pos : Nat) (column value : String) :
    forgetScans (db.setImage sim table pos column value) =
      forgetScans (db.setImage sim' table pos column value) := by
  rw [eq_of_forgetScans h]
  rfl

theorem forgetScans_markGone_congr (h : forgetScans sim = forgetScans sim') (named : Bool)
    (table : String) (pos : Nat) :
    forgetScans (db.markGone sim named table pos) =
      forgetScans (db.markGone sim' named table pos) := by
  rw [eq_of_forgetScans h]
  rfl

theorem map_bind_congr {x x' : Except String CascadeSim} {f : CascadeSim → Except String CascadeSim}
    (hf : IgnoresScans f) (h : x.map forgetScans = x'.map forgetScans) :
    (x >>= f).map forgetScans = (x' >>= f).map forgetScans := by
  cases x with
  | error e =>
    cases x' with
    | error e' =>
      have he : e = e' := Except.error.inj h
      rw [he]
    | ok t' => simp [Except.map] at h
  | ok t =>
    cases x' with
    | error e' => simp [Except.map] at h
    | ok t' => exact hf t t' (Except.ok.inj h)

theorem rewriteColumn_ignoresScans {follow : Follow}
    (hfollow : ∀ path t c v w, IgnoresScans (follow path t c v w)) (path : List String)
    (table : String) (pos : Nat) (column value : String) :
    IgnoresScans (db.rewriteColumn follow path table pos column value) := by
  intro sim sim' h
  simp only [rewriteColumn, valueOf_congr (rewritten_eq_of_forgetScans h)]
  split
  · exact congrArg Except.ok h
  · refine map_bind_congr (fun t t' ht => ?_) (hfollow _ _ _ _ _ sim sim' h)
    exact congrArg Except.ok (forgetScans_setImage_congr ht ..)

theorem rewriteChildren_ignoresScans {follow : Follow}
    (hfollow : ∀ path t c v w, IgnoresScans (follow path t c v w)) (path : List String)
    (e : Edge) (value : String) (kids : List Nat) :
    IgnoresScans (db.rewriteChildren follow path e value kids) := by
  intro sim sim' h
  refine foldlM_map_congr (fun kid _ t t' ht => ?_) h
  rw [gone_eq_of_forgetScans ht]
  split
  · exact congrArg Except.ok ht
  · split
    · rfl
    · exact rewriteColumn_ignoresScans hfollow path e.table kid e.column value t t' ht

theorem changeKeyBody_ignoresScans {next : Option Follow}
    (hnext : ∀ follow ∈ next, ∀ path t c v w, IgnoresScans (follow path t c v w))
    (path : List String) (table column oldValue newValue : String) :
    IgnoresScans (db.changeKeyBody next path table column oldValue newValue) := by
  intro sim sim' h
  simp only [changeKeyBody]
  split
  · exact congrArg Except.ok h
  · refine foldlM_map_congr (fun e _ t t' ht => ?_) h
    have hkids := @forgetScans_childrenOf_congr db t t' ht e oldValue
    simp only [changeKeyEdge, childrenOf_fst_congr ht e oldValue]
    split
    · exact congrArg Except.ok ht
    · split
      · exact congrArg Except.ok hkids
      · split
        · rfl
        · split
          · rfl
          · rename_i follow
            exact rewriteChildren_ignoresScans (hnext follow rfl) _ _ _ _ _ _ hkids

theorem changeKey_ignoresScans : ∀ (depth : Nat) (path : List String)
    (table column oldValue newValue : String),
    IgnoresScans (db.changeKey depth path table column oldValue newValue)
  | 0 => changeKeyBody_ignoresScans nofun
  | 1 => changeKeyBody_ignoresScans nofun
  | depth + 2 => changeKeyBody_ignoresScans fun follow h => by
      cases h
      exact changeKey_ignoresScans (depth + 1)

theorem deleteRowEdge_ignoresScans
    {next : Option (String → Nat → CascadeSim → Except String CascadeSim)}
    (hnext : ∀ deleteRow ∈ next, ∀ t p, IgnoresScans (deleteRow t p)) (depth : Nat)
    (table : String) (pos : Nat) (e : Edge) :
    IgnoresScans fun sim => db.deleteRowEdge next (db.changeKey depth) table pos sim e := by
  intro sim sim' h
  have hkids := @forgetScans_childrenOf_congr db sim sim' h e
    (db.valueOf sim table pos e.refColumn)
  simp only [deleteRowEdge, valueOf_congr (rewritten_eq_of_forgetScans h),
    valueOf_congr (rewritten_eq_of_forgetScans hkids), childrenOf_fst_congr h e]
  split
  · exact congrArg Except.ok h
  · split
    · split
      · rfl
      · exact congrArg Except.ok hkids
    · split
      · split
        · exact congrArg Except.ok hkids
        · rfl
      · rename_i deleteRow
        refine foldlM_map_congr (fun kid _ t t' ht => ?_) hkids
        rw [gone_eq_of_forgetScans ht]
        split
        · exact congrArg Except.ok ht
        · exact hnext deleteRow rfl _ _ t t' ht
    · exact rewriteChildren_ignoresScans (changeKey_ignoresScans depth) _ _ _ _ _ _ hkids

theorem deleteRow_ignoresScans : ∀ (depth : Nat) (table : String) (pos : Nat),
    IgnoresScans (db.deleteRow depth table pos)
  | 0, table, pos => fun _ _ h => foldlM_map_congr
      (fun e _ => @deleteRowEdge_ignoresScans db none nofun 0 table pos e)
      (forgetScans_markGone_congr h ..)
  | 1, table, pos => fun _ _ h => foldlM_map_congr
      (fun e _ => @deleteRowEdge_ignoresScans db none nofun 0 table pos e)
      (forgetScans_markGone_congr h ..)
  | depth + 2, table, pos => fun _ _ h => foldlM_map_congr
      (fun e _ => deleteRowEdge_ignoresScans (fun deleteRow h => by
        cases h
        exact deleteRow_ignoresScans (depth + 1)) (depth + 1) table pos e)
      (forgetScans_markGone_congr h ..)

theorem deleteTargets_ignoresScans (table : String) (targets : List Nat) (holds : Row → Bool)
    (reread : Bool) : IgnoresScans (db.deleteTargets table targets holds reread) := by
  intro sim sim' h
  refine foldlM_map_congr (fun pos _ t t' ht => ?_) h
  have hpassed : passedOver t' holds reread table pos = passedOver t holds reread table pos := by
    rw [passedOver, passedOver, gone_eq_of_forgetScans ht, rewritten_eq_of_forgetScans ht]
  rw [hpassed]
  split
  · exact congrArg Except.ok ht
  · exact deleteRow_ignoresScans _ _ _ t t' ht

theorem changeTargets_ignoresScans (table : String) (pairs : List (Row × Row))
    (changedCols : List String) : IgnoresScans (db.changeTargets table pairs changedCols) := by
  intro sim sim' h
  refine foldlM_map_congr (fun pair _ t t' ht => ?_) h
  refine foldlM_map_congr (fun column _ u u' hu => ?_) ht
  split
  · exact congrArg Except.ok hu
  · split
    · exact congrArg Except.ok hu
    · exact changeKey_ignoresScans _ _ _ _ _ _ u u' hu

end

end RusqlEngine.CascadeDb
