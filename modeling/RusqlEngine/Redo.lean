import RusqlEngine.TxnManager
import RusqlEngine.Schema
import RusqlEngine.Library.CountedReplay

/-!
# Replaying the redo log

`recover_from_redo` on the rows of the table files. Both of its passes count per table, so each
table is replayed by itself; the operations before the last marker of a table are left out.
-/

namespace RusqlEngine

open CountedReplay

/-- `version_identity`: the image without `_xmax`. -/
def versionIdentity (row : Row) : Row :=
  row.erase "_xmax"

theorem find_versionIdentity {row : Row} {col : String} (h : col ≠ "_xmax") :
    (versionIdentity row).find col = row.find col :=
  Finmap.lookup_erase_ne h

theorem versionIdentity_set_xmax (row : Row) (x : String) :
    versionIdentity (row.set "_xmax" x) = versionIdentity row := by
  apply Row.ext_find
  intro col
  by_cases h : col = "_xmax"
  · subst h
    simp [versionIdentity, Row.find]
  · rw [find_versionIdentity h, find_versionIdentity h, Row.find_set_of_ne _ _ h]

/-- The rows of a table as versions. -/
def rowVersions : Versioned Row Row String where
  ident := versionIdentity
  stamp row := row.find "_xmax"
  zero := "0"
  kill x row := row.set "_xmax" x
  ident_kill x row := versionIdentity_set_xmax row x
  stamp_kill x row := Row.find_set row "_xmax" x

@[simp] theorem rowVersions_ident (row : Row) : rowVersions.ident row = versionIdentity row :=
  rfl

@[simp] theorem rowVersions_stamp (row : Row) : rowVersions.stamp row = row.find "_xmax" :=
  rfl

theorem live_rowVersions (row : Row) : live rowVersions row = isVisible row := by
  rw [live, isVisible, rowVersions_stamp]
  cases row.find "_xmax" <;> rfl

/-- The operations that no later marker of their table covers. -/
def keptOps : List RedoOp → List RedoOp
  | [] => []
  | op :: ops =>
    if op.kind = .tableFlushed ∨
        ops.any (fun later => later.kind == .tableFlushed && later.table == op.table) then
      keptOps ops
    else op :: keptOps ops

/-- An operation on the rows of one table. -/
def opFor (name : String) (op : RedoOp) : Option (Op Row String) :=
  if op.table = name then
    match op.kind with
    | .insertVersion => some (.insert op.data)
    | .setXmax => some (.kill op.data op.xmax)
    | .tableFlushed => none
  else none

def opsOf (name : String) (log : List RedoOp) : List (Op Row String) :=
  (keptOps log).filterMap (opFor name)

/-- `recover_from_redo`, for the rows of the table files. -/
def recoverFromRedo (tables : Tables) (log : List RedoOp) : Tables := fun name =>
  (tables name).map fun rows => replay rowVersions rows (opsOf name log)

theorem keptOps_append {ops' : List RedoOp} (h : ∀ op ∈ ops', op.kind ≠ .tableFlushed) :
    ∀ log : List RedoOp, keptOps (log ++ ops') = keptOps log ++ keptOps ops'
  | [] => rfl
  | op :: log => by
      have hnone : (ops'.any fun later => later.kind == .tableFlushed && later.table == op.table) =
          false := by
        rw [List.any_eq_false]
        intro later hlater
        simp [h later hlater]
      rw [List.cons_append, keptOps, keptOps, keptOps_append h log, List.any_append, hnone,
        Bool.or_false]
      split <;> rfl

theorem keptOps_eq_self : ∀ {ops : List RedoOp}, (∀ op ∈ ops, op.kind ≠ .tableFlushed) →
    keptOps ops = ops
  | [], _ => rfl
  | op :: ops, h => by
      have hrest : ∀ op ∈ ops, op.kind ≠ .tableFlushed := fun o ho =>
        h o (.tail _ ho)
      have hnone : (ops.any fun later => later.kind == .tableFlushed && later.table == op.table) =
          false := by
        rw [List.any_eq_false]
        intro later hlater
        simp [hrest later hlater]
      rw [keptOps, hnone, keptOps_eq_self hrest]
      simp [h op List.mem_cons_self]

theorem opsOf_append {ops : List RedoOp} (h : ∀ op ∈ ops, op.kind ≠ .tableFlushed) (name : String)
    (log : List RedoOp) : opsOf name (log ++ ops) =
      opsOf name log ++ ops.filterMap (opFor name) := by
  rw [opsOf, keptOps_append h, keptOps_eq_self h, List.filterMap_append, opsOf]

def flushedMarker (table : String) : RedoOp :=
  ⟨.tableFlushed, table, ∅, ""⟩

theorem opsOf_flushedMarker (name table : String) : ∀ log : List RedoOp,
    opsOf name (log ++ [flushedMarker table]) = if name = table then [] else opsOf name log
  | [] => by simp [opsOf, keptOps, flushedMarker]
  | op :: log => by
      have ih := opsOf_flushedMarker name table log
      rw [opsOf] at ih ⊢
      rw [List.cons_append, keptOps, List.any_append]
      by_cases hop : op.kind = .tableFlushed ∨
          (log.any fun later => later.kind == .tableFlushed && later.table == op.table) = true
      · have hthis : keptOps (op :: log) = keptOps log := by rw [keptOps, if_pos hop]
        rw [if_pos (by rcases hop with hop | hop <;> simp [hop]), ih, opsOf, opsOf, hthis]
      · push Not at hop
        have hthis : keptOps (op :: log) = op :: keptOps log := by
          rw [keptOps, if_neg (by push Not; exact hop)]
        by_cases htable : op.table = table
        · rw [if_pos (by simp [flushedMarker, htable]), ih, opsOf, opsOf, hthis]
          split
          · rfl
          · rename_i hname
            have hother : op.table ≠ name := fun he => hname (he.symm.trans htable)
            rw [List.filterMap_cons, opFor, if_neg hother]
        · rw [if_neg (by simp [flushedMarker, Ne.symm htable, hop.1, hop.2]), List.filterMap_cons,
            ih,
            opsOf, opsOf, hthis, List.filterMap_cons]
          by_cases hname : name = table
          · have hother : op.table ≠ name := fun he => htable (he.trans hname)
            rw [opFor, if_neg hother, if_pos hname]
          · rw [if_neg hname, if_neg hname]

/-- `take_redo_ops`, for one operation. -/
def fillXmax (fallback : String) (op : RedoOp) : RedoOp :=
  if op.kind = .setXmax ∧ op.xmax = "" then { op with xmax := fallback } else op

theorem opFor_fillXmax (fallback name : String) (op : RedoOp) :
    opFor name (fillXmax fallback op) = (opFor name op).map (Op.fill "" fallback) := by
  obtain ⟨kind, table, data, xmax⟩ := op
  by_cases hname : table = name
  · cases kind with
    | setXmax =>
      by_cases hx : xmax = ""
      · simp [opFor, fillXmax, hname, hx, Op.fill]
      · simp [opFor, fillXmax, hname, hx, Op.fill]
    | insertVersion => simp [opFor, fillXmax, hname, Op.fill]
    | tableFlushed => simp [opFor, fillXmax, hname]
  · have htable : (fillXmax fallback ⟨kind, table, data, xmax⟩).table = table := by
      rw [fillXmax]
      split <;> rfl
    rw [opFor, htable, if_neg hname, opFor, if_neg hname, Option.map_none]

/-- The live versions of a table, each by its image without `_xmax`. -/
def liveImages (rows : List Row) : Multiset Row :=
  ((rows.filter isVisible).map versionIdentity : List Row)

theorem count_liveImages (i : Row) (rows : List Row) :
    (liveImages rows).count i = alive rowVersions i rows := by
  rw [liveImages, Multiset.coe_count, alive, List.count, List.countP_map, List.countP_filter]
  apply List.countP_congr
  intro row _
  simp [live_rowVersions]

theorem liveImages_eq_iff {rows rows' : List Row} :
    liveImages rows = liveImages rows' ↔
      ∀ i, alive rowVersions i rows = alive rowVersions i rows' := by
  rw [Multiset.ext]
  simp only [count_liveImages]

end RusqlEngine
