import RusqlEngine.Schema
import RusqlEngine.Snapshot
import RusqlEngine.Library.LengthPrefix

/-!
# Keys of a table

Two rows have the same key when the texts of its columns are equal in the default
collation. A UNIQUE key with a NULL in it repeats nothing; a primary key has no NULL.
Every stored row has a cell for each column of its table, so what a reader makes of a cell
that is absent does not matter.
-/

namespace RusqlEngine

/-- `EXECUTOR_NULL_VALUE`. -/
def executorNull : String :=
  "NULL"

/-- The default collation, by the key that two texts share exactly when they are equal. The text of
NULL equals itself only. -/
structure Collation where
  key : String → String
  key_null : ∀ text, key text = key executorNull → text = executorNull

def Collation.equal (coll : Collation) (a b : String) : Bool :=
  coll.key a == coll.key b

/-- A key of a table by its columns; in a UNIQUE key a NULL never repeats. -/
structure KeySpec where
  columns : List String
  skipNull : Bool
deriving DecidableEq, Repr

namespace TableSchema

def isCompositePk (schema : TableSchema) : Bool :=
  decide (1 < schema.primaryKeyColumns.length)

def primarySpecs (schema : TableSchema) : List KeySpec :=
  if schema.isCompositePk then [⟨schema.primaryKeyColumns, false⟩]
  else (schema.columns.filter (·.primaryKey)).map fun col => ⟨[col.name], false⟩

def uniqueColumnSpecs (schema : TableSchema) : List KeySpec :=
  (schema.columns.filter (·.unique)).map fun col => ⟨[col.name], true⟩

def uniqueKeySpecs (schema : TableSchema) : List KeySpec :=
  schema.uniqueKeys.map fun key => ⟨key.columns, true⟩

def keySpecs (schema : TableSchema) : List KeySpec :=
  schema.primarySpecs ++ schema.uniqueColumnSpecs ++ schema.uniqueKeySpecs

/-- What `CREATE TABLE` sees to: without a composite primary key there is at most one primary-key
column, and the stamps are no key columns. -/
structure WellFormed (schema : TableSchema) : Prop where
  onePrimary : schema.isCompositePk = false →
    (schema.columns.filter (·.primaryKey)).length ≤ 1
  xminNotKey : ∀ spec ∈ schema.keySpecs, "_xmin" ∉ spec.columns
  xmaxNotKey : ∀ spec ∈ schema.keySpecs, "_xmax" ∉ spec.columns

end TableSchema

/-- `it != row.end() ? it->second : std::string()`. -/
def cell (row : Row) (col : String) : String :=
  (row.find col).getD ""

/-- The key of a row, as the collation keys of its columns. -/
def rowKey (coll : Collation) (spec : KeySpec) (row : Row) : Option (List String) :=
  if spec.skipNull && (spec.columns.map (cell row)).contains executorNull then none
  else some (spec.columns.map fun col => coll.key (cell row col))

/-- `composite_key` and `encode` of the source: the same key as one text. -/
def encodedKey (coll : Collation) (spec : KeySpec) (row : Row) : Option String :=
  (rowKey coll spec row).map LengthPrefix.encode

def liveVersions (rows : List Row) : List Row :=
  rows.filter isVisible

/-- No two live rows agree on a primary key or on a UNIQUE key without NULLs. -/
def KeysUnique (coll : Collation) (schema : TableSchema) (rows : List Row) : Prop :=
  ∀ spec ∈ schema.keySpecs, ((liveVersions rows).filterMap (rowKey coll spec)).Nodup

instance (coll : Collation) (schema : TableSchema) (rows : List Row) :
    Decidable (KeysUnique coll schema rows) :=
  inferInstanceAs (Decidable (∀ spec ∈ schema.keySpecs,
    ((liveVersions rows).filterMap (rowKey coll spec)).Nodup))

theorem toLower_ne_upperN (c : Char) : c.toLower ≠ 'N' := by
  intro h
  delta Char.toLower at h
  split at h
  · rename_i hrange
    have hval := congrArg (fun c : Char => c.val.toNat) h
    have hlow : 'A'.val.toNat ≤ c.val.toNat := UInt32.le_iff_toNat_le.mp hrange.1
    simp only [UInt32.toNat_add] at hval
    have hhigh : c.val.toNat ≤ 'Z'.val.toNat := UInt32.le_iff_toNat_le.mp hrange.2
    have h1 : 'A'.val.toNat = 65 := rfl
    have h2 : 'Z'.val.toNat = 90 := rfl
    have h3 : ('a'.val - 'A'.val).toNat = 32 := rfl
    have h4 : 'N'.val.toNat = 78 := rfl
    rw [h3, h4] at hval
    omega
  · rename_i hrange
    subst h
    exact hrange (by decide)

/-- The collation on plain ASCII texts, whose keys are the texts in lower case. -/
def asciiCollation : Collation where
  key text :=
    if text = executorNull then executorNull else String.ofList (text.toList.map Char.toLower)
  key_null := fun text h => by
    rw [if_pos rfl] at h
    by_contra hne
    rw [if_neg hne] at h
    have hlist := congrArg String.toList h
    rw [String.toList_ofList] at hlist
    cases htext : text.toList with
    | nil =>
      rw [htext] at hlist
      exact absurd hlist (by decide)
    | cons c cs =>
      have hnull : executorNull.toList = ['N', 'U', 'L', 'L'] := by decide
      rw [htext, List.map_cons, hnull, List.cons.injEq] at hlist
      exact toLower_ne_upperN c hlist.1

/-- `users(id PRIMARY KEY, mail UNIQUE)`. -/
def usersSchema : TableSchema :=
  ⟨[⟨"id", true, false⟩, ⟨"mail", false, true⟩], [], []⟩

variable {coll : Collation}

theorem Collation.equal_iff {a b : String} : coll.equal a b ↔ coll.key a = coll.key b :=
  beq_iff_eq

variable {row : Row} {col : String}

theorem cell_set_of_ne {col' : String} (text : String) (h : col' ≠ col) :
    cell (row.set col text) col' = cell row col' := by
  rw [cell, cell, Row.find_set_of_ne _ _ h]

variable {spec : KeySpec}

theorem rowKey_congr {row' : Row} (h : ∀ col ∈ spec.columns, cell row col = cell row' col) :
    rowKey coll spec row = rowKey coll spec row' := by
  have hcells : spec.columns.map (cell row) = spec.columns.map (cell row') :=
    List.map_congr_left h
  have hkeys : (spec.columns.map fun col => coll.key (cell row col)) =
      spec.columns.map fun col => coll.key (cell row' col) :=
    List.map_congr_left fun col hcol => by rw [h col hcol]
  rw [rowKey, rowKey, hcells, hkeys]

theorem rowKey_set_of_not_mem (h : col ∉ spec.columns) (row : Row) (text : String) :
    rowKey coll spec (row.set col text) = rowKey coll spec row :=
  rowKey_congr fun _ hcol => cell_set_of_ne text fun he => h (he ▸ hcol)

theorem rowKey_tag {schema : TableSchema} (hschema : schema.WellFormed)
    (hspec : spec ∈ schema.keySpecs) (row : Row) (id : Nat) :
    rowKey coll spec (row.tag id) = rowKey coll spec row := by
  rw [Row.tag, rowKey_set_of_not_mem (hschema.xmaxNotKey spec hspec),
    rowKey_set_of_not_mem (hschema.xminNotKey spec hspec)]

theorem filterMap_tag {schema : TableSchema} (hschema : schema.WellFormed)
    (hspec : spec ∈ schema.keySpecs) (rows : List Row) (id : Nat) :
    (rows.map fun row => row.tag id).filterMap (rowKey coll spec) =
      rows.filterMap (rowKey coll spec) := by
  rw [List.filterMap_map]
  exact List.filterMap_congr fun row _ => rowKey_tag hschema hspec row id

variable {skipNull : Bool}

theorem rowKey_single :
    rowKey coll ⟨[col], skipNull⟩ row = if skipNull && (cell row col == executorNull) then none
      else some [coll.key (cell row col)] := by
  have hbool : (executorNull == cell row col) = (cell row col == executorNull) :=
    Bool.beq_comm
  simp only [rowKey, List.map_cons, List.map_nil, List.contains_cons, List.contains_nil,
    Bool.or_false, hbool]

theorem rowKey_single_eq_some_iff {key : List String} :
    rowKey coll ⟨[col], skipNull⟩ row = some key ↔
      (skipNull → cell row col ≠ executorNull) ∧ key = [coll.key (cell row col)] := by
  rw [rowKey_single]
  cases skipNull
  · simp [eq_comm]
  · by_cases hnull : cell row col = executorNull
    · rw [if_pos (by rw [hnull]; rfl)]
      exact ⟨nofun, fun h => absurd hnull (h.1 rfl)⟩
    · rw [if_neg (by simpa using hnull), Option.some.injEq]
      exact ⟨fun h => ⟨fun _ => hnull, h.symm⟩, fun h => h.2.symm⟩

theorem rowKey_single_congr {row' : Row} (h : coll.key (cell row col) = coll.key (cell row' col)) :
    rowKey coll ⟨[col], skipNull⟩ row = rowKey coll ⟨[col], skipNull⟩ row' := by
  have hnull : cell row col = executorNull ↔ cell row' col = executorNull := by
    refine ⟨fun he => coll.key_null _ ?_, fun he => coll.key_null _ ?_⟩
    · rw [← h, he]
    · rw [h, he]
  have hbool : (cell row col == executorNull) = (cell row' col == executorNull) := by
    rw [Bool.eq_iff_iff, beq_iff_eq, beq_iff_eq]
    exact hnull
  rw [rowKey_single, rowKey_single, h, hbool]

section

variable {κ : Type} {key : Row → Option κ} {rows : List Row}

theorem nodup_filterMap_of_sublist {rows' : List Row} (h : (rows.filterMap key).Nodup)
    (hsub : rows'.Sublist rows) : (rows'.filterMap key).Nodup :=
  h.sublist (hsub.filterMap key)

theorem nodup_filterMap_iff :
    (rows.filterMap key).Nodup ↔
      rows.Pairwise fun row row' => ∀ k, key row = some k → key row' ≠ some k := by
  rw [List.Nodup, List.pairwise_filterMap]
  refine ⟨fun h => h.imp fun hne k hk hk' => hne k hk k hk' rfl, fun h => h.imp ?_⟩
  intro row row' hne k hk k' hk' he
  exact hne k hk (he ▸ hk')

theorem nodup_filterMap_of_agree {κ' : Type} {key' : Row → Option κ'}
    (h : (rows.filterMap key).Nodup)
    (hagree : ∀ row ∈ rows, ∀ row' ∈ rows, ∀ k, key' row = some k → key' row' = some k →
      ∃ j, key row = some j ∧ key row' = some j) :
    (rows.filterMap key').Nodup := by
  rw [nodup_filterMap_iff] at h ⊢
  refine h.imp_of_mem fun hrow hrow' hne k hk hk' => ?_
  obtain ⟨j, hj, hj'⟩ := hagree _ hrow _ hrow' k hk hk'
  exact hne j hj hj'

theorem nodup_filterMap_append_iff {rows' : List Row} :
    ((rows ++ rows').filterMap key).Nodup ↔ (rows.filterMap key).Nodup ∧
      (rows'.filterMap key).Nodup ∧
      ∀ row ∈ rows, ∀ row' ∈ rows', ∀ k, key row = some k → key row' ≠ some k := by
  rw [List.filterMap_append, List.nodup_append]
  refine and_congr_right fun _ => and_congr_right fun _ => ?_
  constructor
  · intro h row hrow row' hrow' k hk hk'
    exact h k (List.mem_filterMap.mpr ⟨row, hrow, hk⟩) k
      (List.mem_filterMap.mpr ⟨row', hrow', hk'⟩) rfl
  · intro h k hk k' hk' he
    obtain ⟨row, hrow, hkey⟩ := List.mem_filterMap.mp hk
    obtain ⟨row', hrow', hkey'⟩ := List.mem_filterMap.mp hk'
    exact h row hrow row' hrow' k hkey (he ▸ hkey')

theorem nodup_filterMap_concat (h : (rows.filterMap key).Nodup)
    (hnew : ∀ row' ∈ rows, ∀ k, key row' = some k → key row ≠ some k) :
    ((rows ++ [row]).filterMap key).Nodup := by
  rw [nodup_filterMap_append_iff]
  refine ⟨h, ?_, fun row' hrow' r hr k hk => ?_⟩
  · cases hkey : key row with
    | none => simp [hkey]
    | some k => simp [hkey]
  · rw [List.mem_singleton.mp hr]
    exact hnew row' hrow' k hk

end

end RusqlEngine
