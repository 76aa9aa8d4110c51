import RusqlEngine.Insert
import RusqlEngine.Library.LastWins

/-!
# REPLACE of many rows and REPLACE row by row

A REPLACE leaves out the rows that a later one replaces, deletes what any of its rows conflicts with
and inserts the others. It compares the values as written and links a row only to rows that it
keeps; row by row, they are compared as stored and a row is removed by every later one that agrees
with it.
-/

namespace RusqlEngine.InsertEnv

open LastWins

/-- The row that a row of the statement stands for, stamped by the statement. Every row of a
statement that ends Ok has one. -/
def storedRow (env : InsertEnv) (written : Row) : Row :=
  match env.fill false 1 written with
  | .ok row => row.tag env.tagId
  | .error _ => ∅

/-- Two rows agree on the primary key, or on a UNIQUE key without NULLs. -/
def agrees (env : InsertEnv) (row row' : Row) : Bool :=
  env.schema.keySpecs.any fun spec =>
    (rowKey env.coll spec row).isSome && (rowKey env.coll spec row == rowKey env.coll spec row')

def agreeStored (env : InsertEnv) (written later : Row) : Bool :=
  env.agrees (env.storedRow written) (env.storedRow later)

/-- Two rows of the statement share one of the texts that `keys_of` makes of them. -/
def agreeWritten (env : InsertEnv) (written later : Row) : Bool :=
  (env.statedKeys written).any (env.statedKeys later).contains

def deletes (env : InsertEnv) (written row : Row) : Bool :=
  (env.conflictConds written).any fun cond => cond.all fun e => env.whereEq row e.1 e.2

def replaceOne (env : InsertEnv) (live : List Row) (row : Row) : List Row :=
  put env.agrees live row

def replaceEach (env : InsertEnv) (live written : List Row) : List Row :=
  (written.map env.storedRow).foldl env.replaceOne live

/-- The rows give every key column a value, so that none waits for a number: what a row stands for
does not depend on its place. -/
structure GivesKeys (env : InsertEnv) (written : List Row) : Prop where
  stated : ∀ w ∈ written, ∀ spec ∈ env.schema.keySpecs, ∀ col ∈ spec.columns,
    (w.find col).isSome = true
  unnumbered : ∀ w ∈ written, ∀ validateOnly rowNo row,
    env.fill validateOnly rowNo w = .ok row → env.fill false 1 w = .ok row

/-- When REPLACE of many rows is REPLACE row by row: a row that agrees as stored with a later row
agrees as written with a later row that no further one replaces, and the DELETEs select the rows
that agree with a row of the statement. -/
structure ReplacesInTurn (env : InsertEnv) (rows written : List Row) : Prop where
  linked : LinkedThrough env.agreeStored env.agreeWritten written
  selected : ∀ row ∈ liveVersions rows,
    written.any (fun w => env.deletes w row) =
      written.any fun w => env.agrees row (env.storedRow w)

theorem replacePass_eq (env : InsertEnv) (written : List Row) :
    written.foldr (fun row (kept, later) =>
      let keys := env.statedKeys row
      if keys.any later.contains then (kept, later) else (row :: kept, keys ++ later))
      (([], []) : List Row × List String) =
      (greedy env.agreeWritten written,
        (greedy env.agreeWritten written).flatMap env.statedKeys) := by
  induction written with
  | nil => rfl
  | cons w ws ih =>
    have hlater : (env.statedKeys w).any
        ((greedy env.agreeWritten ws).flatMap env.statedKeys).contains =
        (greedy env.agreeWritten ws).any (env.agreeWritten w) := by
      rw [Bool.eq_iff_iff]
      simp only [agreeWritten, List.any_eq_true, List.contains_iff_mem, List.mem_flatMap]
      constructor
      · rintro ⟨key, hkey, row, hrow, hin⟩
        exact ⟨row, hrow, key, hkey, hin⟩
      · rintro ⟨row, hrow, key, hkey, hin⟩
        exact ⟨key, hkey, row, hrow, hin⟩
    rw [List.foldr_cons, ih]
    simp only [hlater, greedy]
    split
    · rfl
    · rw [List.flatMap_cons]

theorem replaceSupersede_eq (env : InsertEnv) (written : List Row) :
    env.replaceSupersede written = greedy env.agreeWritten written := by
  rw [replaceSupersede, replacePass_eq]

theorem replaceEach_eq (env : InsertEnv) (live written : List Row) :
    env.replaceEach live written =
      live.filter (fun row => !written.any fun w => env.agrees row (env.storedRow w)) ++
        (survivors env.agreeStored written).map env.storedRow := by
  have hfold := foldl_put env.agrees (written.map env.storedRow) live
  rw [survivors_map] at hfold
  refine hfold.trans (congrArg₂ _ (List.filter_congr fun row _ => ?_) rfl)
  rw [List.any_map]
  rfl

variable {env : InsertEnv} {rows rows' : List Row}

theorem prepared_insertRow_abort {row : Row} {prep prep' : Prep}
    (h : env.insertRow rows .abort false row prep = .ok prep') :
    prep'.prepared = prep.prepared ++ [row.tag env.tagId] := by
  rw [insertRow] at h
  split at h
  · cases h
  · rename_i hverdict
    cases hhits : env.tableHits rows row <;> rw [hhits] at hverdict <;> cases hverdict
  · rename_i hverdict
    cases hhits : env.tableHits rows row <;> rw [hhits] at hverdict <;> cases hverdict
  · split at h
    · cases h
    · simp only [repeatsEarlierRow] at h
      split at h
      · split at h
        · cases h
        · rw [finishRow_eq_ok h]
      · split at h
        · rw [finishRow_eq_ok h]
        · cases h

theorem prepared_prepareRows_abort {ws : List Row} {rowNo : Nat} {prep prep' : Prep}
    (hnumber : ∀ w ∈ ws, ∀ validateOnly rowNo row, env.fill validateOnly rowNo w = .ok row →
      env.fill false 1 w = .ok row)
    (h : env.prepareRows rows .abort false rowNo ws prep = .ok prep') :
    prep'.prepared = prep.prepared ++ ws.map env.storedRow := by
  induction ws generalizing rowNo prep with
  | nil =>
    rw [prepareRows] at h
    cases h
    simp
  | cons w ws ih =>
    rw [prepareRows] at h
    split at h
    · cases h
    · rename_i row hfill
      split at h
      · cases h
      · rename_i prep₁ hrow
        have hstored : env.storedRow w = row.tag env.tagId := by
          rw [storedRow, hnumber w List.mem_cons_self false rowNo row hfill]
        rw [ih (fun w' hw' => hnumber w' (.tail _ hw')) h,
          prepared_insertRow_abort hrow, List.map_cons, hstored, List.append_assoc,
          List.singleton_append]

theorem isVisible_storedRow (env : InsertEnv) (written : Row) :
    isVisible (env.storedRow written) := by
  rw [storedRow]
  split
  · exact isVisible_tag _ _
  · rfl

theorem liveVersions_execInsert_replace {written : List Row} (hgiven : env.GivesKeys written)
    (hok : env.execInsert rows .replace written = .ok rows') :
    liveVersions rows' =
      (liveVersions rows).filter (fun row => !written.any fun w => env.deletes w row) ++
        (greedy env.agreeWritten written).map env.storedRow := by
  simp only [execInsert] at hok
  split at hok
  · cases hok
  · split at hok
    · cases hok
    · split at hok
      · cases hok
      · rename_i rows₁ hdelete
        simp only [execInsertInner] at hok
        split at hok
        · cases hok
        · rename_i prep hprep
          obtain rfl := Except.ok.inj hok
          have hkept : ∀ w ∈ env.replaceSupersede written, w ∈ written := by
            rw [replaceSupersede_eq]
            exact fun w hw => (greedy_sublist _ _).subset hw
          have hrows := prepared_prepareRows_abort
            (fun w hw => hgiven.unnumbered w (hkept w hw)) hprep
          rw [show ({} : Prep).prepared = [] from rfl, List.nil_append] at hrows
          have hnew : liveVersions prep.prepared = prep.prepared := by
            rw [hrows, liveVersions, List.filter_eq_self]
            intro row hrow
            obtain ⟨w, -, rfl⟩ := List.mem_map.mp hrow
            exact env.isVisible_storedRow w
          rw [liveVersions_append, hnew, hrows, replaceSupersede_eq, liveVersions_deleteAll hdelete]
          refine congrArg (· ++ _) (List.filter_congr fun row _ => ?_)
          rw [List.any_flatMap]
          rfl

theorem agrees_self (hpk : env.schema.primarySpecs ≠ []) (row : Row) : env.agrees row row := by
  obtain ⟨spec, hspec⟩ := List.exists_mem_of_ne_nil _ hpk
  have hskip : spec.skipNull = false := by
    rw [TableSchema.primarySpecs] at hspec
    split at hspec
    · rw [List.mem_singleton.mp hspec]
    · obtain ⟨col, -, rfl⟩ := List.mem_map.mp hspec
      rfl
  refine List.any_eq_true.mpr ⟨spec, mem_keySpecs_iff.mpr (.inl hspec), ?_⟩
  simp [rowKey, hskip]

/-- Two ways to thin out and extend one list give the same rows only where they agree on both parts,
when nothing the other way leaves extends the longer one. -/
theorem filter_append_perm {l new new' : List Row} {gone gone' : Row → Bool}
    (hsub : new'.Sublist new) (hgone : ∀ row ∈ new, gone' row)
    (h : (l.filter (fun row => !gone row) ++ new).Perm (l.filter (fun row => !gone' row) ++ new')) :
    new = new' ∧ ∀ row ∈ l, gone row = gone' row := by
  have hcount : ∀ row, (l.filter fun row => !gone row).count row + new.count row =
      (l.filter fun row => !gone' row).count row + new'.count row := by
    intro row
    rw [← List.count_append, ← List.count_append]
    exact h.count_eq row
  have hzero : ∀ row ∈ new, (l.filter fun row => !gone' row).count row = 0 := by
    intro row hrow
    rw [List.count_eq_zero, List.mem_filter]
    rintro ⟨-, hleft⟩
    rw [hgone row hrow] at hleft
    cases hleft
  have hnew : ∀ row, new.count row = new'.count row := by
    intro row
    have hle := hsub.count_le row
    by_cases hrow : row ∈ new
    · have := hcount row
      rw [hzero row hrow] at this
      omega
    · have := List.count_eq_zero.mpr hrow
      omega
  have hperm : new.Perm new' := List.perm_iff_count.mpr hnew
  refine ⟨(hsub.eq_of_length hperm.length_eq.symm).symm, fun row hrow => ?_⟩
  have hpart : (l.filter fun row => !gone row).count row =
      (l.filter fun row => !gone' row).count row := by
    have := hcount row
    rw [hnew row] at this
    omega
  have hiff : row ∈ l.filter (fun row => !gone row) ↔ row ∈ l.filter fun row => !gone' row := by
    rw [← List.count_pos_iff, ← List.count_pos_iff, hpart]
  simp only [List.mem_filter, hrow, true_and, Bool.not_eq_true'] at hiff
  cases hg : gone row <;> cases hg' : gone' row <;> simp_all

/-- REPLACE of many rows is REPLACE row by row where it replaces in turn, and, unless values that
are equal as written are stored as different ones, nowhere else. -/
theorem execInsert_replace_rowByRow_iff (env : InsertEnv) (rows rows' written : List Row)
    (hpk : env.schema.primarySpecs ≠ []) (hgiven : env.GivesKeys written)
    (hok : env.execInsert rows .replace written = .ok rows') :
    (env.ReplacesInTurn rows written →
      (liveVersions rows').Perm (env.replaceEach (liveVersions rows) written)) ∧
    ((∀ w ∈ written, ∀ later ∈ written,
        env.agreeWritten w later → env.agreeStored w later) →
      (liveVersions rows').Perm (env.replaceEach (liveVersions rows) written) →
      env.ReplacesInTurn rows written) := by
  rw [liveVersions_execInsert_replace hgiven hok, replaceEach_eq]
  refine ⟨fun hturn => List.Perm.of_eq ?_, fun hlink hperm => ?_⟩
  · rw [LastWins.greedy_eq_survivors hturn.linked]
    refine congrArg (· ++ _) (List.filter_congr fun row hrow => ?_)
    rw [hturn.selected row hrow]
  · have hsub := LastWins.survivors_sublist_greedy hlink
    have hgone : ∀ row ∈ (LastWins.greedy env.agreeWritten written).map env.storedRow,
        (written.any fun w => env.agrees row (env.storedRow w)) := by
      intro row hrow
      obtain ⟨w, hw, rfl⟩ := List.mem_map.mp hrow
      exact List.any_eq_true.mpr
        ⟨w, (LastWins.greedy_sublist _ _).subset hw, agrees_self hpk _⟩
    obtain ⟨hrows, hselected⟩ := filter_append_perm (hsub.map env.storedRow) hgone hperm
    have hlen := congrArg List.length hrows
    rw [List.length_map, List.length_map] at hlen
    exact ⟨LastWins.linkedThrough_of_greedy_eq hlink (hsub.eq_of_length hlen.symm).symm,
      hselected⟩

theorem plainEnv_givesKeys {schema : TableSchema} {written : List Row}
    (hstated : ∀ w ∈ written, ∀ spec ∈ schema.keySpecs, ∀ col ∈ spec.columns,
      (w.find col).isSome) : (plainEnv schema).GivesKeys written :=
  ⟨hstated, fun _ _ _ _ _ h => h⟩

/-- Two rows of one address, after a row that has the number of the first. -/
theorem execInsert_replace_rowByRow_users :
    ∃ rows', (plainEnv usersSchema).execInsert
        [(Row.ofCells [("id", "1"), ("mail", "a@x")]).tag 3] .replace
        [Row.ofCells [("id", "1"), ("mail", "b@x")], Row.ofCells [("id", "2"), ("mail", "B@x")]] =
        .ok rows' ∧
      (liveVersions rows').Perm ((plainEnv usersSchema).replaceEach
        (liveVersions [(Row.ofCells [("id", "1"), ("mail", "a@x")]).tag 3])
        [Row.ofCells [("id", "1"), ("mail", "b@x")],
          Row.ofCells [("id", "2"), ("mail", "B@x")]]) := by
  cases hok : (plainEnv usersSchema).execInsert
      [(Row.ofCells [("id", "1"), ("mail", "a@x")]).tag 3] .replace
      [Row.ofCells [("id", "1"), ("mail", "b@x")], Row.ofCells [("id", "2"), ("mail", "B@x")]] with
  | error e =>
    have hsome : ((plainEnv usersSchema).execInsert
        [(Row.ofCells [("id", "1"), ("mail", "a@x")]).tag 3] .replace
        [Row.ofCells [("id", "1"), ("mail", "b@x")],
          Row.ofCells [("id", "2"), ("mail", "B@x")]]).isOk := by decide
    rw [hok] at hsome
    cases hsome
  | ok rows' =>
    refine ⟨rows', rfl, (execInsert_replace_rowByRow_iff (plainEnv usersSchema) _ rows' _
      (by decide) (plainEnv_givesKeys (by decide)) hok).1 ⟨?_, by decide⟩⟩
    exact ⟨by decide, by decide, trivial⟩

/-- The second row replaces the first by its number and is replaced by the third through its
address: it is left out, and the first row stays. -/
theorem execInsert_replace_keeps_replaced_row :
    (plainEnv usersSchema).GivesKeys
      [Row.ofCells [("id", "1"), ("mail", "a")], Row.ofCells [("id", "1"), ("mail", "b")],
        Row.ofCells [("id", "3"), ("mail", "b")]] ∧
    (plainEnv usersSchema).execInsert [] .replace
      [Row.ofCells [("id", "1"), ("mail", "a")], Row.ofCells [("id", "1"), ("mail", "b")],
        Row.ofCells [("id", "3"), ("mail", "b")]] =
      .ok [(Row.ofCells [("id", "1"), ("mail", "a")]).tag 5,
        (Row.ofCells [("id", "3"), ("mail", "b")]).tag 5] ∧
    ¬ (liveVersions [(Row.ofCells [("id", "1"), ("mail", "a")]).tag 5,
        (Row.ofCells [("id", "3"), ("mail", "b")]).tag 5]).Perm
      ((plainEnv usersSchema).replaceEach []
        [Row.ofCells [("id", "1"), ("mail", "a")], Row.ofCells [("id", "1"), ("mail", "b")],
          Row.ofCells [("id", "3"), ("mail", "b")]]) := by
  exact ⟨plainEnv_givesKeys (by decide), ExceptFold.eq_ok_of_toOption (by decide),
    by decide⟩

end RusqlEngine.InsertEnv
