import RusqlEngine.Keys

/-!
# The uniqueness check of an UPDATE

`update_unique_violation` compares the new versions of a statement with each other and
with the live rows that the statement does not rewrite. A new value is looked for in the
table only when it changes and no rewritten row holds it. Which index, cache or scan
answers the look-up of one column is a parameter (`holder`).
-/

namespace RusqlEngine

/-- The errors of a repeated key, by what their messages name. -/
inductive KeyError
  | duplicateValue (value column : String)
  | duplicateEntry (shown : String) (key : KeySpec)
  | duplicateCompositePk (values : List String)
  | refused (message : String)
deriving DecidableEq, Repr

def shownKey (spec : KeySpec) (row : Row) : String :=
  String.intercalate "-" (spec.columns.map (cell row))

/-- The first row whose key an earlier row, or the set of keys seen before, has. -/
def firstRepeat {κ : Type} [DecidableEq κ] (key : Row → Option κ) : List κ → List Row → Option Row
  | _, [] => none
  | seen, row :: rows =>
    match key row with
    | none => firstRepeat key seen rows
    | some k => if k ∈ seen then some row else firstRepeat key (k :: seen) rows

section

variable {κ : Type} [DecidableEq κ]

/-- The loop of `first_clash`, with the keys that are held. -/
def firstClashFrom (oldKeys newKeys : List (Option κ)) : List Nat → List κ → Option Nat
  | [], _ => none
  | i :: order, held =>
    let held := held.filter fun k => decide (oldKeys.getD i none ≠ some k)
    match newKeys.getD i none with
    | none => firstClashFrom oldKeys newKeys order held
    | some k => if k ∈ held then some i else firstClashFrom oldKeys newKeys order (k :: held)

/-- `first_clash`: the row that takes a key which another row still holds, when the rows are
rewritten in the given order. -/
def firstClash (oldKeys newKeys : List (Option κ)) (order : List Nat) : Option Nat :=
  firstClashFrom oldKeys newKeys order (oldKeys.filterMap id)

/-- A clash is reported only when there is one in every plausible order. -/
def shiftClash (oldKeys newKeys : List (Option κ)) (orders : List (List Nat)) : Option Nat :=
  if orders.all fun order => (firstClash oldKeys newKeys order).isSome then
    orders.head?.bind (firstClash oldKeys newKeys)
  else none

end

/-- The check of one column: a single-column PRIMARY KEY, or a UNIQUE column. -/
def columnViolation (coll : Collation) (holder : String → Option Row) (orders : List (List Nat))
    (col : String) (isPk : Bool) (olds news : List Row) : Option KeyError :=
  let same := fun p : Row × Row => coll.equal (cell p.1 col) (cell p.2 col)
  let skipped := fun p : Row × Row => !isPk && cell p.2 col == executorNull
  let heldByTargets := olds.map fun old => coll.key (cell old col)
  let held := fun p : Row × Row => heldByTargets.contains (coll.key (cell p.2 col))
  let pairs := olds.zip news
  let key := rowKey coll ⟨[col], !isPk⟩
  if pairs.all same then none
  else match firstRepeat key [] news with
    | some row => some (.duplicateValue (cell row col) col)
    | none =>
      let chained := pairs.any fun p => !same p && !skipped p && held p
      match if chained then shiftClash (olds.map key) (news.map key) orders else none with
      | some i => some (.duplicateValue (cell (news.getD i ∅) col) col)
      | none =>
        let wanted := pairs.filter fun p => !(same p || skipped p || held p)
        (wanted.find? fun p => (holder (cell p.2 col)).isSome).map fun p =>
          .duplicateValue (cell p.2 col) col

/-- The check of a key over several columns; `others` are the live rows that the statement
does not rewrite. -/
def specViolation (coll : Collation) (orders : List (List Nat)) (spec : KeySpec)
    (olds news others : List Row) : Option KeyError :=
  let key := encodedKey coll spec
  let heldByTargets := olds.filterMap key
  let pairs := olds.zip news
  if pairs.all fun p => key p.1 == key p.2 then none
  else match firstRepeat key [] news with
    | some row => some (.duplicateEntry (shownKey spec row) spec)
    | none =>
      let chained := pairs.any fun p =>
        (key p.2).any heldByTargets.contains && key p.1 != key p.2
      match if chained then shiftClash (olds.map key) (news.map key) orders else none with
      | some i => some (.duplicateEntry (shownKey spec (news.getD i ∅)) spec)
      | none =>
        let wanted := (news.filterMap key).filter fun k => !heldByTargets.contains k
        (others.find? fun live => (key live).any wanted.contains).map fun live =>
          .duplicateEntry (shownKey spec live) spec

def updateUniqueViolation (coll : Collation) (holder : String → String → Option Row)
    (schema : TableSchema) (orders : List (List Nat)) (olds news others : List Row) :
    Option KeyError :=
  let pkCount := (schema.columns.filter (·.primaryKey)).length
  let ofColumns := schema.columns.findSome? fun col =>
    if col.primaryKey && pkCount == 1 then
      columnViolation coll (holder col.name) orders col.name true olds news
    else if col.unique && !col.primaryKey then
      columnViolation coll (holder col.name) orders col.name false olds news
    else none
  let specs := (if schema.isCompositePk then [⟨schema.primaryKeyColumns, false⟩] else []) ++
    schema.uniqueKeySpecs
  ofColumns.or (specs.findSome? fun spec => specViolation coll orders spec olds news others)

/-- The look-ups of one column say that nobody holds a value only when no live row does. -/
def LookupComplete (coll : Collation) (holder : List Row → String → String → Option Row) : Prop :=
  ∀ rows col text, holder rows col text = none →
    ∀ row ∈ liveVersions rows, coll.key (cell row col) ≠ coll.key text

/-- The look-up that scans the table. -/
def scanHolder (coll : Collation) (rows : List Row) (col text : String) : Option Row :=
  rows.find? fun row => isVisible row && coll.equal (cell row col) text

theorem scanHolder_complete (coll : Collation) : LookupComplete coll (scanHolder coll) := by
  intro rows col text hnone row hrow he
  rw [liveVersions, List.mem_filter] at hrow
  refine List.find?_eq_none.mp hnone row hrow.1 ?_
  rw [Bool.and_eq_true, Collation.equal_iff]
  exact ⟨hrow.2, he⟩

variable {rows : List Row}

theorem firstRepeat_eq_none_iff {κ : Type} [DecidableEq κ] {key : Row → Option κ} {seen : List κ} :
    firstRepeat key seen rows = none ↔
      (rows.filterMap key).Nodup ∧ ∀ k ∈ rows.filterMap key, k ∉ seen := by
  induction rows generalizing seen with
  | nil => simp [firstRepeat]
  | cons row rows ih =>
    rw [firstRepeat]
    cases hkey : key row with
    | none =>
      rw [List.filterMap_cons_none hkey]
      exact ih
    | some k =>
      rw [List.filterMap_cons_some hkey]
      by_cases hk : k ∈ seen
      · simp [hk]
      · simp only [if_neg hk, ih, List.nodup_cons, List.forall_mem_cons]
        constructor
        · rintro ⟨hnodup, hnot⟩
          exact ⟨⟨fun hin => hnot k hin List.mem_cons_self, hnodup⟩, hk,
            fun k' hk' hin => hnot k' hk' (.tail _ hin)⟩
        · rintro ⟨⟨hnew, hnodup⟩, -, hnot⟩
          refine ⟨hnodup, fun k' hk' hin => ?_⟩
          rcases List.mem_cons.mp hin with rfl | hin
          · exact hnew hk'
          · exact hnot k' hk' hin

section

variable {κ : Type} {key : Row → Option κ} {olds news others : List Row}

theorem filterMap_eq_of_zip (hlen : olds.length = news.length)
    (h : ∀ p ∈ olds.zip news, key p.1 = key p.2) : olds.filterMap key = news.filterMap key := by
  induction olds generalizing news with
  | nil =>
    rw [List.length_eq_zero_iff.mp hlen.symm]
  | cons old olds ih =>
    cases news with
    | nil => cases hlen
    | cons new news =>
      have hhead : key old = key new := h (old, new) List.mem_cons_self
      have htail : olds.filterMap key = news.filterMap key :=
        ih (Nat.succ.inj hlen) fun p hp => h p (.tail _ hp)
      rw [List.filterMap_cons, List.filterMap_cons, hhead, htail]

theorem exists_old_of_mem (hlen : olds.length = news.length) {new : Row} (h : new ∈ news) :
    ∃ old, (old, new) ∈ olds.zip news := by
  induction olds generalizing news with
  | nil =>
    rw [List.length_eq_zero_iff.mp hlen.symm] at h
    exact nomatch h
  | cons old olds ih =>
    cases news with
    | nil => cases hlen
    | cons new' news =>
      rcases List.mem_cons.mp h with rfl | h
      · exact ⟨old, List.mem_cons_self⟩
      · obtain ⟨old', hold'⟩ := ih (Nat.succ.inj hlen) h
        exact ⟨old', List.mem_cons_of_mem _ hold'⟩

theorem nodup_rewritten (hold : ((others ++ olds).filterMap key).Nodup)
    (hnews : (news.filterMap key).Nodup) (hnew : ∀ new ∈ news, ∀ k, key new = some k →
      (∃ old ∈ olds, key old = some k) ∨ ∀ row ∈ others, key row ≠ some k) :
    ((others ++ news).filterMap key).Nodup := by
  obtain ⟨hothers, -, hdisjoint⟩ := nodup_filterMap_append_iff.mp hold
  rw [nodup_filterMap_append_iff]
  refine ⟨hothers, hnews, fun row hrow new hin k hk hk' => ?_⟩
  rcases hnew new hin k hk' with ⟨old, hin', hkey⟩ | hnone
  · exact hdisjoint row hrow old hin' k hk hkey
  · exact hnone row hrow hk

end

variable {coll : Collation} {orders : List (List Nat)}

/-- The form of both checks: nothing changes, a new key is there twice, the rows clash in every
order, and what is left. -/
def keyCheck {κ : Type} [DecidableEq κ] (key : Row → Option κ) (olds news : List Row)
    (orders : List (List Nat)) (same chained : Bool) (twice : Row → KeyError)
      (clash : Nat → KeyError)
    (rest : Option KeyError) : Option KeyError :=
  if same then none
  else match firstRepeat key [] news with
    | some row => some (twice row)
    | none =>
      match if chained then shiftClash (olds.map key) (news.map key) orders else none with
      | some i => some (clash i)
      | none => rest

variable {olds news : List Row}

theorem keyCheck_eq_none_iff {κ : Type} [DecidableEq κ] {key : Row → Option κ} {same chained : Bool}
    {twice : Row → KeyError} {clash : Nat → KeyError} {rest : Option KeyError} :
    keyCheck key olds news orders same chained twice clash rest = none ↔
      same ∨ ((news.filterMap key).Nodup ∧
        (chained → shiftClash (olds.map key) (news.map key) orders = none) ∧ rest = none) := by
  have hrepeat := @firstRepeat_eq_none_iff news κ _ key []
  rw [keyCheck]
  cases same with
  | true => simp
  | false =>
    cases hfirst : firstRepeat key [] news with
    | some row =>
      simpa [hfirst] using fun hnodup => absurd (hrepeat.mpr ⟨hnodup, by simp⟩) (by simp [hfirst])
    | none =>
      rw [and_iff_right (hrepeat.mp hfirst).1]
      cases chained with
      | false => simp
      | true => cases hclash : shiftClash (olds.map key) (news.map key) orders <;> simp

variable {others : List Row}

theorem nodup_of_keyCheck {κ : Type} [DecidableEq κ] {key : Row → Option κ} {same chained : Bool}
    {twice : Row → KeyError} {clash : Nat → KeyError} {rest : Option KeyError}
    (h : keyCheck key olds news orders same chained twice clash rest = none)
    (hlen : olds.length = news.length) (hold : ((others ++ olds).filterMap key).Nodup)
    (hsame : same → ∀ p ∈ olds.zip news, key p.1 = key p.2)
    (hrest : rest = none → ∀ new ∈ news, ∀ k, key new = some k →
      (∃ old ∈ olds, key old = some k) ∨ ∀ row ∈ others, key row ≠ some k) :
    ((others ++ news).filterMap key).Nodup := by
  rcases keyCheck_eq_none_iff.mp h with hall | ⟨hnews, -, hnone⟩
  · rw [List.filterMap_append] at hold ⊢
    rwa [← filterMap_eq_of_zip hlen (hsame hall)]
  · exact nodup_rewritten hold hnews (hrest hnone)

/-- A column that passes its check repeats no key after the rewrite. -/
theorem columnViolation_eq_none {holder : String → Option Row} {col : String} {isPk : Bool}
    (h : columnViolation coll holder orders col isPk olds news = none)
    (hlen : olds.length = news.length) (hcomplete : ∀ text, holder text = none →
      ∀ row ∈ others, coll.key (cell row col) ≠ coll.key text)
    (hold : ((others ++ olds).filterMap (rowKey coll ⟨[col], !isPk⟩)).Nodup) :
    ((others ++ news).filterMap (rowKey coll ⟨[col], !isPk⟩)).Nodup := by
  refine nodup_of_keyCheck h hlen hold (fun hsame p hp => ?_) fun hnone new hnew k hk => ?_
  · exact rowKey_single_congr (Collation.equal_iff.mp (List.all_eq_true.mp hsame p hp))
  rw [Option.map_eq_none_iff, List.find?_eq_none] at hnone
  obtain ⟨old, hpair⟩ := exists_old_of_mem hlen hnew
  have hmem : old ∈ olds := (List.of_mem_zip hpair).1
  by_cases hsame : coll.equal (cell old col) (cell new col) = true
  · refine .inl ⟨old, hmem, ?_⟩
    rw [rowKey_single_congr (Collation.equal_iff.mp hsame), hk]
  by_cases hheld : ∃ old' ∈ olds, coll.key (cell old' col) = coll.key (cell new col)
  · obtain ⟨old', hmem', hkey⟩ := hheld
    refine .inl ⟨old', hmem', ?_⟩
    rw [rowKey_single_congr hkey, hk]
  · refine .inr fun row hrow hrowk => ?_
    obtain ⟨hnull, hkeyn⟩ := rowKey_single_eq_some_iff.mp hk
    obtain ⟨-, hkeyr⟩ := rowKey_single_eq_some_iff.mp hrowk
    have hwanted := hnone (old, new) (List.mem_filter.mpr ⟨hpair, by
      have hskip : (!isPk && cell new col == executorNull) = false := by
        cases isPk
        · simpa using hnull rfl
        · rfl
      have hcontains :
          (olds.map fun old => coll.key (cell old col)).contains (coll.key (cell new col)) =
            false := by
        rw [← Bool.not_eq_true, List.contains_iff_mem, List.mem_map]
        exact hheld
      simp only [hskip, hcontains, Bool.not_eq_true _ ▸ hsame, Bool.or_self, Bool.not_false]⟩)
    rw [Option.not_isSome_iff_eq_none] at hwanted
    refine hcomplete _ hwanted row hrow ?_
    rw [hkeyn, List.cons.injEq] at hkeyr
    exact hkeyr.1.symm

variable {spec : KeySpec}

theorem specViolation_eq_none (h : specViolation coll orders spec olds news others = none)
    (hlen : olds.length = news.length)
    (hold : ((others ++ olds).filterMap (encodedKey coll spec)).Nodup) :
    ((others ++ news).filterMap (encodedKey coll spec)).Nodup := by
  refine nodup_of_keyCheck h hlen hold (fun hsame p hp => beq_iff_eq.mp
    (List.all_eq_true.mp hsame p hp)) fun hnone new hnew k hk => ?_
  rw [Option.map_eq_none_iff, List.find?_eq_none] at hnone
  by_cases hheld : k ∈ olds.filterMap (encodedKey coll spec)
  · exact .inl (List.mem_filterMap.mp hheld)
  · refine .inr fun row hrow hrowk => hnone row hrow ?_
    have hnewk : k ∈ news.filterMap (encodedKey coll spec) :=
      List.mem_filterMap.mpr ⟨new, hnew, hk⟩
    simp only [hrowk, Option.any_some, List.contains_iff_mem, List.mem_filter]
    exact ⟨hnewk, by simpa only [Bool.not_eq_true', ← Bool.not_eq_true,
      List.contains_iff_mem] using hheld⟩

def rowsAt (rows : List Row) (chosen : Nat → Bool) : List Row :=
  (rows.zipIdx.filter fun e => chosen e.2).map Prod.fst

/-- The old versions are ended, the new ones appended. -/
def rewriteVersions (rows : List Row) (chosen : Nat → Bool) (id : Nat) (news : List Row) :
    List Row :=
  (rows.zipIdx.map fun e => if chosen e.2 then e.1.set "_xmax" (stdToString id) else e.1) ++
    news.map fun row => row.tag id

theorem isVisible_stamped {id : Nat} (h : id ≠ 0) (row : Row) :
    isVisible (row.set "_xmax" (stdToString id)) = false := by
  rw [isVisible, Row.find_set]
  simpa [beq_eq_false_iff_ne] using fun he => h (stdToString_eq_zero_iff.mp he)

theorem isVisible_tag (row : Row) (id : Nat) : isVisible (row.tag id) := by
  rw [isVisible, Row.find_tag_xmax]
  rfl

theorem liveVersions_map_tag (rows : List Row) (id : Nat) :
    liveVersions (rows.map fun row => row.tag id) = rows.map fun row => row.tag id := by
  rw [liveVersions, List.filter_eq_self]
  intro row hrow
  obtain ⟨new, -, rfl⟩ := List.mem_map.mp hrow
  exact isVisible_tag new id

theorem liveVersions_append (rows rows' : List Row) :
    liveVersions (rows ++ rows') = liveVersions rows ++ liveVersions rows' :=
  List.filter_append ..

variable {chosen : Nat → Bool}

theorem liveVersions_rewriteVersions {id : Nat} (hid : id ≠ 0) (news : List Row) :
    liveVersions (rewriteVersions rows chosen id news) =
      liveVersions (rowsAt rows fun pos => !chosen pos) ++ news.map fun row => row.tag id := by
  have hold : ∀ entries : List (Row × Nat),
      liveVersions (entries.map fun e =>
        if chosen e.2 then e.1.set "_xmax" (stdToString id) else e.1) =
      liveVersions ((entries.filter fun e => !chosen e.2).map Prod.fst) := by
    intro entries
    induction entries with
    | nil => rfl
    | cons e entries ih =>
      simp only [liveVersions] at ih ⊢
      by_cases hc : chosen e.2 = true
      · simp [hc, isVisible_stamped hid, ih]
      · simp [hc, List.filter_cons, ih]
  rw [rewriteVersions, liveVersions_append, hold, liveVersions_map_tag]
  rfl

theorem liveVersions_perm (hchosen : ∀ row ∈ rowsAt rows chosen, isVisible row) :
    (liveVersions (rowsAt rows fun pos => !chosen pos) ++ rowsAt rows chosen).Perm
      (liveVersions rows) := by
  have hpart := (List.filter_append_perm (fun e : Row × Nat => !chosen e.2) rows.zipIdx).map
    Prod.fst
  simp only [List.map_append, Bool.not_not, List.zipIdx_map_fst] at hpart
  have hlive := hpart.filter isVisible
  rw [List.filter_append] at hlive
  have hself : (rowsAt rows chosen).filter isVisible = rowsAt rows chosen :=
    List.filter_eq_self.mpr hchosen
  simp only [rowsAt] at hself ⊢
  rw [hself] at hlive
  exact hlive

theorem nodup_encodedKey_iff :
    (rows.filterMap (encodedKey coll spec)).Nodup ↔ (rows.filterMap (rowKey coll spec)).Nodup := by
  have hmap : rows.filterMap (encodedKey coll spec) =
      (rows.filterMap (rowKey coll spec)).map LengthPrefix.encode := by
    rw [List.map_filterMap]
    rfl
  rw [hmap]
  exact List.nodup_map_iff LengthPrefix.encode_injective

variable {schema : TableSchema}

theorem mem_keySpecs_iff :
    spec ∈ schema.keySpecs ↔ spec ∈ schema.primarySpecs ∨ spec ∈ schema.uniqueColumnSpecs ∨
      spec ∈ schema.uniqueKeySpecs := by
  simp only [TableSchema.keySpecs, List.mem_append, or_assoc]

/-- The keys that `update_unique_violation` looks at. -/
def TableSchema.checkedColumnSpecs (schema : TableSchema) : List KeySpec :=
  schema.columns.filterMap fun col =>
    if col.primaryKey && (schema.columns.filter (·.primaryKey)).length == 1 then
      some ⟨[col.name], false⟩
    else if col.unique && !col.primaryKey then some ⟨[col.name], true⟩
    else none

def TableSchema.checkedTupleSpecs (schema : TableSchema) : List KeySpec :=
  (if schema.isCompositePk then [⟨schema.primaryKeyColumns, false⟩] else []) ++
    schema.uniqueKeySpecs

def TableSchema.checkedSpecs (schema : TableSchema) : List KeySpec :=
  schema.checkedColumnSpecs ++ schema.checkedTupleSpecs

/-- The UNIQUE columns of a composite primary key, which the check passes over. -/
def TableSchema.uncheckedSpecs (schema : TableSchema) : List KeySpec :=
  if schema.isCompositePk then
    (schema.columns.filter fun col => col.unique && col.primaryKey).map fun col =>
      ⟨[col.name], true⟩
  else []

theorem uncheckedSpecs_subset : schema.uncheckedSpecs ⊆ schema.keySpecs := by
  intro spec hspec
  rw [TableSchema.uncheckedSpecs] at hspec
  split at hspec
  · obtain ⟨col, hcol, rfl⟩ := List.mem_map.mp hspec
    rw [List.mem_filter, Bool.and_eq_true] at hcol
    rw [mem_keySpecs_iff]
    exact .inr (.inl (List.mem_map.mpr ⟨col, List.mem_filter.mpr ⟨hcol.1, hcol.2.1⟩, rfl⟩))
  · exact nomatch hspec

/-- An UPDATE leaves the UNIQUE columns that its check passes over alone. -/
def TableSchema.KeepsUnchecked (schema : TableSchema) (coll : Collation) (old new : Row) : Prop :=
  ∀ spec ∈ schema.uncheckedSpecs, rowKey coll spec old = rowKey coll spec new

theorem nodup_of_checked (hschema : schema.WellFormed)
    (hchecked : ∀ spec ∈ schema.checkedSpecs, spec ∈ schema.keySpecs →
      (rows.filterMap (rowKey coll spec)).Nodup)
    (hunchecked : ∀ spec ∈ schema.uncheckedSpecs, (rows.filterMap (rowKey coll spec)).Nodup) :
    ∀ spec ∈ schema.keySpecs, (rows.filterMap (rowKey coll spec)).Nodup := by
  have hprimary : ∀ col ∈ schema.columns, col.primaryKey → schema.isCompositePk = false →
      (rows.filterMap (rowKey coll ⟨[col.name], false⟩)).Nodup := by
    intro col hcol hpk hsingle
    have hmem : col ∈ schema.columns.filter (·.primaryKey) := List.mem_filter.mpr ⟨hcol, hpk⟩
    refine hchecked _ (List.mem_append_left _ (List.mem_filterMap.mpr ⟨col, hcol, ?_⟩))
      (mem_keySpecs_iff.mpr (.inl ?_))
    · have hpos := List.length_pos_of_mem hmem
      have hle := hschema.onePrimary hsingle
      rw [if_pos]
      rw [Bool.and_eq_true, beq_iff_eq]
      exact ⟨hpk, by omega⟩
    · rw [TableSchema.primarySpecs, hsingle]
      exact List.mem_map.mpr ⟨col, hmem, rfl⟩
  intro spec hspec
  rcases mem_keySpecs_iff.mp hspec with hmem | hmem | hmem
  · rw [TableSchema.primarySpecs] at hmem
    split at hmem
    · rename_i hcomposite
      exact hchecked spec (List.mem_append_right _
        (List.mem_append_left _ (by rwa [if_pos hcomposite]))) hspec
    · rename_i hsingle
      obtain ⟨col, hcol, rfl⟩ := List.mem_map.mp hmem
      rw [List.mem_filter] at hcol
      exact hprimary col hcol.1 hcol.2 (by simpa using hsingle)
  · obtain ⟨col, hcol, rfl⟩ := List.mem_map.mp hmem
    rw [List.mem_filter] at hcol
    cases hpk : col.primaryKey with
    | false =>
      refine hchecked _ (List.mem_append_left _ (List.mem_filterMap.mpr ⟨col, hcol.1, ?_⟩)) hspec
      simp [hpk, hcol.2]
    | true =>
      cases hcomposite : schema.isCompositePk with
      | true =>
        refine hunchecked _ ?_
        rw [TableSchema.uncheckedSpecs, if_pos hcomposite]
        refine List.mem_map.mpr ⟨col, List.mem_filter.mpr ⟨hcol.1, ?_⟩, rfl⟩
        rw [hcol.2, hpk]
        rfl
      | false =>
        refine nodup_filterMap_of_agree (hprimary col hcol.1 hpk hcomposite) ?_
        intro row _ row' _ k hk hk'
        rw [rowKey_single_eq_some_iff] at hk hk'
        exact ⟨k, rowKey_single_eq_some_iff.mpr ⟨nofun, hk.2⟩,
          rowKey_single_eq_some_iff.mpr ⟨nofun, hk'.2⟩⟩
  · exact hchecked spec (List.mem_append_right _ (List.mem_append_right _ hmem)) hspec

/-- An UPDATE that passes its check leaves every key unique. -/
theorem updateUniqueViolation_eq_none {holder : String → String → Option Row}
    (h : updateUniqueViolation coll holder schema orders olds news others = none)
    (hschema : schema.WellFormed) (hkept : ∀ p ∈ olds.zip news, schema.KeepsUnchecked coll p.1 p.2)
    (hlen : olds.length = news.length) (hcomplete : ∀ col text, holder col text = none →
      ∀ row ∈ others, coll.key (cell row col) ≠ coll.key text)
    (hold : ∀ spec ∈ schema.keySpecs, ((others ++ olds).filterMap (rowKey coll spec)).Nodup) :
    ∀ spec ∈ schema.keySpecs, ((others ++ news).filterMap (rowKey coll spec)).Nodup := by
  simp only [updateUniqueViolation, Option.or_eq_none_iff, List.findSome?_eq_none_iff] at h
  obtain ⟨hcolumns, hspecs⟩ := h
  refine nodup_of_checked hschema (fun spec hspec hkey => ?_) fun spec hspec => ?_
  · rcases List.mem_append.mp hspec with hspec | hspec
    · obtain ⟨col, hcol, hform⟩ := List.mem_filterMap.mp hspec
      have hnone := hcolumns col hcol
      split at hform
      · rename_i hpk
        cases hform
        rw [if_pos hpk] at hnone
        exact columnViolation_eq_none hnone hlen (hcomplete col.name) (hold _ hkey)
      · rename_i hpk
        split at hform
        · rename_i hunique
          cases hform
          rw [if_neg hpk, if_pos hunique] at hnone
          exact columnViolation_eq_none hnone hlen (hcomplete col.name) (hold _ hkey)
        · cases hform
    · exact nodup_encodedKey_iff.mp (specViolation_eq_none (hspecs spec hspec) hlen
        (nodup_encodedKey_iff.mpr (hold spec hkey)))
  · have hold := hold spec (uncheckedSpecs_subset hspec)
    rw [List.filterMap_append] at hold ⊢
    rwa [← filterMap_eq_of_zip hlen fun p hp => hkept p hp spec hspec]

/-- The write of an UPDATE that has passed its check keeps every key unique. -/
theorem KeysUnique.rewriteVersions (h : KeysUnique coll schema rows) (hschema : schema.WellFormed)
    {holder : List Row → String → String → Option Row} (hcomplete : LookupComplete coll holder)
    (hkept : ∀ p ∈ (rowsAt rows chosen).zip news, schema.KeepsUnchecked coll p.1 p.2)
    (hchosen : ∀ row ∈ rowsAt rows chosen, isVisible row)
    (hlen : (rowsAt rows chosen).length = news.length) {id : Nat} (hid : id ≠ 0)
    (hcheck : updateUniqueViolation coll (holder rows) schema orders (rowsAt rows chosen) news
      (liveVersions (rowsAt rows fun pos => !chosen pos)) = none) :
    KeysUnique coll schema (rewriteVersions rows chosen id news) := by
  intro spec hspec
  have hperm := liveVersions_perm hchosen
  have hafter := updateUniqueViolation_eq_none hcheck hschema hkept hlen
    (fun col text hnone row hrow => hcomplete rows col text hnone row
      (hperm.subset (List.mem_append_left _ hrow)))
    (fun spec' hspec' => ((hperm.filterMap _).nodup_iff).mpr (h spec' hspec')) spec hspec
  rw [liveVersions_rewriteVersions hid, List.filterMap_append, filterMap_tag hschema hspec,
    ← List.filterMap_append]
  exact hafter

end RusqlEngine
