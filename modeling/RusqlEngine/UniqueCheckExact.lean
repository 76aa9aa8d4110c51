import RusqlEngine.UniqueCheck

/-!
# What the uniqueness check of an UPDATE decides

A statement is refused when two rows of its result have the same key, or when its rows,
rewritten one by one, meet a duplicate in every order in which they may be written. A
UNIQUE column that belongs to a composite primary key is not looked at.
-/

namespace RusqlEngine

section

variable {κ : Type}

/-- The pairs of old and new rows are applied one by one until a new row takes a key that a live row
has; `held` are the live keys. -/
def MeetsDuplicate (key : Row → Option κ) (pairs : List (Row × Row)) :
    List Nat → (κ → Prop) → Prop
  | [], _ => False
  | i :: order, held =>
    match pairs[i]? with
    | none => MeetsDuplicate key pairs order held
    | some (old, new) =>
      (∃ k, key new = some k ∧ held k ∧ key old ≠ some k) ∨
        MeetsDuplicate key pairs order fun k => key new = some k ∨ (held k ∧ key old ≠ some k)

/-- Some row takes the key of another one that is rewritten, and the rows clash in every
plausible order. -/
def ShiftReported [DecidableEq κ] (key : Row → Option κ) (orders : List (List Nat))
    (olds news : List Row) : Prop :=
  (∃ p ∈ olds.zip news, key p.1 ≠ key p.2 ∧ key p.2 ≠ none ∧ ∃ old ∈ olds, key old = key p.2) ∧
    (shiftClash (olds.map key) (news.map key) orders).isSome

end

/-- The answer of the check is right: without an error every key is unique afterwards; with one, the
result repeats a key, or the statement meets a duplicate in whichever order it writes its rows. -/
def UpdateCheckRight (coll : Collation) (schema : TableSchema) (orders : List (List Nat))
    (olds news others : List Row) (answer : Option KeyError) : Prop :=
  (answer = none → ∀ spec ∈ schema.keySpecs,
    ((others ++ news).filterMap (rowKey coll spec)).Nodup) ∧
  ∀ e, answer = some e →
    (∃ spec ∈ schema.keySpecs, ¬ ((others ++ news).filterMap (rowKey coll spec)).Nodup) ∨
    ∃ spec ∈ schema.keySpecs, orders ≠ [] ∧ ∀ order ∈ orders,
      MeetsDuplicate (rowKey coll spec) (olds.zip news) order
        fun k => ∃ row ∈ others ++ olds, rowKey coll spec row = some k

/-- The look-ups of one column name a holder only when a live row has the value. -/
def LookupSound (coll : Collation) (holder : List Row → String → String → Option Row) : Prop :=
  ∀ rows col text, (holder rows col text).isSome →
    ∃ row ∈ liveVersions rows, coll.key (cell row col) = coll.key text

variable {rows olds news : List Row} {orders : List (List Nat)}

section

variable {κ κ' : Type} [DecidableEq κ] [DecidableEq κ'] {f : κ → κ'}

theorem firstClashFrom_map (hf : Function.Injective f) (oldKeys newKeys : List (Option κ))
    (order : List Nat) (held : List κ) :
    firstClashFrom (oldKeys.map (Option.map f)) (newKeys.map (Option.map f)) order (held.map f) =
      firstClashFrom oldKeys newKeys order held := by
  have hgetD : ∀ (keys : List (Option κ)) (i : Nat),
      (keys.map (Option.map f)).getD i none = (keys.getD i none).map f := by
    intro keys i
    rw [List.getD_eq_getElem?_getD, List.getD_eq_getElem?_getD, List.getElem?_map]
    cases keys[i]? <;> rfl
  induction order generalizing held with
  | nil => rfl
  | cons i order ih =>
    have hfilter : (held.map f).filter (fun k =>
        decide ((oldKeys.map (Option.map f)).getD i none ≠ some k)) =
        (held.filter fun k => decide (oldKeys.getD i none ≠ some k)).map f := by
      rw [List.filter_map]
      congr 1
      refine List.filter_congr fun k _ => ?_
      rw [Function.comp_apply, hgetD, ← Option.map_some,
        decide_eq_decide, (Option.map_injective hf).ne_iff]
    rw [firstClashFrom, firstClashFrom, hgetD]
    simp only [hfilter]
    cases newKeys.getD i none with
    | none => exact ih _
    | some k =>
      simp only [Option.map_some, List.mem_map_of_injective hf]
      split
      · rfl
      · exact ih (k :: _)

theorem firstClash_map (hf : Function.Injective f) (oldKeys newKeys : List (Option κ))
    (order : List Nat) :
    firstClash (oldKeys.map (Option.map f)) (newKeys.map (Option.map f)) order =
      firstClash oldKeys newKeys order := by
  have hheld : (oldKeys.map (Option.map f)).filterMap id = (oldKeys.filterMap id).map f := by
    rw [List.filterMap_map, List.map_filterMap]
    rfl
  rw [firstClash, firstClash, hheld, firstClashFrom_map hf]

theorem shiftClash_map (hf : Function.Injective f) (oldKeys newKeys : List (Option κ))
    (orders : List (List Nat)) :
    shiftClash (oldKeys.map (Option.map f)) (newKeys.map (Option.map f)) orders =
      shiftClash oldKeys newKeys orders := by
  have hclash : firstClash (oldKeys.map (Option.map f)) (newKeys.map (Option.map f)) =
      firstClash oldKeys newKeys :=
    funext fun order => firstClash_map hf oldKeys newKeys order
  rw [shiftClash, shiftClash, hclash]

theorem meetsDuplicate_of_firstClashFrom {key : Row → Option κ} (hlen : olds.length = news.length)
    {order : List Nat} {heldKeys : List κ} {held : κ → Prop} (hheld : ∀ k ∈ heldKeys, held k)
    (h : (firstClashFrom (olds.map key) (news.map key) order heldKeys).isSome) :
    MeetsDuplicate key (olds.zip news) order held := by
  induction order generalizing heldKeys held with
  | nil => cases h
  | cons i order ih =>
    rw [firstClashFrom] at h
    rw [MeetsDuplicate]
    have hgetD : ∀ rows : List Row, (rows.map key).getD i none = (rows[i]?).bind key := by
      intro rows
      rw [List.getD_eq_getElem?_getD, List.getElem?_map]
      cases rows[i]? <;> rfl
    simp only [hgetD] at h
    by_cases hi : i < olds.length
    · have hi' : i < news.length := hlen ▸ hi
      have hpair : (olds.zip news)[i]? = some (olds[i], news[i]) := by
        rw [List.getElem?_eq_getElem (by rw [List.length_zip, ← hlen, Nat.min_self]; exact hi),
          List.getElem_zip]
      rw [List.getElem?_eq_getElem hi, List.getElem?_eq_getElem hi', Option.bind_some,
        Option.bind_some] at h
      simp only [hpair]
      have hrest : ∀ k ∈ heldKeys.filter (fun k => decide (key olds[i] ≠ some k)),
          held k ∧ key olds[i] ≠ some k := by
        intro k hk
        rw [List.mem_filter, decide_eq_true_eq] at hk
        exact ⟨hheld k hk.1, hk.2⟩
      cases hnew : key news[i] with
      | none =>
        simp only [hnew] at h
        exact .inr (ih (fun k hk => .inr (hrest k hk)) h)
      | some k =>
        simp only [hnew] at h
        split at h
        · rename_i hin
          exact .inl ⟨k, rfl, hrest k hin⟩
        · refine .inr (ih (fun k' hk' => ?_) h)
          rcases List.mem_cons.mp hk' with rfl | hk'
          · exact .inl rfl
          · exact .inr (hrest k' hk')
    · have hi' : ¬ i < news.length := hlen ▸ hi
      have hpair : (olds.zip news)[i]? = none := by
        rw [List.getElem?_eq_none_iff, List.length_zip, ← hlen, Nat.min_self]
        exact not_lt.mp hi
      rw [List.getElem?_eq_none_iff.mpr (not_lt.mp hi),
        List.getElem?_eq_none_iff.mpr (not_lt.mp hi')] at h
      simp only [Option.bind_none] at h
      simp only [hpair]
      refine ih (fun k hk => ?_) h
      rw [List.mem_filter] at hk
      exact hheld k hk.1

theorem ShiftReported.meetsDuplicate {key : Row → Option κ} (h : ShiftReported key orders olds news)
    (hlen : olds.length = news.length) {held : κ → Prop}
    (hheld : ∀ old ∈ olds, ∀ k, key old = some k → held k) :
    orders ≠ [] ∧ ∀ order ∈ orders, MeetsDuplicate key (olds.zip news) order held := by
  obtain ⟨-, hclash⟩ := h
  rw [shiftClash] at hclash
  split at hclash
  · rename_i hall
    rw [List.all_eq_true] at hall
    refine ⟨fun hnil => ?_, fun order horder => ?_⟩
    · rw [hnil] at hclash
      cases hclash
    · refine meetsDuplicate_of_firstClashFrom hlen (fun k hk => ?_) (hall order horder)
      obtain ⟨key', hkey', hid⟩ := List.mem_filterMap.mp hk
      obtain ⟨old, hold, rfl⟩ := List.mem_map.mp hkey'
      exact hheld old hold k hid
  · cases hclash

end

variable {coll : Collation}

/-- The lambda `chained` of a column. -/
theorem chained_column_iff {col : String} {isPk : Bool} {p : Row × Row} :
    (!coll.equal (cell p.1 col) (cell p.2 col) && !(!isPk && cell p.2 col == executorNull) &&
        (olds.map fun old => coll.key (cell old col)).contains (coll.key (cell p.2 col))) ↔
      rowKey coll ⟨[col], !isPk⟩ p.1 ≠ rowKey coll ⟨[col], !isPk⟩ p.2 ∧
        rowKey coll ⟨[col], !isPk⟩ p.2 ≠ none ∧
        ∃ old ∈ olds, rowKey coll ⟨[col], !isPk⟩ old = rowKey coll ⟨[col], !isPk⟩ p.2 := by
  have hsome : (!(!isPk && cell p.2 col == executorNull)) ↔
      rowKey coll ⟨[col], !isPk⟩ p.2 = some [coll.key (cell p.2 col)] := by
    rw [rowKey_single]
    cases (!isPk && cell p.2 col == executorNull) <;> simp
  rw [Bool.and_eq_true, Bool.and_eq_true, hsome, List.contains_iff_mem, List.mem_map,
    Bool.not_eq_true', ← Bool.not_eq_true, Collation.equal_iff]
  constructor
  · rintro ⟨⟨hne, hkey⟩, old, hold, heq⟩
    refine ⟨fun hsame => hne ?_, by rw [hkey]; exact Option.some_ne_none _, old, hold, ?_⟩
    · rw [hkey, rowKey_single_eq_some_iff] at hsame
      exact (List.cons.inj hsame.2).1.symm
    · exact rowKey_single_congr heq
  · rintro ⟨hne, hnone, old, hold, heq⟩
    have hkey : rowKey coll ⟨[col], !isPk⟩ p.2 = some [coll.key (cell p.2 col)] := by
      obtain ⟨k, hk⟩ := Option.ne_none_iff_exists'.mp hnone
      rw [hk, (rowKey_single_eq_some_iff.mp hk).2]
    refine ⟨⟨fun hsame => hne (rowKey_single_congr hsame), hkey⟩, old, hold, ?_⟩
    rw [hkey, rowKey_single_eq_some_iff] at heq
    exact (List.cons.inj heq.2).1.symm

variable {others : List Row}

/-- A check of the form finds nothing where no key is repeated and no shift is reported. -/
theorem keyCheck_eq_none_iff_nodup {κ : Type} [DecidableEq κ] {key : Row → Option κ}
    {same chained : Bool} {twice : Row → KeyError} {clash : Nat → KeyError} {rest : Option KeyError}
    (hsame : same → ∀ p ∈ olds.zip news, key p.1 = key p.2) (hchained : chained ↔
      ∃ p ∈ olds.zip news, key p.1 ≠ key p.2 ∧ key p.2 ≠ none ∧ ∃ old ∈ olds, key old = key p.2)
    (hnodup : keyCheck key olds news orders same chained twice clash rest = none →
      ((others ++ news).filterMap key).Nodup)
    (hrest : ((others ++ news).filterMap key).Nodup → rest = none) :
    keyCheck key olds news orders same chained twice clash rest = none ↔
      ((others ++ news).filterMap key).Nodup ∧ ¬ ShiftReported key orders olds news := by
  constructor
  · refine fun h => ⟨hnodup h, fun ⟨hmeets, hclash⟩ => ?_⟩
    rcases keyCheck_eq_none_iff.mp h with hall | ⟨-, hshift, -⟩
    · obtain ⟨p, hp, hne, -⟩ := hmeets
      exact hne (hsame hall p hp)
    · rw [hshift (hchained.mpr hmeets)] at hclash
      cases hclash
  · refine fun ⟨h, hshift⟩ => keyCheck_eq_none_iff.mpr (.inr ⟨(nodup_filterMap_append_iff.mp h).2.1,
      fun hmeets => ?_, hrest h⟩)
    exact Option.not_isSome_iff_eq_none.mp fun hclash => hshift ⟨hchained.mp hmeets, hclash⟩

/-- The check of a column, where its look-up is exact. -/
theorem columnViolation_eq_none_iff {holder : String → Option Row} {col : String} (isPk : Bool)
    (hlen : olds.length = news.length) (hcomplete : ∀ text, holder text = none →
      ∀ row ∈ others, coll.key (cell row col) ≠ coll.key text)
    (hsound : ∀ text, (holder text).isSome →
      ∃ row ∈ others ++ olds, coll.key (cell row col) = coll.key text)
    (hold : ((others ++ olds).filterMap (rowKey coll ⟨[col], !isPk⟩)).Nodup) :
    columnViolation coll holder orders col isPk olds news = none ↔
      ((others ++ news).filterMap (rowKey coll ⟨[col], !isPk⟩)).Nodup ∧
        ¬ ShiftReported (rowKey coll ⟨[col], !isPk⟩) orders olds news := by
  refine keyCheck_eq_none_iff_nodup (fun hsame p hp => ?_) ?_
    (fun h => columnViolation_eq_none h hlen hcomplete hold) fun hnodup => ?_
  · exact rowKey_single_congr (Collation.equal_iff.mp (List.all_eq_true.mp hsame p hp))
  · rw [List.any_eq_true]
    exact exists_congr fun p => and_congr_right fun _ => chained_column_iff
  · rw [Option.map_eq_none_iff, List.find?_eq_none]
    intro p hp hheld
    rw [List.mem_filter] at hp
    obtain ⟨hp, hwanted⟩ := hp
    simp only [Bool.not_eq_true', Bool.or_eq_false_iff] at hwanted
    obtain ⟨⟨-, hskip⟩, hnotHeld⟩ := hwanted
    obtain ⟨row, hrow, heq⟩ := hsound _ hheld
    have hkey : rowKey coll ⟨[col], !isPk⟩ p.2 = some [coll.key (cell p.2 col)] := by
      rw [rowKey_single, hskip]
      rfl
    rcases List.mem_append.mp hrow with hrow | hrow
    · refine (nodup_filterMap_append_iff.mp hnodup).2.2 row hrow p.2 (List.of_mem_zip hp).2
        [coll.key (cell p.2 col)] ?_ hkey
      rw [← hkey]
      exact rowKey_single_congr heq
    · rw [← Bool.not_eq_true, List.contains_iff_mem, List.mem_map] at hnotHeld
      exact hnotHeld ⟨row, hrow, heq⟩

variable {spec : KeySpec}

theorem chained_tuple_iff {p : Row × Row} :
    ((encodedKey coll spec p.2).any (olds.filterMap (encodedKey coll spec)).contains &&
        encodedKey coll spec p.1 != encodedKey coll spec p.2) ↔
      encodedKey coll spec p.1 ≠ encodedKey coll spec p.2 ∧ encodedKey coll spec p.2 ≠ none ∧
        ∃ old ∈ olds, encodedKey coll spec old = encodedKey coll spec p.2 := by
  rw [Bool.and_eq_true, bne_iff_ne]
  cases hkey : encodedKey coll spec p.2 with
  | none => simp
  | some k =>
    rw [Option.any_some, List.contains_iff_mem, List.mem_filterMap]
    exact ⟨fun ⟨hin, hne⟩ => ⟨hne, Option.some_ne_none _, hin⟩, fun ⟨hne, _, hin⟩ => ⟨hin, hne⟩⟩

theorem shiftReported_encodedKey_iff :
    ShiftReported (encodedKey coll spec) orders olds news ↔
      ShiftReported (rowKey coll spec) orders olds news := by
  have hinj := Option.map_injective LengthPrefix.encode_injective
  have heq : ∀ row row', encodedKey coll spec row = encodedKey coll spec row' ↔
      rowKey coll spec row = rowKey coll spec row' :=
    fun row row' => hinj.eq_iff
  have hnone : ∀ row, encodedKey coll spec row = none ↔ rowKey coll spec row = none :=
    fun row => Option.map_eq_none_iff
  have hmap : ∀ rows : List Row, rows.map (encodedKey coll spec) =
      (rows.map (rowKey coll spec)).map (Option.map LengthPrefix.encode) := by
    intro rows
    rw [List.map_map]
    rfl
  simp only [ShiftReported, hmap, shiftClash_map LengthPrefix.encode_injective, ne_eq, heq, hnone]

theorem specViolation_eq_none_iff (hlen : olds.length = news.length)
    (hold : ((others ++ olds).filterMap (rowKey coll spec)).Nodup) :
    specViolation coll orders spec olds news others = none ↔
      ((others ++ news).filterMap (rowKey coll spec)).Nodup ∧
        ¬ ShiftReported (rowKey coll spec) orders olds news := by
  rw [← nodup_encodedKey_iff, ← shiftReported_encodedKey_iff]
  refine keyCheck_eq_none_iff_nodup (fun hsame p hp => beq_iff_eq.mp
    (List.all_eq_true.mp hsame p hp)) ?_
    (fun h => specViolation_eq_none h hlen (nodup_encodedKey_iff.mpr hold)) fun hnodup => ?_
  · rw [List.any_eq_true]
    exact exists_congr fun p => and_congr_right fun _ => chained_tuple_iff
  · rw [Option.map_eq_none_iff, List.find?_eq_none]
    intro live hlive hany
    rw [Option.any_eq_true] at hany
    obtain ⟨k, hk, hin⟩ := hany
    rw [List.contains_iff_mem, List.mem_filter, List.mem_filterMap] at hin
    obtain ⟨⟨new, hnew, hkey⟩, -⟩ := hin
    exact (nodup_filterMap_append_iff.mp hnodup).2.2 live hlive new hnew k hk hkey

variable {schema : TableSchema}

/-- The whole check, where the look-ups are exact. -/
theorem updateUniqueViolation_eq_none_iff {holder : String → String → Option Row}
    (orders : List (List Nat)) (hlen : olds.length = news.length)
    (hcomplete : ∀ col text, holder col text = none →
      ∀ row ∈ others, coll.key (cell row col) ≠ coll.key text)
    (hsound : ∀ col text, (holder col text).isSome →
      ∃ row ∈ others ++ olds, coll.key (cell row col) = coll.key text)
    (hold : ∀ spec ∈ schema.checkedSpecs, ((others ++ olds).filterMap (rowKey coll spec)).Nodup) :
    updateUniqueViolation coll holder schema orders olds news others = none ↔
      ∀ spec ∈ schema.checkedSpecs, ((others ++ news).filterMap (rowKey coll spec)).Nodup ∧
        ¬ ShiftReported (rowKey coll spec) orders olds news := by
  simp only [updateUniqueViolation, Option.or_eq_none_iff, List.findSome?_eq_none_iff]
  have hold := List.forall_mem_append.mp hold
  refine Iff.trans (and_congr ?_ (forall₂_congr fun spec hspec => ?_))
    List.forall_mem_append.symm
  · constructor
    · intro h spec hspec
      obtain ⟨col, hcol, hform⟩ := List.mem_filterMap.mp hspec
      have hnodup := hold.1 spec hspec
      have hnone := h col hcol
      split at hform
      · rename_i hpk
        obtain rfl := Option.some.inj hform
        rw [if_pos hpk] at hnone
        exact (columnViolation_eq_none_iff true hlen (hcomplete col.name) (hsound col.name)
          hnodup).mp hnone
      · rename_i hpk
        split at hform
        · rename_i hunique
          obtain rfl := Option.some.inj hform
          rw [if_neg hpk, if_pos hunique] at hnone
          exact (columnViolation_eq_none_iff false hlen (hcomplete col.name) (hsound col.name)
            hnodup).mp hnone
        · cases hform
    · intro h col hcol
      split
      · rename_i hpk
        have hspec : (⟨[col.name], false⟩ : KeySpec) ∈ schema.checkedColumnSpecs :=
          List.mem_filterMap.mpr ⟨col, hcol, by rw [if_pos hpk]⟩
        exact (columnViolation_eq_none_iff true hlen (hcomplete col.name)
          (hsound col.name) (hold.1 _ hspec)).mpr (h _ hspec)
      · rename_i hpk
        split
        · rename_i hunique
          have hspec : (⟨[col.name], true⟩ : KeySpec) ∈ schema.checkedColumnSpecs :=
            List.mem_filterMap.mpr ⟨col, hcol, by rw [if_neg hpk, if_pos hunique]⟩
          exact (columnViolation_eq_none_iff false hlen (hcomplete col.name)
            (hsound col.name) (hold.1 _ hspec)).mpr (h _ hspec)
        · rfl
  · exact specViolation_eq_none_iff hlen (hold.2 spec hspec)

/-- The flags of the columns agree with the composite primary key. -/
structure TableSchema.WellKeyed (schema : TableSchema) : Prop extends schema.WellFormed where
  compositeFlags : schema.isCompositePk →
    1 < (schema.columns.filter (·.primaryKey)).length

theorem checkedSpecs_subset (hschema : schema.WellKeyed) :
    schema.checkedSpecs ⊆ schema.keySpecs := by
  intro spec hspec
  rw [mem_keySpecs_iff]
  rcases List.mem_append.mp hspec with hspec | hspec
  · obtain ⟨col, hcol, hform⟩ := List.mem_filterMap.mp hspec
    split at hform
    · rename_i hpk
      rw [Bool.and_eq_true, beq_iff_eq] at hpk
      obtain rfl := Option.some.inj hform
      have hsingle : schema.isCompositePk = false := by
        by_contra hcomposite
        have hmany := hschema.compositeFlags (by simpa using hcomposite)
        omega
      rw [TableSchema.primarySpecs, hsingle]
      exact .inl (List.mem_map.mpr ⟨col, List.mem_filter.mpr ⟨hcol, hpk.1⟩, rfl⟩)
    · split at hform
      · rename_i hunique
        rw [Bool.and_eq_true] at hunique
        obtain rfl := Option.some.inj hform
        exact .inr (.inl (List.mem_map.mpr ⟨col, List.mem_filter.mpr ⟨hcol, hunique.1⟩, rfl⟩))
      · cases hform
  · rcases List.mem_append.mp hspec with hspec | hspec
    · left
      rw [TableSchema.primarySpecs]
      split at hspec
      · rename_i hcomposite
        rwa [if_pos hcomposite]
      · exact absurd hspec List.not_mem_nil
    · exact .inr (.inr hspec)

/-- The answer of `update_unique_violation` is right exactly when no two rows of the result
agree on a UNIQUE column of the composite primary key, unless the statement is refused anyhow:
another key is repeated, or its rows clash in every plausible order. -/
theorem updateCheckRight_iff (coll : Collation) (schema : TableSchema)
    (hschema : schema.WellKeyed) (holder : List Row → String → String → Option Row)
    (hcomplete : LookupComplete coll holder) (hsound : LookupSound coll holder)
    (orders : List (List Nat)) (rows : List Row) (hunique : KeysUnique coll schema rows)
    (chosen : Nat → Bool) (hchosen : ∀ row ∈ rowsAt rows chosen, isVisible row)
    (news : List Row) (hlen : (rowsAt rows chosen).length = news.length) :
    UpdateCheckRight coll schema orders (rowsAt rows chosen) news
        (liveVersions (rowsAt rows fun pos => !chosen pos))
        (updateUniqueViolation coll (holder rows) schema orders (rowsAt rows chosen) news
          (liveVersions (rowsAt rows fun pos => !chosen pos))) ↔
      (∀ spec ∈ schema.uncheckedSpecs,
        ((liveVersions (rowsAt rows fun pos => !chosen pos) ++ news).filterMap
          (rowKey coll spec)).Nodup) ∨
      ∃ spec ∈ schema.checkedSpecs,
        ¬ ((liveVersions (rowsAt rows fun pos => !chosen pos) ++ news).filterMap
          (rowKey coll spec)).Nodup ∨
        ShiftReported (rowKey coll spec) orders (rowsAt rows chosen) news := by
  have hperm := liveVersions_perm hchosen
  have hold : ∀ spec ∈ schema.keySpecs,
      ((liveVersions (rowsAt rows fun pos => !chosen pos) ++ rowsAt rows chosen).filterMap
        (rowKey coll spec)).Nodup :=
    fun spec hspec => ((hperm.filterMap _).nodup_iff).mpr (hunique spec hspec)
  have hanswer := updateUniqueViolation_eq_none_iff orders hlen
    (fun col text hnone row hrow => hcomplete rows col text hnone row
      (hperm.subset (List.mem_append_left _ hrow)))
    (fun col text hsome => by
      obtain ⟨row, hrow, heq⟩ := hsound rows col text hsome
      exact ⟨row, hperm.mem_iff.mpr hrow, heq⟩)
    (fun spec hspec => hold spec (checkedSpecs_subset hschema hspec))
  constructor
  · rintro ⟨hright, -⟩
    by_cases hnone : updateUniqueViolation coll (holder rows) schema orders (rowsAt rows chosen)
        news (liveVersions (rowsAt rows fun pos => !chosen pos)) = none
    · exact .inl fun spec hspec => hright hnone spec (uncheckedSpecs_subset hspec)
    · rw [hanswer] at hnone
      push Not at hnone
      obtain ⟨spec, hspec, h⟩ := hnone
      refine .inr ⟨spec, hspec, ?_⟩
      by_cases hnodup : ((liveVersions (rowsAt rows fun pos => !chosen pos) ++ news).filterMap
          (rowKey coll spec)).Nodup
      · exact .inr (h hnodup)
      · exact .inl hnodup
  · intro h
    refine ⟨fun hnone => ?_, fun e herror => ?_⟩
    · have hchecked := hanswer.mp hnone
      refine nodup_of_checked hschema.toWellFormed
        (fun spec hspec _ => (hchecked spec hspec).1) ?_
      rcases h with h | ⟨spec, hspec, h⟩
      · exact h
      · rcases h with h | h
        · exact absurd (hchecked spec hspec).1 h
        · exact absurd h (hchecked spec hspec).2
    · have hne : updateUniqueViolation coll (holder rows) schema orders (rowsAt rows chosen) news
          (liveVersions (rowsAt rows fun pos => !chosen pos)) ≠ none := by
        rw [herror]
        exact Option.some_ne_none e
      rw [Ne, hanswer] at hne
      push Not at hne
      obtain ⟨spec, hspec, hbad⟩ := hne
      have hmem := checkedSpecs_subset hschema hspec
      by_cases hnodup : ((liveVersions (rowsAt rows fun pos => !chosen pos) ++ news).filterMap
          (rowKey coll spec)).Nodup
      · refine .inr ⟨spec, hmem, (hbad hnodup).meetsDuplicate hlen fun old hin k hk => ?_⟩
        exact ⟨old, List.mem_append_right _ hin, hk⟩
      · exact .inl ⟨spec, hmem, hnodup⟩

theorem scanHolder_sound (coll : Collation) : LookupSound coll (scanHolder coll) := by
  intro rows col text hsome
  obtain ⟨row, hrow⟩ := Option.isSome_iff_exists.mp hsome
  have hfound := List.find?_some hrow
  rw [Bool.and_eq_true, Collation.equal_iff] at hfound
  exact ⟨row, List.mem_filter.mpr ⟨List.mem_of_find?_eq_some hrow, hfound.1⟩, hfound.2⟩

/-- `UPDATE users SET id = id + 1 ORDER BY id DESC`. -/
theorem updateCheckRight_iff_shiftedIds :
    UpdateCheckRight asciiCollation usersSchema [[1, 0]]
      [(Row.ofCells [("id", "1"), ("mail", "a")]).tag 3,
        (Row.ofCells [("id", "2"), ("mail", "b")]).tag 3]
      [Row.ofCells [("id", "2"), ("mail", "a")], Row.ofCells [("id", "3"), ("mail", "b")]] []
      (updateUniqueViolation asciiCollation
        (scanHolder asciiCollation [(Row.ofCells [("id", "1"), ("mail", "a")]).tag 3,
          (Row.ofCells [("id", "2"), ("mail", "b")]).tag 3]) usersSchema [[1, 0]]
        [(Row.ofCells [("id", "1"), ("mail", "a")]).tag 3,
          (Row.ofCells [("id", "2"), ("mail", "b")]).tag 3]
        [Row.ofCells [("id", "2"), ("mail", "a")], Row.ofCells [("id", "3"), ("mail", "b")]] []) :=
  (updateCheckRight_iff asciiCollation usersSchema
    ⟨⟨by decide, by decide, by decide⟩, by decide⟩ (scanHolder asciiCollation)
    (scanHolder_complete _) (scanHolder_sound _) [[1, 0]]
    [(Row.ofCells [("id", "1"), ("mail", "a")]).tag 3,
      (Row.ofCells [("id", "2"), ("mail", "b")]).tag 3] (by decide) (fun _ => true)
    (by decide)
    [Row.ofCells [("id", "2"), ("mail", "a")], Row.ofCells [("id", "3"), ("mail", "b")]] rfl).mpr
    (.inl (by decide))

/-- `slots(a UNIQUE, b, PRIMARY KEY (a, b))`. -/
def slotsSchema : TableSchema :=
  ⟨[⟨"a", true, true⟩, ⟨"b", true, false⟩], ["a", "b"], []⟩

/-- A UNIQUE column of the composite primary key takes the value of another row. -/
theorem updateUniqueViolation_passes_over_column :
    slotsSchema.WellKeyed ∧ LookupComplete asciiCollation (scanHolder asciiCollation) ∧
    LookupSound asciiCollation (scanHolder asciiCollation) ∧
    KeysUnique asciiCollation slotsSchema
      [(Row.ofCells [("a", "1"), ("b", "1")]).tag 3, (Row.ofCells [("a", "2"), ("b", "2")]).tag 3] ∧
    ¬ UpdateCheckRight asciiCollation slotsSchema [[0]]
      [(Row.ofCells [("a", "2"), ("b", "2")]).tag 3] [Row.ofCells [("a", "1"), ("b", "2")]]
      [(Row.ofCells [("a", "1"), ("b", "1")]).tag 3] (updateUniqueViolation asciiCollation
        (scanHolder asciiCollation [(Row.ofCells [("a", "1"), ("b", "1")]).tag 3,
          (Row.ofCells [("a", "2"), ("b", "2")]).tag 3]) slotsSchema [[0]]
        [(Row.ofCells [("a", "2"), ("b", "2")]).tag 3] [Row.ofCells [("a", "1"), ("b", "2")]]
        [(Row.ofCells [("a", "1"), ("b", "1")]).tag 3]) := by
  refine ⟨⟨⟨by decide, by decide, by decide⟩, by decide⟩, scanHolder_complete _,
    scanHolder_sound _, by decide, fun h => ?_⟩
  have hall := h.1 (by decide)
  revert hall
  decide

end RusqlEngine
