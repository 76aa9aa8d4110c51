import RusqlEngine.Library.Eviction
import RusqlEngine.Library.Transition

/-!
# The cache of query results

Every table has a generation, which each invalidation raises. A session reads the generations of a
query's tables, runs the query and stores the result with them; an entry is given out only while
they are still current. `clear` leaves the generations alone, so that a result whose generations
were read before it can still be put.
-/

namespace RusqlEngine

open Eviction

structure CacheEntry (Result : Type*) where
  result : Result
  tableGens : List (String × ℕ)

/-- `QueryResultCache`, for results of any kind. A table without an entry has no keys in
`table_to_keys_` and generation 0 in `table_generation_`. -/
structure QueryResultCache (Result : Type*) where
  capacity : ℕ
  entries : Store String (CacheEntry Result)
  tableToKeys : String → Finset String
  insertOrder : Store String ℕ
  tableGeneration : String → ℕ
  tick : ℕ

namespace QueryResultCache

variable {Result : Type*}

def empty (capacity : ℕ) : QueryResultCache Result where
  capacity := capacity
  entries := ∅
  tableToKeys := fun _ => ∅
  insertOrder := ∅
  tableGeneration := fun _ => 0
  tick := 0

def Current (c : QueryResultCache Result) (tableGens : List (String × ℕ)) : Prop :=
  ∀ tg ∈ tableGens, c.tableGeneration tg.1 = tg.2

instance (c : QueryResultCache Result) : DecidablePred c.Current := fun tableGens =>
  inferInstanceAs (Decidable (∀ tg ∈ tableGens, c.tableGeneration tg.1 = tg.2))

/-- An entry is taken out of every map. -/
def drop (c : QueryResultCache Result) (key : String) : QueryResultCache Result :=
  { c with
    entries := c.entries.erase key
    insertOrder := c.insertOrder.erase key
    tableToKeys := fun table => (c.tableToKeys table).erase key }

def get (c : QueryResultCache Result) (key : String) :
    Option Result × QueryResultCache Result :=
  match c.entries.lookup key with
  | none => (none, c)
  | some e => if c.Current e.tableGens then (some e.result, c) else (none, c.drop key)

/-- The part of `put` that makes room. -/
def evict (c : QueryResultCache Result) : QueryResultCache Result :=
  if c.capacity ≤ size c.entries then
    match oldest (stamps c.insertOrder) with
    | none => c
    | some key => c.drop key
  else c

/-- The part of `put` that stores the result. -/
def store (c : QueryResultCache Result) (key : String) (result : Result)
    (tableGens : List (String × ℕ)) : QueryResultCache Result :=
  { c with
    tick := c.tick + 1
    tableToKeys := fun table =>
      if table ∈ tableGens.map Prod.fst then insert key (c.tableToKeys table)
      else c.tableToKeys table
    insertOrder := c.insertOrder.insert key (c.tick + 1)
    entries := c.entries.insert key ⟨result, tableGens⟩ }

def put (c : QueryResultCache Result) (key : String) (result : Result)
    (tableGens : List (String × ℕ)) : QueryResultCache Result :=
  if key ∈ c.entries then c else c.evict.store key result tableGens

def invalidateTable (c : QueryResultCache Result) (table : String) : QueryResultCache Result :=
  { c with
    tableGeneration :=
      Function.update c.tableGeneration table (c.tableGeneration table + 1)
    entries := eraseAll (c.tableToKeys table) c.entries
    insertOrder := eraseAll (c.tableToKeys table) c.insertOrder
    tableToKeys := Function.update c.tableToKeys table ∅ }

def clear (c : QueryResultCache Result) : QueryResultCache Result :=
  { c with
    entries := ∅
    tableToKeys := fun _ => ∅
    insertOrder := ∅
    tick := 0 }

/-- What holds of the two maps at all times. -/
structure Indexed (c : QueryResultCache Result) : Prop where
  sameKeys : SameKeys c.entries c.insertOrder
  size_le : size c.entries ≤ max c.capacity 1

section

variable {c : QueryResultCache Result} {key j : String} {e : CacheEntry Result}

theorem empty_indexed (capacity : ℕ) : (empty capacity : QueryResultCache Result).Indexed where
  sameKeys := fun _ => Iff.rfl
  size_le := Nat.zero_le _

theorem Indexed.drop (h : c.Indexed) (key : String) : (c.drop key).Indexed where
  sameKeys := h.sameKeys.erase key
  size_le := size_erase_le.trans h.size_le

theorem lookup_drop (h : (c.drop key).entries.lookup j = some e) : c.entries.lookup j = some e :=
  (lookup_erase_eq_some h).1

theorem get_snd (c : QueryResultCache Result) (key : String) :
    (c.get key).2 = c ∨ (c.get key).2 = c.drop key := by
  rw [get]
  cases c.entries.lookup key with
  | none => exact .inl rfl
  | some e =>
    by_cases hcurrent : c.Current e.tableGens
    · exact .inl (by simp only [if_pos hcurrent])
    · exact .inr (by simp only [if_neg hcurrent])

variable {result : Result}

theorem get_eq_some_iff : (c.get key).1 = some result ↔
    ∃ e, c.entries.lookup key = some e ∧ c.Current e.tableGens ∧ e.result = result := by
  rw [get]
  cases hlookup : c.entries.lookup key with
  | none => simp
  | some e =>
    by_cases hcurrent : c.Current e.tableGens
    · simp [hcurrent]
    · simp [hcurrent]

theorem evict_eq (c : QueryResultCache Result) : c.evict = c ∨ ∃ key, c.evict = c.drop key := by
  rw [evict]
  split_ifs
  · cases oldest (stamps c.insertOrder) with
    | none => exact .inl rfl
    | some key => exact .inr ⟨key, rfl⟩
  · exact .inl rfl

theorem Indexed.evict (h : c.Indexed) : c.evict.Indexed := by
  rcases evict_eq c with heq | ⟨key, heq⟩
  · rw [heq]
    exact h
  · rw [heq]
    exact h.drop key

theorem evict_capacity (c : QueryResultCache Result) : c.evict.capacity = c.capacity := by
  rcases evict_eq c with heq | ⟨key, heq⟩
  · rw [heq]
  · rw [heq]
    rfl

theorem evict_tableGeneration (c : QueryResultCache Result) :
    c.evict.tableGeneration = c.tableGeneration := by
  rcases evict_eq c with heq | ⟨key, heq⟩
  · rw [heq]
  · rw [heq]
    rfl

theorem lookup_evict (h : c.evict.entries.lookup j = some e) : c.entries.lookup j = some e := by
  rcases evict_eq c with heq | ⟨key, heq⟩
  · rwa [heq] at h
  · rw [heq] at h
    exact lookup_drop h

theorem size_evict_lt (h : c.Indexed) : size c.evict.entries + 1 ≤ max c.capacity 1 := by
  have hsize := h.size_le
  rw [evict]
  split_ifs with hfull
  · by_cases hnil : stamps c.insertOrder = []
    · have hkeys : c.entries.keys = [] := List.eq_nil_iff_forall_not_mem.mpr fun key hkey => by
        have hmem := AList.mem_keys.mp ((h.sameKeys key).mp (AList.mem_keys.mpr hkey))
        rw [stamps_eq_nil.mp hnil] at hmem
        cases hmem
      have hzero : size c.entries = 0 := by rw [size, hkeys, List.length_nil]
      rw [hnil]
      change size c.entries + 1 ≤ max c.capacity 1
      omega
    · obtain ⟨oldestEntry, hmem, holdest, -⟩ := exists_oldest hnil
      have hin : oldestEntry.1 ∈ c.entries := (h.sameKeys _).mpr (mem_of_mem_stamps hmem)
      rw [holdest]
      change size (c.entries.erase oldestEntry.1) + 1 ≤ max c.capacity 1
      rw [size_erase hin]
      exact hsize
  · omega

variable {tableGens : List (String × ℕ)}

theorem lookup_put (h : (c.put key result tableGens).entries.lookup j = some e) :
    c.entries.lookup j = some e ∨ key ∉ c.entries ∧ j = key ∧ e = ⟨result, tableGens⟩ := by
  rw [put] at h
  split_ifs at h with hmem
  · exact .inl h
  · change (c.evict.entries.insert key ⟨result, tableGens⟩).lookup j = some e at h
    by_cases hj : j = key
    · subst hj
      rw [AList.lookup_insert] at h
      exact .inr ⟨hmem, rfl, (Option.some.inj h).symm⟩
    · rw [AList.lookup_insert_ne hj] at h
      exact .inl (lookup_evict h)

theorem lookup_put_self (h : key ∉ c.entries) :
    (c.put key result tableGens).entries.lookup key = some ⟨result, tableGens⟩ := by
  rw [put, if_neg h]
  exact AList.lookup_insert _

theorem put_tableGeneration (c : QueryResultCache Result) (key : String) (result : Result)
    (tableGens : List (String × ℕ)) :
    (c.put key result tableGens).tableGeneration = c.tableGeneration := by
  rw [put]
  split_ifs
  · rfl
  · exact evict_tableGeneration c

theorem Indexed.put (h : c.Indexed) (key : String) (result : Result)
    (tableGens : List (String × ℕ)) : (c.put key result tableGens).Indexed := by
  rw [QueryResultCache.put]
  split_ifs with hmem
  · exact h
  · have hnew : key ∉ c.evict.entries := by
      rw [← AList.lookup_eq_none, Option.eq_none_iff_forall_ne_some]
      intro e he
      have hin := AList.lookup_isSome.mp (Option.isSome_of_eq_some (lookup_evict he))
      exact hmem hin
    refine ⟨h.evict.sameKeys.insert key _ _, ?_⟩
    change size (c.evict.entries.insert key _) ≤ max c.evict.capacity 1
    rw [size_insert hnew, evict_capacity]
    exact size_evict_lt h

theorem lookup_invalidateTable {table : String}
    (h : (c.invalidateTable table).entries.lookup j = some e) : c.entries.lookup j = some e := by
  change (eraseAll (c.tableToKeys table) c.entries).lookup j = some e at h
  rw [lookup_eraseAll] at h
  split_ifs at h
  exact h

theorem Indexed.invalidateTable (h : c.Indexed) (table : String) :
    (c.invalidateTable table).Indexed where
  sameKeys := h.sameKeys.eraseAll (c.tableToKeys table)
  size_le := size_eraseAll_le.trans h.size_le

theorem clear_indexed (c : QueryResultCache Result) : c.clear.Indexed where
  sameKeys := fun _ => Iff.rfl
  size_le := Nat.zero_le _

theorem Indexed.get (h : c.Indexed) (key : String) : (c.get key).2.Indexed := by
  rcases get_snd c key with heq | heq
  · rw [heq]
    exact h
  · rw [heq]
    exact h.drop key

end

end QueryResultCache

end RusqlEngine
