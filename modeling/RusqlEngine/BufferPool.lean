import RusqlEngine.Library.Eviction
import RusqlEngine.Undo

/-!
# The buffer pool

A page is a whole table. A page that has been written and not saved is dirty. A full pool gives up
the page whose last access is the oldest: `get_page`, which knows the disk, saves it first if it is
dirty, and `write_page`, which does not, lets it go.
-/

namespace RusqlEngine

open Eviction Function

structure Page where
  tableName : String
  rows : List Row
  isDirty : Bool

/-- What `load_table` reads from the file of each table. -/
abbrev TableFiles := String → List Row

/-- `BufferPool`; a page is kept with its last access, and `openTransactions` is what
`open_transactions_` answers. -/
structure BufferPool where
  capacity : ℕ
  hitCount : ℕ
  missCount : ℕ
  cache : Store String (Page × ℕ)
  tick : ℕ
  openTransactions : Finset ℕ

namespace BufferPool

def empty (capacity : ℕ) : BufferPool where
  capacity := capacity
  hitCount := 0
  missCount := 0
  cache := ∅
  tick := 0
  openTransactions := ∅

/-- `save_committed`. -/
def save (p : BufferPool) (disk : TableFiles) (table : String) (rows : List Row) (keepTxn : ℕ) :
    TableFiles :=
  update disk table (saveCommitted p.openTransactions keepTxn rows)

def evictKey (p : BufferPool) : Option String :=
  if p.capacity ≤ size p.cache then oldest (p.cache.entries.map fun e => (e.1, e.2.2)) else none

/-- The part of `insert_page` that makes room; without a disk nothing is saved. -/
def evict (p : BufferPool) (disk : Option TableFiles) : BufferPool × Option TableFiles :=
  match p.evictKey with
  | none => (p, disk)
  | some key =>
    match p.cache.lookup key with
    | none => (p, disk)
    | some (page, _) =>
      ({ p with cache := p.cache.erase key },
        disk.map fun d => if page.isDirty then p.save d key page.rows 0 else d)

/-- `cache_.emplace`. -/
def emplace (p : BufferPool) (table : String) (rows : List Row) (isDirty : Bool) : BufferPool :=
  { p with
    tick := p.tick + 1
    cache := if table ∈ p.cache then p.cache
      else p.cache.insert table (⟨table, rows, isDirty⟩, p.tick + 1) }

def insertPage (p : BufferPool) (table : String) (rows : List Row) (isDirty : Bool)
    (disk : Option TableFiles) : BufferPool × Option TableFiles :=
  let evicted := p.evict disk
  (evicted.1.emplace table rows isDirty, evicted.2)

def getPage (p : BufferPool) (disk : TableFiles) (table : String) :
    List Row × BufferPool × TableFiles :=
  match p.cache.lookup table with
  | some (page, _) =>
    (page.rows, { p with
      hitCount := p.hitCount + 1
      tick := p.tick + 1
      cache := p.cache.insert table (page, p.tick + 1) }, disk)
  | none =>
    let rows := disk table
    let missed := { p with missCount := p.missCount + 1 }
    let inserted := missed.insertPage table rows false (some disk)
    (rows, inserted.1, inserted.2.getD disk)

def writePage (p : BufferPool) (table : String) (rows : List Row) : BufferPool :=
  match p.cache.lookup table with
  | some (page, _) =>
    { p with
      tick := p.tick + 1
      cache := p.cache.insert table
        ({ page with rows := rows, isDirty := true }, p.tick + 1) }
  | none => (p.insertPage table rows true none).1

def writeThrough (p : BufferPool) (table : String) (rows : List Row) (disk : TableFiles)
    (keepTxn : ℕ) : BufferPool × TableFiles :=
  ({ p with cache := p.cache.erase table }, p.save disk table rows keepTxn)

/-- One round of the loop of `flush_all`. -/
def flushPage (s : BufferPool × TableFiles) (name : String) : BufferPool × TableFiles :=
  match s.1.cache.lookup name with
  | none => s
  | some (page, tick) =>
    ({ s.1 with cache := s.1.cache.insert name ({ page with isDirty := false }, tick) },
      s.1.save s.2 name page.rows 0)

def dirtyPages (p : BufferPool) : List String :=
  (p.cache.entries.filter fun e => e.2.1.isDirty).map Sigma.fst

def flushAll (p : BufferPool) (disk : TableFiles) : BufferPool × TableFiles :=
  p.dirtyPages.foldl flushPage (p, disk)

/-- The rows a table has: those of its page, or those of its file where it has none. -/
def view (p : BufferPool) (disk : TableFiles) (table : String) : List Row :=
  match p.cache.lookup table with
  | some (page, _) => page.rows
  | none => disk table

/-- A page that is not dirty is as its file, and no transaction is open. -/
structure Agrees (p : BufferPool) (disk : TableFiles) : Prop where
  closed : p.openTransactions = ∅
  clean : ∀ table page tick, p.cache.lookup table = some (page, tick) → page.isDirty = false →
    disk table = page.rows

/-- The table whose unsaved rows a `write_page` of another table drops. -/
def droppedBy (p : BufferPool) (table : String) : Option String :=
  if table ∈ p.cache then none
  else p.evictKey.filter fun key => (p.cache.lookup key).any fun entry => entry.1.isDirty

section

variable {p : BufferPool} {disk : TableFiles} {table t : String} {rows : List Row} {page : Page}
  {tick : ℕ}

theorem view_of_lookup (h : p.cache.lookup table = some (page, tick)) :
    p.view disk table = page.rows := by
  rw [view, h]

theorem view_of_none (h : p.cache.lookup table = none) : p.view disk table = disk table := by
  rw [view, h]

theorem save_eq (h : p.openTransactions = ∅) (keepTxn : ℕ) :
    p.save disk table rows keepTxn = update disk table rows := by
  rw [save, saveCommitted, h]
  simp

theorem empty_agrees (capacity : ℕ) (disk : TableFiles) : (empty capacity).Agrees disk where
  closed := rfl
  clean := fun _ _ _ h => by cases h

theorem Agrees.view_eq (h : p.Agrees disk)
    (hclean : ∀ page tick, p.cache.lookup table = some (page, tick) → page.isDirty = false) :
    p.view disk table = disk table := by
  cases hlookup : p.cache.lookup table with
  | none => exact view_of_none hlookup
  | some entry =>
    rw [view_of_lookup hlookup]
    exact (h.clean table _ _ hlookup (hclean _ _ hlookup)).symm

theorem view_insert :
    view { p with cache := p.cache.insert table (page, tick) } disk =
      update (p.view disk) table page.rows := by
  funext t
  by_cases ht : t = table
  · subst ht
    rw [update_self]
    exact view_of_lookup (AList.lookup_insert _)
  · rw [update_of_ne ht]
    simp only [view, AList.lookup_insert_ne ht]

theorem view_touch {now : ℕ} (h : p.cache.lookup table = some (page, tick)) :
    view { p with cache := p.cache.insert table (page, now) } disk = p.view disk := by
  have hview : p.view disk table = page.rows := view_of_lookup h
  rw [view_insert, ← hview, update_eq_self]

theorem Agrees.insert (h : p.Agrees disk) (hpage : page.isDirty = false → disk table = page.rows) :
    Agrees { p with cache := p.cache.insert table (page, tick) } disk where
  closed := h.closed
  clean := fun t page' tick' hlookup hclean => by
    change (p.cache.insert table (page, tick)).lookup t = some (page', tick') at hlookup
    by_cases ht : t = table
    · subst ht
      rw [AList.lookup_insert] at hlookup
      cases hlookup
      exact hpage hclean
    · rw [AList.lookup_insert_ne ht] at hlookup
      exact h.clean t page' tick' hlookup hclean

theorem Agrees.erase (h : p.Agrees disk) (table : String) :
    Agrees { p with cache := p.cache.erase table } disk where
  closed := h.closed
  clean := fun t page tick hlookup hclean =>
    h.clean t page tick (lookup_erase_eq_some hlookup).1 hclean

theorem view_erase : view { p with cache := p.cache.erase table } disk =
    update (p.view disk) table (disk table) := by
  funext t
  by_cases ht : t = table
  · subst ht
    rw [update_self]
    exact view_of_none (AList.lookup_erase _ _)
  · rw [update_of_ne ht]
    simp only [view, AList.lookup_erase_ne ht]

theorem view_update_disk (h : table ∈ p.cache) : p.view (update disk table rows) = p.view disk := by
  obtain ⟨entry, hlookup⟩ := Option.isSome_iff_exists.mp (AList.lookup_isSome.mpr h)
  funext t
  by_cases ht : t = table
  · subst ht
    rw [view_of_lookup hlookup, view_of_lookup hlookup]
  · simp only [view, update_of_ne ht]

theorem Agrees.update_disk (h : p.Agrees disk) (table : String) :
    p.Agrees (update disk table (p.view disk table)) where
  closed := h.closed
  clean := fun t page tick hlookup hclean => by
    by_cases ht : t = table
    · subst ht
      rw [update_self, view_of_lookup hlookup]
    · rw [update_of_ne ht]
      exact h.clean t page tick hlookup hclean

theorem evictKey_mem {key : String} (h : p.evictKey = some key) : key ∈ p.cache := by
  rw [evictKey] at h
  split_ifs at h
  by_cases hnil : p.cache.entries.map (fun e => (e.1, e.2.2)) = []
  · rw [hnil] at h
    cases h
  · obtain ⟨e, hmem, holdest, -⟩ := exists_oldest hnil
    obtain rfl := Option.some.inj (holdest.symm.trans h)
    obtain ⟨entry, hentry, rfl⟩ := List.mem_map.mp hmem
    exact AList.mem_keys.mpr (List.mem_map.mpr ⟨entry, hentry, rfl⟩)

theorem evict_saves (h : p.Agrees disk) : ∃ disk', (p.evict (some disk)).2 = some disk' ∧
    (p.evict (some disk)).1.view disk' = p.view disk ∧ (p.evict (some disk)).1.Agrees disk' ∧
    (∀ t, disk' t = disk t ∨ disk' t = p.view disk t) ∧
    ∀ t, t ∉ p.cache → t ∉ (p.evict (some disk)).1.cache ∧ disk' t = disk t := by
  rw [evict]
  cases hkey : p.evictKey with
  | none => exact ⟨disk, rfl, rfl, h, fun t => .inl rfl, fun t ht => ⟨ht, rfl⟩⟩
  | some key =>
    obtain ⟨⟨page, tick⟩, hlookup⟩ :=
      Option.isSome_iff_exists.mp (AList.lookup_isSome.mpr (evictKey_mem hkey))
    have hout : ∀ t, t ∉ p.cache → t ∉ p.cache.erase key := fun t ht hin =>
      ht (AList.mem_erase.mp hin).2
    simp only [hlookup, Option.map_some]
    by_cases hdirty : page.isDirty = true
    · have hsave : p.save disk key page.rows 0 = update disk key (p.view disk key) := by
        rw [save_eq h.closed, view_of_lookup hlookup]
      simp only [hdirty, if_true, hsave]
      refine ⟨_, rfl, ?_, (h.update_disk key).erase key, fun t => ?_, fun t ht => ⟨hout t ht, ?_⟩⟩
      · rw [view_erase, view_update_disk (evictKey_mem hkey), update_self, update_eq_self]
      · by_cases ht : t = key
        · subst ht
          exact .inr (update_self ..)
        · exact .inl (update_of_ne ht _ _)
      · exact update_of_ne (fun heq : t = key => ht (heq ▸ evictKey_mem hkey)) _ _
    · have hclean : page.isDirty = false := Bool.eq_false_iff.mpr hdirty
      simp only [hclean, Bool.false_eq_true, if_false]
      refine ⟨disk, rfl, ?_, h.erase key, fun t => .inl rfl, fun t ht => ⟨hout t ht, rfl⟩⟩
      rw [view_erase, h.clean key page tick hlookup hclean, ← view_of_lookup hlookup,
        update_eq_self]

/-- The rows of every table after `write_page` has made room for `table`: a dirty page that went
leaves its table with the rows of the file. -/
def afterDrop (p : BufferPool) (disk : TableFiles) (table : String) : String → List Row :=
  match p.droppedBy table with
  | none => p.view disk
  | some dropped => update (p.view disk) dropped (disk dropped)

theorem evict_drops (h : p.Agrees disk) (htable : table ∉ p.cache) :
    (p.evict none).1.view disk = p.afterDrop disk table ∧ (p.evict none).1.Agrees disk ∧
      table ∉ (p.evict none).1.cache := by
  rw [evict, afterDrop, droppedBy, if_neg htable]
  cases hkey : p.evictKey with
  | none => exact ⟨rfl, h, htable⟩
  | some key =>
    obtain ⟨⟨page, tick⟩, hlookup⟩ :=
      Option.isSome_iff_exists.mp (AList.lookup_isSome.mpr (evictKey_mem hkey))
    simp only [hlookup, Option.filter_some, Option.any_some]
    refine ⟨?_, h.erase key, fun hin => htable (AList.mem_erase.mp hin).2⟩
    rw [view_erase]
    by_cases hdirty : page.isDirty = true
    · simp only [hdirty, if_true]
    · have hclean : page.isDirty = false := Bool.eq_false_iff.mpr hdirty
      simp only [hclean, Bool.false_eq_true, if_false]
      rw [h.clean key page tick hlookup hclean, ← view_of_lookup hlookup, update_eq_self]

theorem view_emplace {isDirty : Bool} (htable : table ∉ p.cache) :
    (p.emplace table rows isDirty).view disk = update (p.view disk) table rows := by
  rw [emplace, if_neg htable]
  exact view_insert

theorem Agrees.emplace (h : p.Agrees disk) {isDirty : Bool} (htable : table ∉ p.cache)
    (hrows : isDirty = false → disk table = rows) : (p.emplace table rows isDirty).Agrees disk := by
  rw [BufferPool.emplace, if_neg htable]
  exact ⟨h.closed, (h.insert hrows).clean⟩

/-- `get_page` answers the rows of the table and changes none; a file that it writes gets the rows
of its table. -/
theorem getPage_spec (h : p.Agrees disk) (table : String) :
    (p.getPage disk table).1 = p.view disk table ∧
      (p.getPage disk table).2.1.view (p.getPage disk table).2.2 = p.view disk ∧
      (p.getPage disk table).2.1.Agrees (p.getPage disk table).2.2 ∧
      ∀ t, (p.getPage disk table).2.2 t = disk t ∨
        (p.getPage disk table).2.2 t = p.view disk t := by
  rw [getPage]
  cases hlookup : p.cache.lookup table with
  | some entry =>
    refine ⟨(view_of_lookup hlookup).symm, view_touch hlookup, ⟨h.closed, ?_⟩, fun t => .inl rfl⟩
    exact (h.insert fun hclean => h.clean table _ _ hlookup hclean).clean
  | none =>
    have htable : table ∉ p.cache := AList.lookup_eq_none.mp hlookup
    have hmissed : Agrees { p with missCount := p.missCount + 1 } disk := ⟨h.closed, h.clean⟩
    obtain ⟨disk', hdisk, hview, hagrees, hfiles, hrest⟩ := evict_saves hmissed
    have hout := hrest table htable
    simp only [insertPage, hdisk, Option.getD_some]
    refine ⟨(view_of_none hlookup).symm, ?_, hagrees.emplace hout.1 fun _ => hout.2, hfiles⟩
    have hrows : p.view disk table = disk table := view_of_none hlookup
    rw [view_emplace hout.1, hview, ← hrows]
    exact update_eq_self table _

theorem writePage_spec (h : p.Agrees disk) (table : String) (rows : List Row) :
    (p.writePage table rows).view disk = update (p.afterDrop disk table) table rows ∧
      (p.writePage table rows).Agrees disk := by
  rw [writePage]
  cases hlookup : p.cache.lookup table with
  | some entry =>
    have hmem : table ∈ p.cache := AList.lookup_isSome.mp (by rw [hlookup]; rfl)
    rw [afterDrop, droppedBy, if_pos hmem]
    exact ⟨view_insert, h.closed, (h.insert fun hclean => by cases hclean).clean⟩
  | none =>
    have htable : table ∉ p.cache := AList.lookup_eq_none.mp hlookup
    obtain ⟨hview, hagrees, hout⟩ := evict_drops h htable
    refine ⟨?_, hagrees.emplace hout fun hclean => by cases hclean⟩
    rw [← hview]
    exact view_emplace hout

theorem writeThrough_spec (h : p.Agrees disk) (table : String) (rows : List Row) (keepTxn : ℕ) :
    (p.writeThrough table rows disk keepTxn).1.view (p.writeThrough table rows disk keepTxn).2 =
        update (p.view disk) table rows ∧
      (p.writeThrough table rows disk keepTxn).1.Agrees
        (p.writeThrough table rows disk keepTxn).2 := by
  have hsave : p.save disk table rows keepTxn = update disk table rows :=
    save_eq h.closed keepTxn
  rw [writeThrough, hsave]
  constructor
  · funext t
    by_cases ht : t = table
    · subst ht
      rw [update_self]
      exact (view_of_none (AList.lookup_erase _ _)).trans (update_self ..)
    · rw [update_of_ne ht]
      simp only [view, AList.lookup_erase_ne ht, update_of_ne ht]
  · refine ⟨h.closed, fun t page tick hlookup hclean => ?_⟩
    obtain ⟨hbefore, hne⟩ := lookup_erase_eq_some hlookup
    exact (update_of_ne hne _ _).trans (h.clean t page tick hbefore hclean)

end

section

variable {s : BufferPool × TableFiles} {name t : String}

theorem flushPage_spec (h : s.1.Agrees s.2) (name : String) :
    (flushPage s name).1.view (flushPage s name).2 = s.1.view s.2 ∧
      (flushPage s name).1.Agrees (flushPage s name).2 ∧
      ∀ t page tick, (flushPage s name).1.cache.lookup t = some (page, tick) →
        page.isDirty → t ≠ name ∧ s.1.cache.lookup t = some (page, tick) := by
  rw [flushPage]
  cases hlookup : s.1.cache.lookup name with
  | none =>
    refine ⟨rfl, h, fun t page tick ht _ => ⟨?_, ht⟩⟩
    rintro rfl
    rw [hlookup] at ht
    cases ht
  | some entry =>
    have hmem : name ∈ s.1.cache := AList.lookup_isSome.mp (by rw [hlookup]; rfl)
    have hview : s.1.view s.2 name = entry.1.rows := view_of_lookup hlookup
    have hsave : s.1.save s.2 name entry.1.rows 0 =
        update s.2 name (s.1.view s.2 name) := by
      rw [save_eq h.closed, hview]
    simp only [hsave]
    have hagrees := h.update_disk name
    refine ⟨?_, ⟨h.closed, (hagrees.insert fun _ => ?_).clean⟩, fun t page tick ht hdirty => ?_⟩
    · rw [view_insert, view_update_disk hmem, ← hview, update_eq_self]
    · rw [update_self, hview]
    · by_cases heq : t = name
      · subst heq
        rw [AList.lookup_insert] at ht
        cases ht
        cases hdirty
      · rw [AList.lookup_insert_ne heq] at ht
        exact ⟨heq, ht⟩

theorem flushPages_spec : ∀ (names : List String) {s : BufferPool × TableFiles}, s.1.Agrees s.2 →
    (names.foldl flushPage s).1.view (names.foldl flushPage s).2 = s.1.view s.2 ∧
      (names.foldl flushPage s).1.Agrees (names.foldl flushPage s).2 ∧
      ∀ t page tick, (names.foldl flushPage s).1.cache.lookup t = some (page, tick) →
        page.isDirty → t ∉ names ∧ s.1.cache.lookup t = some (page, tick)
  | [], s, h => ⟨rfl, h, fun _ _ _ ht _ => ⟨List.not_mem_nil, ht⟩⟩
  | name :: names, s, h => by
      obtain ⟨hview, hagrees, hdirty⟩ := flushPage_spec h name
      obtain ⟨hview', hagrees', hdirty'⟩ := flushPages_spec names hagrees
      refine ⟨hview'.trans hview, hagrees', fun t page tick ht hpage => ?_⟩
      obtain ⟨hnames, hbefore⟩ := hdirty' t page tick ht hpage
      obtain ⟨hname, hfirst⟩ := hdirty t page tick hbefore hpage
      exact ⟨List.not_mem_cons_of_ne_of_not_mem hname hnames, hfirst⟩

theorem flushAll_spec {p : BufferPool} {disk : TableFiles} (h : p.Agrees disk) :
    (p.flushAll disk).1.view (p.flushAll disk).2 = p.view disk ∧
      (p.flushAll disk).1.Agrees (p.flushAll disk).2 ∧ (p.flushAll disk).2 = p.view disk := by
  obtain ⟨hview, hagrees, hdirty⟩ := flushPages_spec p.dirtyPages (s := (p, disk)) h
  refine ⟨hview, hagrees, funext fun t => ?_⟩
  rw [← hview]
  refine (hagrees.view_eq fun page tick hlookup => ?_).symm
  by_contra hpage
  have hdirtyPage : page.isDirty := by simpa using hpage
  obtain ⟨hnot, hbefore⟩ := hdirty t page tick hlookup hdirtyPage
  refine hnot (List.mem_map.mpr ⟨⟨t, page, tick⟩, List.mem_filter.mpr ⟨?_, hdirtyPage⟩, rfl⟩)
  exact AList.mem_lookup_iff.mp hbefore

end

end BufferPool

inductive PoolCall
  | getPage (table : String)
  | writePage (table : String) (rows : List Row)
  | writeThrough (table : String) (rows : List Row) (keepTxn : ℕ)
  | flushAll

/-- A pool over its files, with the rows last written to each table (at first those of its file) and
the tables whose latest rows `write_page` has dropped. -/
structure PoolRun where
  pool : BufferPool
  disk : TableFiles
  latest : String → List Row
  dropped : Finset String

namespace PoolRun

def start (capacity : ℕ) (disk : TableFiles) : PoolRun where
  pool := .empty capacity
  disk := disk
  latest := disk
  dropped := ∅

def step (s : PoolRun) : PoolCall → PoolRun
  | .getPage table =>
    { s with
      pool := (s.pool.getPage s.disk table).2.1
      disk := (s.pool.getPage s.disk table).2.2 }
  | .writePage table rows =>
    { s with
      pool := s.pool.writePage table rows
      latest := update s.latest table rows
      dropped := (s.dropped ∪ (s.pool.droppedBy table).toFinset).erase table }
  | .writeThrough table rows keepTxn =>
    { pool := (s.pool.writeThrough table rows s.disk keepTxn).1
      disk := (s.pool.writeThrough table rows s.disk keepTxn).2
      latest := update s.latest table rows
      dropped := s.dropped.erase table }
  | .flushAll =>
    { s with
      pool := (s.pool.flushAll s.disk).1
      disk := (s.pool.flushAll s.disk).2 }

/-- The rows of a table are the latest, or, where these have been dropped, those of its file. -/
structure Sound (s : PoolRun) : Prop where
  agrees : s.pool.Agrees s.disk
  kept : ∀ t, t ∉ s.dropped → s.pool.view s.disk t = s.latest t
  lost : ∀ t ∈ s.dropped, s.pool.view s.disk t = s.disk t

section

variable {s : PoolRun}

theorem start_sound (capacity : ℕ) (disk : TableFiles) : (start capacity disk).Sound where
  agrees := BufferPool.empty_agrees capacity disk
  kept := fun _ _ => rfl
  lost := fun _ ht => absurd ht (Finset.notMem_empty _)

theorem getPage_sound (h : s.Sound) (table : String) : (s.step (.getPage table)).Sound := by
  obtain ⟨-, hview, hagrees, hfiles⟩ := BufferPool.getPage_spec h.agrees table
  refine ⟨hagrees, fun t ht => ?_, fun t ht => ?_⟩
  · exact (congrFun hview t).trans (h.kept t ht)
  · refine (congrFun hview t).trans ?_
    rcases hfiles t with hfile | hfile
    · exact (h.lost t ht).trans hfile.symm
    · exact hfile.symm

/-- After a `write_page` the rows of a table are those written, those of its file where they were
dropped, or as before. -/
theorem writePage_sound (h : s.Sound) (table : String) (rows : List Row) :
    (s.step (.writePage table rows)).Sound := by
  obtain ⟨hview, hagrees⟩ := BufferPool.writePage_spec h.agrees table rows
  have hafter : ∀ t, t ≠ table → (s.pool.writePage table rows).view s.disk t =
      s.pool.afterDrop s.disk table t := fun t ht => by
    rw [hview, update_of_ne ht]
  refine ⟨hagrees, fun t ht => ?_, fun t ht => ?_⟩
  · by_cases heq : t = table
    · subst heq
      change (s.pool.writePage t rows).view s.disk t = update s.latest t rows t
      rw [hview, update_self, update_self]
    · change (s.pool.writePage table rows).view s.disk t = update s.latest table rows t
      rw [hafter t heq, update_of_ne heq, BufferPool.afterDrop]
      have hnot : t ∉ s.dropped ∧ t ∉ (s.pool.droppedBy table).toFinset := by
        have hunion : t ∉ s.dropped ∪ (s.pool.droppedBy table).toFinset := fun hin =>
          ht (Finset.mem_erase.mpr ⟨heq, hin⟩)
        rwa [Finset.mem_union, not_or] at hunion
      cases hdrop : s.pool.droppedBy table with
      | none => exact h.kept t hnot.1
      | some key =>
        have hkey : t ≠ key := by
          rintro rfl
          exact hnot.2 (by rw [hdrop, Option.mem_toFinset]; rfl)
        exact (update_of_ne hkey _ _).trans (h.kept t hnot.1)
  · obtain ⟨heq, hin⟩ := Finset.mem_erase.mp ht
    change (s.pool.writePage table rows).view s.disk t = s.disk t
    rw [hafter t heq, BufferPool.afterDrop]
    cases hdrop : s.pool.droppedBy table with
    | none =>
      rw [hdrop] at hin
      exact h.lost t (by simpa using hin)
    | some key =>
      by_cases hkey : t = key
      · subst hkey
        exact update_self ..
      · rw [hdrop] at hin
        have hbefore : t ∈ s.dropped := by simpa [hkey] using hin
        exact (update_of_ne hkey _ _).trans (h.lost t hbefore)

theorem writeThrough_sound (h : s.Sound) (table : String) (rows : List Row) (keepTxn : ℕ) :
    (s.step (.writeThrough table rows keepTxn)).Sound := by
  obtain ⟨hview, hagrees⟩ := BufferPool.writeThrough_spec h.agrees table rows keepTxn
  refine ⟨hagrees, fun t ht => ?_, fun t ht => ?_⟩
  · refine (congrFun hview t).trans ?_
    change _ = update s.latest table rows t
    by_cases heq : t = table
    · subst heq
      rw [update_self, update_self]
    · rw [update_of_ne heq, update_of_ne heq]
      exact h.kept t fun hin => ht (Finset.mem_erase.mpr ⟨heq, hin⟩)
  · obtain ⟨heq, hin⟩ := Finset.mem_erase.mp ht
    refine (congrFun hview t).trans ?_
    rw [update_of_ne heq, h.lost t hin]
    exact (update_of_ne heq _ _).symm

theorem flushAll_sound (h : s.Sound) : (s.step .flushAll).Sound := by
  obtain ⟨hview, hagrees, hdisk⟩ := BufferPool.flushAll_spec h.agrees
  refine ⟨hagrees, fun t ht => ?_, fun t _ => ?_⟩
  · exact (congrFun hview t).trans (h.kept t ht)
  · exact (congrFun hview t).trans (congrFun hdisk t).symm

theorem step_sound (h : s.Sound) (call : PoolCall) : (s.step call).Sound := by
  cases call with
  | getPage table => exact getPage_sound h table
  | writePage table rows => exact writePage_sound h table rows
  | writeThrough table rows keepTxn => exact writeThrough_sound h table rows keepTxn
  | flushAll => exact flushAll_sound h

theorem foldl_sound : ∀ (calls : List PoolCall) {s : PoolRun}, s.Sound → (calls.foldl step s).Sound
  | [], _, h => h
  | call :: calls, _, h => foldl_sound calls (step_sound h call)

end

/-- After any calls, `get_page` answers the latest rows of every table whose rows `write_page` has
not dropped since, and `flush_all` writes them to its file; of a table whose rows have been dropped
`get_page` answers the file, and `flush_all` leaves it. -/
theorem getPage_latest (capacity : ℕ) (disk : TableFiles) (calls : List PoolCall) (table : String) :
    let s := calls.foldl step (start capacity disk)
    (table ∉ s.dropped → (s.pool.getPage s.disk table).1 = s.latest table ∧
      (s.pool.flushAll s.disk).2 table = s.latest table) ∧
    (table ∈ s.dropped → (s.pool.getPage s.disk table).1 = s.disk table ∧
      (s.pool.flushAll s.disk).2 table = s.disk table) := by
  intro s
  have h : s.Sound := foldl_sound calls (start_sound capacity disk)
  have hget := (BufferPool.getPage_spec h.agrees table).1
  have hflush := congrFun (BufferPool.flushAll_spec h.agrees).2.2 table
  rw [hget, hflush]
  exact ⟨fun hkept => ⟨h.kept table hkept, h.kept table hkept⟩,
    fun hlost => ⟨h.lost table hlost, h.lost table hlost⟩⟩

def twoWrites : List PoolCall :=
  [.writePage "orders" [Row.ofCells [("id", "1")]], .writePage "items" []]

theorem writePage_loses_rows : ¬ ∀ (capacity : ℕ) (disk : TableFiles) (calls : List PoolCall)
    (table : String), 1 ≤ capacity →
    let s := calls.foldl step (start capacity disk)
    (s.pool.getPage s.disk table).1 = s.latest table := by
  intro h
  have hrows := h 1 (fun _ => []) twoWrites "orders" le_rfl
  exact absurd hrows (by decide)

end PoolRun

end RusqlEngine
