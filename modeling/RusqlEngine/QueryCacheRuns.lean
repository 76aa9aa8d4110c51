import RusqlEngine.QueryCache

/-!
# Readers and writers of the result cache

A reader reads the generations of its query's tables, runs the query on the tables as they are and
puts the result into the cache. A writer changes a table and later invalidates it. The steps of any
number of sessions come in any order, and the invalidations and clearings are noted as they happen.
-/

namespace RusqlEngine

open Transition QueryResultCache Function

/-- The queries: the tables each one reads, and the text it answers from their contents. -/
structure Queries (Contents : Type*) where
  tables : String → List String
  answer : String → (String → Contents) → String
  reads_only : ∀ {key contents contents'}, (∀ t ∈ tables key, contents t = contents' t) →
    answer key contents = answer key contents'

/-- A text, and how many invalidations and clearings there had been when the generations of its
tables were read. The cache does not look at it. -/
structure Answer where
  text : String
  readAt : ℕ

/-- How far a session is with its query. -/
inductive CacheReader
  | idle
  | reading (key : String) (tableGens : List (String × ℕ)) (readAt : ℕ)
  | computed (key : String) (tableGens : List (String × ℕ)) (answer : Answer)

inductive CacheEvent
  | invalidated (table : String)
  | cleared
deriving DecidableEq

inductive CacheStep (Contents : Type*)
  | readGenerations (session : ℕ) (key : String)
  | compute (session : ℕ)
  | put (session : ℕ)
  | get (key : String)
  | change (table : String) (contents : Contents)
  | invalidateTable (table : String)
  | clear

/-- The cache, the tables and the sessions; `history` has the latest event first, `pending` are the
tables changed and not yet invalidated. -/
structure CachedQueries (Contents : Type*) where
  cache : QueryResultCache Answer
  tables : String → Contents
  readers : ℕ → CacheReader
  history : List CacheEvent
  pending : Finset String

namespace CachedQueries

variable {Contents : Type*}

def start (capacity : ℕ) (tables : String → Contents) : CachedQueries Contents where
  cache := .empty capacity
  tables := tables
  readers := fun _ => .idle
  history := []
  pending := ∅

def goOn (s : CachedQueries Contents) (session : ℕ)
    (reader : CacheReader) : CachedQueries Contents :=
  { s with readers := update s.readers session reader }

def readGenerations (q : Queries Contents) (s : CachedQueries Contents) (session : ℕ)
    (key : String) : CachedQueries Contents :=
  s.goOn session (.reading key ((q.tables key).map fun t => (t, s.cache.tableGeneration t))
    s.history.length)

def compute (q : Queries Contents) (s : CachedQueries Contents) (session : ℕ) :
    Option (CachedQueries Contents) :=
  match s.readers session with
  | .reading key tableGens readAt =>
    some (s.goOn session (.computed key tableGens ⟨q.answer key s.tables, readAt⟩))
  | _ => none

def put (s : CachedQueries Contents) (session : ℕ) : Option (CachedQueries Contents) :=
  match s.readers session with
  | .computed key tableGens answer =>
    some { s.goOn session .idle with cache := s.cache.put key answer tableGens }
  | _ => none

def change (s : CachedQueries Contents) (table : String) (contents : Contents) :
    CachedQueries Contents :=
  { s with
    tables := update s.tables table contents
    pending := insert table s.pending }

def invalidateTable (s : CachedQueries Contents) (table : String) : CachedQueries Contents :=
  { s with
    cache := s.cache.invalidateTable table
    history := .invalidated table :: s.history
    pending := s.pending.erase table }

def clear (s : CachedQueries Contents) : CachedQueries Contents :=
  { s with cache := s.cache.clear, history := .cleared :: s.history }

def step (q : Queries Contents) (s : CachedQueries Contents) :
    CacheStep Contents → Option (CachedQueries Contents)
  | .readGenerations session key => some (readGenerations q s session key)
  | .compute session => compute q s session
  | .put session => s.put session
  | .get key => some { s with cache := (s.cache.get key).2 }
  | .change table contents => some (s.change table contents)
  | .invalidateTable table => some (s.invalidateTable table)
  | .clear => some s.clear

def since (s : CachedQueries Contents) (readAt : ℕ) : List CacheEvent :=
  s.history.take (s.history.length - readAt)

/-- Whatever is given out bears generations read after the last invalidation of its tables and after
the last clearing. -/
def Fresh (s : CachedQueries Contents) : Prop :=
  ∀ key answer, (s.cache.get key).1 = some answer →
    ∃ e, s.cache.entries.lookup key = some e ∧ e.result = answer ∧
      (∀ tg ∈ e.tableGens, .invalidated tg.1 ∉ s.since answer.readAt) ∧
      .cleared ∉ s.since answer.readAt

/-- A result is put that is given out only if the cache was not cleared since its generations were
read. -/
def noLatePut (s : CachedQueries Contents) : CacheStep Contents → Prop
  | .put session => ∀ key tableGens answer, s.readers session = .computed key tableGens answer →
      key ∉ s.cache.entries → s.cache.Current tableGens → .cleared ∉ s.since answer.readAt
  | _ => True

/-- The generations are those of the moment: what has been added to them since is one for each
invalidation. -/
structure Stamped (s : CachedQueries Contents) (tableGens : List (String × ℕ)) (readAt : ℕ) :
    Prop where
  readAt_le : readAt ≤ s.history.length
  counts : ∀ tg ∈ tableGens, tg.2 + (s.since readAt).count (.invalidated tg.1) =
    s.cache.tableGeneration tg.1

def ReaderSound (s : CachedQueries Contents) : CacheReader → Prop
  | .idle => True
  | .reading _ tableGens readAt => s.Stamped tableGens readAt
  | .computed _ tableGens answer => s.Stamped tableGens answer.readAt

structure Sound (s : CachedQueries Contents) : Prop where
  indexed : s.cache.Indexed
  readers : ∀ session, s.ReaderSound (s.readers session)
  entries : ∀ key e, s.cache.entries.lookup key = some e → s.Stamped e.tableGens e.result.readAt

section

variable {q : Queries Contents} {s s' : CachedQueries Contents} {tableGens : List (String × ℕ)}
  {readAt : ℕ} {session : ℕ}

theorem start_sound (capacity : ℕ) (tables : String → Contents) :
    (start capacity tables).Sound where
  indexed := empty_indexed capacity
  readers := fun _ => trivial
  entries := fun _ _ h => by cases h

theorem since_length (s : CachedQueries Contents) : s.since s.history.length = [] := by
  rw [since, Nat.sub_self, List.take_zero]

theorem since_cons {event : CacheEvent} (hhistory : s'.history = event :: s.history)
    (h : readAt ≤ s.history.length) : s'.since readAt = event :: s.since readAt := by
  rw [since, hhistory, List.length_cons, Nat.succ_sub h, List.take_succ_cons, since]

theorem Stamped.congr (h : s.Stamped tableGens readAt) (hhistory : s'.history = s.history)
    (hgeneration : s'.cache.tableGeneration = s.cache.tableGeneration) :
    s'.Stamped tableGens readAt where
  readAt_le := by
    rw [hhistory]
    exact h.readAt_le
  counts := fun tg htg => by
    rw [since, hhistory, hgeneration]
    exact h.counts tg htg

theorem Stamped.invalidateTable (h : s.Stamped tableGens readAt) (table : String) :
    (s.invalidateTable table).Stamped tableGens readAt where
  readAt_le := h.readAt_le.trans (Nat.le_succ _)
  counts := fun tg htg => by
    rw [since_cons (s := s) rfl h.readAt_le, List.count_cons]
    change _ = update s.cache.tableGeneration table _ tg.1
    have hcount := h.counts tg htg
    by_cases heq : tg.1 = table
    · rw [heq] at hcount ⊢
      rw [update_self, beq_self_eq_true, if_pos rfl]
      omega
    · rw [update_of_ne heq, if_neg (by simpa using Ne.symm heq)]
      exact hcount

theorem Stamped.clear (h : s.Stamped tableGens readAt) : s.clear.Stamped tableGens readAt where
  readAt_le := h.readAt_le.trans (Nat.le_succ _)
  counts := fun tg htg => by
    rw [since_cons (s := s) rfl h.readAt_le, List.count_cons, if_neg (by simp)]
    exact h.counts tg htg

theorem ReaderSound.mono {reader : CacheReader} (h : s.ReaderSound reader)
    (hstamped : ∀ tableGens readAt, s.Stamped tableGens readAt → s'.Stamped tableGens readAt) :
    s'.ReaderSound reader := by
  cases reader with
  | idle => trivial
  | reading key tableGens readAt | computed key tableGens answer => exact hstamped _ _ h

theorem goOn_readers (t : ℕ) (reader : CacheReader) :
    (s.goOn session reader).readers t = if t = session then reader else s.readers t :=
  update_apply ..

theorem Sound.goOn (h : s.Sound) {reader : CacheReader} (hreader : s.ReaderSound reader) :
    (s.goOn session reader).Sound where
  indexed := h.indexed
  readers := fun t => by
    have hstamped : ∀ tableGens readAt, s.Stamped tableGens readAt →
        (s.goOn session reader).Stamped tableGens readAt := fun _ _ hs => hs.congr rfl rfl
    rw [goOn_readers]
    split_ifs
    · exact hreader.mono hstamped
    · exact (h.readers t).mono hstamped
  entries := fun key e he => (h.entries key e he).congr rfl rfl

theorem readGenerations_sound (h : s.Sound) (session : ℕ) (key : String) :
    (readGenerations q s session key).Sound := by
  refine h.goOn ⟨le_rfl, fun tg htg => ?_⟩
  obtain ⟨t, -, rfl⟩ := List.mem_map.mp htg
  rw [since_length, List.count_nil]
  rfl

theorem compute_sound (h : s.Sound) (hstep : compute q s session = some s') : s'.Sound := by
  have hreader := h.readers session
  rw [compute] at hstep
  cases hphase : s.readers session with
  | idle | computed key tableGens answer => simp [hphase] at hstep
  | reading key tableGens readAt =>
    rw [hphase] at hstep hreader
    cases hstep
    exact h.goOn hreader

theorem put_eq_some (hstep : s.put session = some s') : ∃ key tableGens answer,
    s.readers session = .computed key tableGens answer ∧
      s' = { s.goOn session .idle with cache := s.cache.put key answer tableGens } := by
  rw [put] at hstep
  cases hphase : s.readers session with
  | idle | reading key tableGens readAt => simp [hphase] at hstep
  | computed key tableGens answer =>
    rw [hphase] at hstep
    exact ⟨key, tableGens, answer, rfl, (Option.some.inj hstep).symm⟩

theorem put_sound (h : s.Sound) (hstep : s.put session = some s') : s'.Sound := by
  obtain ⟨key, tableGens, answer, hphase, rfl⟩ := put_eq_some hstep
  have hreader := h.readers session
  rw [hphase] at hreader
  have hstamped : ∀ gens readAt, s.Stamped gens readAt → ({ s.goOn session .idle with
      cache := s.cache.put key answer tableGens } : CachedQueries Contents).Stamped gens readAt :=
    fun _ _ hs => hs.congr rfl (s.cache.put_tableGeneration key answer tableGens)
  have hidle : (s.goOn session .idle).Sound := h.goOn trivial
  refine ⟨h.indexed.put key answer tableGens, fun t => ?_, fun j e he => hstamped _ _ ?_⟩
  · exact (hidle.readers t).mono fun _ _ hs => hstamped _ _ (hs.congr rfl rfl)
  · rcases lookup_put he with he | ⟨-, -, rfl⟩
    · exact h.entries j e he
    · exact hreader

theorem get_sound (h : s.Sound) (key : String) :
    ({ s with cache := (s.cache.get key).2 } : CachedQueries Contents).Sound := by
  have hkept : (s.cache.get key).2.tableGeneration = s.cache.tableGeneration ∧
      ∀ j e, (s.cache.get key).2.entries.lookup j = some e →
        s.cache.entries.lookup j = some e := by
    rcases s.cache.get_snd key with heq | heq
    · rw [heq]
      exact ⟨rfl, fun _ _ he => he⟩
    · rw [heq]
      exact ⟨rfl, fun _ _ he => lookup_drop he⟩
  have hstamped : ∀ gens readAt, s.Stamped gens readAt → ({ s with
      cache := (s.cache.get key).2 } : CachedQueries Contents).Stamped gens readAt :=
    fun _ _ hs => hs.congr rfl hkept.1
  exact ⟨h.indexed.get key, fun t => (h.readers t).mono hstamped,
    fun j e he => hstamped _ _ (h.entries j e (hkept.2 j e he))⟩

theorem change_sound (h : s.Sound) (table : String) (contents : Contents) :
    (s.change table contents).Sound :=
  ⟨h.indexed, fun t => (h.readers t).mono fun _ _ hs => hs.congr rfl rfl,
    fun j e he => (h.entries j e he).congr rfl rfl⟩

theorem invalidateTable_sound (h : s.Sound) (table : String) : (s.invalidateTable table).Sound :=
  ⟨h.indexed.invalidateTable table,
    fun t => (h.readers t).mono fun _ _ hs => hs.invalidateTable table,
    fun j e he =>
      (h.entries j e (lookup_invalidateTable he)).invalidateTable table⟩

theorem clear_sound (h : s.Sound) : s.clear.Sound :=
  ⟨s.cache.clear_indexed, fun t => (h.readers t).mono fun _ _ hs => hs.clear,
    fun _ _ he => by cases he⟩

theorem step_sound (h : s.Sound) {a : CacheStep Contents} (hstep : step q s a = some s') :
    s'.Sound := by
  cases a with
  | readGenerations session key =>
    cases hstep
    exact readGenerations_sound h session key
  | compute session => exact compute_sound h hstep
  | put session => exact put_sound h hstep
  | get key =>
    cases hstep
    exact get_sound h key
  | change table contents =>
    cases hstep
    exact change_sound h table contents
  | invalidateTable table =>
    cases hstep
    exact invalidateTable_sound h table
  | clear =>
    cases hstep
    exact clear_sound h

end

/-- No entry whose generations are current was cleared away before it was put. -/
def Unexposed (s : CachedQueries Contents) : Prop :=
  ∀ key e, s.cache.entries.lookup key = some e → s.cache.Current e.tableGens →
    .cleared ∉ s.since e.result.readAt

section

variable {q : Queries Contents} {s s' : CachedQueries Contents} {tableGens : List (String × ℕ)}
  {readAt : ℕ}

theorem Stamped.not_invalidated (h : s.Stamped tableGens readAt)
    (hcurrent : s.cache.Current tableGens) :
    ∀ tg ∈ tableGens, .invalidated tg.1 ∉ s.since readAt := by
  intro tg htg
  have hcount := h.counts tg htg
  rw [hcurrent tg htg] at hcount
  exact List.count_eq_zero.mp (by omega)

theorem Stamped.not_mem_of_current {table : String} (h : s.Stamped tableGens readAt)
    (hcurrent : (s.invalidateTable table).cache.Current tableGens) :
    s.cache.Current tableGens ∧ ∀ tg ∈ tableGens, tg.1 ≠ table := by
  have hne : ∀ tg ∈ tableGens, tg.1 ≠ table := by
    intro tg htg heq
    have hcount := h.counts tg htg
    have hnow : update s.cache.tableGeneration table _ tg.1 = tg.2 := hcurrent tg htg
    rw [heq] at hcount hnow
    rw [update_self] at hnow
    omega
  refine ⟨fun tg htg => ?_, hne⟩
  have hnow : update s.cache.tableGeneration table _ tg.1 = tg.2 := hcurrent tg htg
  rwa [update_of_ne (hne tg htg)] at hnow

theorem fresh_iff (h : s.Sound) : s.Fresh ↔ s.Unexposed := by
  constructor
  · intro hfresh key e he hcurrent
    obtain ⟨e', he', -, -, hclear⟩ :=
      hfresh key e.result (get_eq_some_iff.mpr ⟨e, he, hcurrent, rfl⟩)
    obtain rfl := Option.some.inj (he'.symm.trans he)
    exact hclear
  · intro hunexposed key answer hget
    obtain ⟨e, he, hcurrent, rfl⟩ := get_eq_some_iff.mp hget
    exact ⟨e, he, rfl, (h.entries key e he).not_invalidated hcurrent, hunexposed key e he hcurrent⟩

theorem Unexposed.of_subset (h : s.Unexposed) (hhistory : s'.history = s.history)
    (hgeneration : s'.cache.tableGeneration = s.cache.tableGeneration)
    (hentries : ∀ key e, s'.cache.entries.lookup key = some e →
      s.cache.entries.lookup key = some e) : s'.Unexposed := by
  intro key e he hcurrent
  rw [since, hhistory]
  refine h key e (hentries key e he) fun tg htg => ?_
  rw [← hgeneration]
  exact hcurrent tg htg

theorem put_unexposed_iff {session : ℕ} (h : s.Unexposed) : s.noLatePut (.put session) ↔
    ∀ s', s.put session = some s' → s'.Unexposed := by
  constructor
  · intro hok s' hstep
    obtain ⟨key, tableGens, answer, hphase, rfl⟩ := put_eq_some hstep
    have hgeneration := s.cache.put_tableGeneration key answer tableGens
    intro j e he hcurrent
    have hbefore : s.cache.Current e.tableGens := fun tg htg => by
      rw [← hgeneration]
      exact hcurrent tg htg
    rcases lookup_put he with he | ⟨hnew, -, rfl⟩
    · exact h j e he hbefore
    · exact hok key tableGens answer hphase hnew hbefore
  · intro hafter key tableGens answer hphase hnew hcurrent
    have hunexposed := hafter _ (by rw [put, hphase])
    refine hunexposed key ⟨answer, tableGens⟩ (lookup_put_self hnew) ?_
    intro tg htg
    change (s.cache.put key answer tableGens).tableGeneration tg.1 = tg.2
    rw [s.cache.put_tableGeneration]
    exact hcurrent tg htg

theorem invalidateTable_unexposed (hs : s.Sound) (h : s.Unexposed) (table : String) :
    (s.invalidateTable table).Unexposed := by
  intro key e he hcurrent
  have hbefore := lookup_invalidateTable he
  have hstamped := hs.entries key e hbefore
  rw [since_cons (s := s) rfl hstamped.readAt_le, List.mem_cons, not_or]
  exact ⟨CacheEvent.noConfusion, h key e hbefore (hstamped.not_mem_of_current hcurrent).1⟩

theorem noLatePut_iff (hs : s.Sound) (h : s.Unexposed) (a : CacheStep Contents) :
    s.noLatePut a ↔ ∀ s', step q s a = some s' → s'.Unexposed := by
  cases a with
  | put session => exact put_unexposed_iff h
  | readGenerations session key | change table contents =>
    refine iff_of_true trivial fun s' hstep => ?_
    cases hstep
    exact h.of_subset rfl rfl fun _ _ he => he
  | compute session =>
    refine iff_of_true trivial fun s' hstep => ?_
    rw [step, compute] at hstep
    cases hphase : s.readers session with
    | idle | computed key tableGens answer => simp [hphase] at hstep
    | reading key tableGens readAt =>
      rw [hphase] at hstep
      cases hstep
      exact h.of_subset rfl rfl fun _ _ he => he
  | get key =>
    refine iff_of_true trivial fun s' hstep => ?_
    cases hstep
    rcases s.cache.get_snd key with heq | heq
    · exact h.of_subset rfl (by rw [heq]) fun _ _ he => by rwa [heq] at he
    · exact h.of_subset rfl (by rw [heq]; rfl) fun _ _ he => by
        rw [heq] at he
        exact lookup_drop he
  | invalidateTable table =>
    refine iff_of_true trivial fun s' hstep => ?_
    cases hstep
    exact invalidateTable_unexposed hs h table
  | clear =>
    refine iff_of_true trivial fun s' hstep => ?_
    cases hstep
    exact fun _ _ he => by cases he

end

/-- A run keeps the cache fresh exactly when none of its puts comes with generations that were read
before a clearing, and its maps have the same keys, within the capacity, in any case. -/
theorem fresh_throughout_iff (q : Queries Contents) (capacity : ℕ) (tables : String → Contents)
    (steps : List (CacheStep Contents)) :
    throughout (step q) (fun s => s.Fresh ∧ s.cache.Indexed) (start capacity tables) steps ↔
      execOk (step q) noLatePut (start capacity tables) steps := by
  have hstart : (start capacity tables).Unexposed := fun _ _ he => by cases he
  refine throughout_iff_execOk (I := Sound) (fun s a s' hs h => step_sound hs h) ?_ steps
    (start_sound capacity tables)
    ⟨(fresh_iff (start_sound capacity tables)).mpr hstart, (start_sound capacity tables).indexed⟩
  intro s a hs hfresh
  rw [noLatePut_iff (q := q) hs ((fresh_iff hs).mp hfresh.1) a]
  refine forall₂_congr fun s' hstep => ?_
  have hs' : s'.Sound := step_sound hs hstep
  rw [fresh_iff hs', and_iff_left hs'.indexed]

/-- One query, of one table whose contents are its text. -/
def oneQuery : Queries String where
  tables := fun _ => ["rates"]
  answer := fun _ contents => contents "rates"
  reads_only := fun h => h "rates" (List.mem_singleton_self _)

def clearedBeforePut : List (CacheStep String) :=
  [.readGenerations 1 "SELECT * FROM rates", .compute 1, .clear, .put 1]

theorem clear_not_seen : ¬ throughout (step oneQuery) (fun s => s.Fresh ∧ s.cache.Indexed)
    (start 512 fun _ => "7") clearedBeforePut := by
  intro h
  obtain ⟨s, hs⟩ : ∃ s, exec (step oneQuery) (start 512 fun _ => "7") clearedBeforePut = some s :=
    ⟨_, rfl⟩
  have hfresh := (throughout_end clearedBeforePut h hs).1
  cases hs
  obtain ⟨e, he, -, -, hclear⟩ := hfresh "SELECT * FROM rates" ⟨"7", 0⟩ (by rfl)
  exact hclear (by decide)

end CachedQueries

end RusqlEngine
