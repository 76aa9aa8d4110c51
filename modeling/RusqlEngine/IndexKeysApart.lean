import RusqlEngine.IndexKeys
import RusqlEngine.Library.Transition
import Mathlib.Data.String.Basic

/-!
# DDL that stays with its table

A statement leaves the other tables alone while no key it writes or moves is the key of another
table's tree or index. The primary-key trees and the trees of indexes share one map, so the name
of a table must be no key of an index; that holds of every store such statements lead to.
-/

namespace RusqlEngine.IndexKeys

open KeyMap Store Transition Finmap

variable {ρ τ η γ : Type}

/-! ### What belongs to a table -/

/-- What queries find of a table: its rows, its tree, and under the keys of its indexes what
these hold. -/
structure View (ρ τ η γ : Type) where
  rows : Option ρ
  tree : Option τ
  secondary : String → Option (String × Option τ)
  hash : String → Option (String × Option (HashIndex η))
  composite : String → Option (CompositeIndex γ)

namespace Store

variable (s : Store ρ τ η γ)

def view (table : String) : View ρ τ η γ where
  rows := s.tables.lookup table
  tree := s.indexes.lookup table
  secondary k := (s.indexMeta.lookup k).bind fun entry =>
    if entry.1 = table then some (entry.2, s.indexes.lookup k) else none
  hash k := (s.hashIndexMeta.lookup k).bind fun entry =>
    if entry.1 = table then some (entry.2, s.hashIndexes.lookup k) else none
  composite k := (s.compositeIndexes.lookup k).bind fun ci =>
    if ci.table = table then some ci else none

/-- `k` is the name of another table, or the key of an index of one. -/
def treeOfOther (table k : String) : Prop :=
  (k ∈ s.tables ∧ k ≠ table) ∨ ∃ u column, s.indexMeta.lookup k = some (u, column) ∧ u ≠ table

/-- `k` is the key of a hash index of another table. -/
def hashOfOther (table k : String) : Prop :=
  ∃ u column, s.hashIndexMeta.lookup k = some (u, column) ∧ u ≠ table

/-- The table an index to be dropped is of. -/
def victimTable : Victim → Option String
  | .tree key => (s.indexMeta.lookup key).map Prod.fst
  | .hash key => (s.hashIndexMeta.lookup key).map Prod.fst
  | .composite key => (s.compositeIndexes.lookup key).map CompositeIndex.table

end Store

/-- A table or an index, as an owner of an entry of `s.indexes`. -/
inductive Owner
  | table (name : String)
  | index (table name : String)
deriving DecidableEq

def Owner.key : Owner → String
  | .table t => t
  | .index t name => indexKey t name

def Store.Has (s : Store ρ τ η γ) : Owner → Prop
  | .table t => t ∈ s.tables
  | .index t name => ∃ column, s.indexMeta.lookup (indexKey t name) = some (t, column)

/-- No two tables or indexes share an entry of `s.indexes`. -/
def Store.OwnEntries (s : Store ρ τ η γ) : Prop :=
  ∀ o o', s.Has o → s.Has o' → o.key = o'.key → o = o'

/-- The keys of indexes name their tables, and are no names of tables. -/
structure Store.Good (s : Store ρ τ η γ) : Prop where
  apart : ∀ k ∈ s.tables, k ∉ s.indexMeta
  named : ∀ k table column, s.indexMeta.lookup k = some (table, column) →
    ∃ name, k = indexKey table name

variable {table name : String}

theorem indexKey_inj {name' : String} (h : indexKey table name = indexKey table name') :
    name = name' := by
  have hlist := congrArg String.toList h
  simp only [indexKey, String.toList_append, List.append_assoc] at hlist
  exact String.toList_inj.mp (List.append_cancel_left (List.append_cancel_left hlist))

theorem indexKey_ne : indexKey table name ≠ table := by
  intro h
  have hlist := congrArg String.toList h
  simp only [indexKey, String.toList_append, List.append_assoc] at hlist
  have hlen := congrArg List.length hlist
  rw [List.length_append, List.length_append, show "_".toList.length = 1 from rfl] at hlen
  omega

theorem Store.Good.ownEntries {s : Store ρ τ η γ} (h : s.Good) : s.OwnEntries := by
  have hcross : ∀ {t u n : String} {c : String}, t ∈ s.tables →
      s.indexMeta.lookup (indexKey u n) = some (u, c) → t ≠ indexKey u n := by
    rintro t u n c ht hmeta rfl
    exact h.apart _ ht (mem_of_lookup_eq_some hmeta)
  rintro (t | ⟨u, n⟩) (t' | ⟨u', n'⟩) ho ho' hkey
  · exact congrArg Owner.table hkey
  · obtain ⟨c, hc⟩ := ho'
    exact absurd hkey (hcross ho hc)
  · obtain ⟨c, hc⟩ := ho
    exact absurd hkey.symm (hcross ho' hc)
  · obtain ⟨c, hc⟩ := ho
    obtain ⟨c', hc'⟩ := ho'
    simp only [Owner.key] at hkey
    rw [← hkey, hc, Option.some.injEq, Prod.mk.injEq] at hc'
    obtain ⟨rfl, -⟩ := hc'
    rw [indexKey_inj hkey]

variable {s' : Store ρ τ η γ}

/-- Tables are found alike where their entries are. -/
theorem view_eq {s : Store ρ τ η γ} {u : String} (hrows : s'.tables.lookup u = s.tables.lookup u)
    (htree : s'.indexes.lookup u = s.indexes.lookup u)
    (hmeta : ∀ k c, s'.indexMeta.lookup k = some (u, c) ↔ s.indexMeta.lookup k = some (u, c))
    (hindex : ∀ k c, s.indexMeta.lookup k = some (u, c) → s'.indexes.lookup k = s.indexes.lookup k)
    (hhashMeta : ∀ k c, s'.hashIndexMeta.lookup k = some (u, c) ↔
      s.hashIndexMeta.lookup k = some (u, c))
    (hhash : ∀ k c, s.hashIndexMeta.lookup k = some (u, c) →
      s'.hashIndexes.lookup k = s.hashIndexes.lookup k) (hcomposite : ∀ k ci, ci.table = u →
      (s'.compositeIndexes.lookup k = some ci ↔ s.compositeIndexes.lookup k = some ci)) :
    s'.view u = s.view u := by
  have hof : ∀ {α β : Type} {tableOf : α → String} {f f' : α → β} (o o' : Option α),
      (∀ e, tableOf e = u → (o' = some e ↔ o = some e)) →
      (∀ e, o = some e → tableOf e = u → f' e = f e) →
      (o'.bind fun e => if tableOf e = u then some (f' e) else none) =
        o.bind fun e => if tableOf e = u then some (f e) else none := by
    intro α β tableOf f f' o o' hiff hf
    refine Option.ext fun x => ?_
    simp only [Option.bind_eq_some_iff, Option.ite_none_right_eq_some]
    constructor
    · rintro ⟨e, he, ht, hx⟩
      have ho := (hiff e ht).mp he
      exact ⟨e, ho, ht, by rw [← hf e ho ht, hx]⟩
    · rintro ⟨e, he, ht, hx⟩
      exact ⟨e, (hiff e ht).mpr he, ht, by rw [hf e he ht, hx]⟩
  rw [view, view, hrows, htree, View.mk.injEq]
  refine ⟨rfl, rfl, funext fun k => ?_, funext fun k => ?_, funext fun k => ?_⟩
  · refine hof _ _ ?_ ?_
    · rintro ⟨_, c⟩ rfl
      exact hmeta k c
    · rintro ⟨_, c⟩ he rfl
      rw [hindex k c he]
  · refine hof _ _ ?_ ?_
    · rintro ⟨_, c⟩ rfl
      exact hhashMeta k c
    · rintro ⟨_, c⟩ he rfl
      rw [hhash k c he]
  · exact hof _ _ (fun ci => hcomposite k ci) fun _ _ _ => rfl

/-! ### Statements -/

variable {b : Builder ρ τ η γ} {s : Store ρ τ η γ} {α : Type} {m : Map α}

theorem mem_keysWhere {tableOf : α → String} {k : String} :
    k ∈ keysWhere b m tableOf table ↔ ∃ v, m.lookup k = some v ∧ tableOf v = table := by
  rw [keysWhere, keysOf, List.mem_filter, b.order.mem_keys, mem_keys]
  constructor
  · rintro ⟨-, h⟩
    cases hv : m.lookup k with
    | none => simp [hv] at h
    | some v => exact ⟨v, rfl, by simpa [hv] using h⟩
  · rintro ⟨v, hv, ht⟩
    exact ⟨mem_of_lookup_eq_some hv, by simp [hv, ht]⟩

/-- Of every index whose key fits in the first map that has one, the table is `table`. -/
def Store.DropApart (s : Store ρ τ η γ) (indexName : String) (on : Option String)
    (table : String) : Prop :=
  let fits := fun k => hasSuffix indexName on k = true
  (∀ k entry, s.indexMeta.lookup k = some entry → fits k → entry.1 = table) ∧
    ((∀ k ∈ s.indexMeta, ¬ fits k) →
      (∀ k entry, s.hashIndexMeta.lookup k = some entry → fits k → entry.1 = table) ∧
        ((∀ k ∈ s.hashIndexMeta, ¬ fits k) →
          ∀ k ci, s.compositeIndexes.lookup k = some ci → fits k → ci.table = table))

theorem find?_keysOf {fits : String → Bool} {key : String}
    (h : (keysOf b m).find? fits = some key) : ∃ v, m.lookup key = some v ∧ fits key := by
  have hmem := List.mem_of_find?_eq_some h
  rw [keysOf, b.order.mem_keys, mem_keys] at hmem
  obtain ⟨v, hv⟩ := mem_iff.mp hmem
  exact ⟨v, hv, List.find?_some h⟩

theorem find?_keysOf_eq_none {fits : String → Bool} (h : (keysOf b m).find? fits = none) :
    ∀ k ∈ m, ¬ fits k := fun k hk =>
  List.find?_eq_none.mp h k ((b.order.mem_keys _ k).mpr (mem_keys.mpr hk))

variable {indexName : String} {on : Option String} {victim : Victim}

/-- What an index that is taken is an entry of. -/
theorem dropVictim_cases (h : dropVictim b s indexName on = some victim) :
    (∃ key entry, victim = .tree key ∧ s.indexMeta.lookup key = some entry ∧
      hasSuffix indexName on key) ∨
    (∀ k ∈ s.indexMeta, ¬ hasSuffix indexName on k) ∧
      ((∃ key entry, victim = .hash key ∧ s.hashIndexMeta.lookup key = some entry ∧
        hasSuffix indexName on key) ∨
      (∀ k ∈ s.hashIndexMeta, ¬ hasSuffix indexName on k) ∧
        ∃ key ci, victim = .composite key ∧ s.compositeIndexes.lookup key = some ci ∧
          hasSuffix indexName on key) := by
  rw [dropVictim] at h
  split at h
  · rename_i key hkey
    obtain ⟨entry, hentry, hfits⟩ := find?_keysOf hkey
    exact .inl ⟨key, entry, (Option.some.inj h).symm, hentry, hfits⟩
  · rename_i hno
    refine .inr ⟨find?_keysOf_eq_none hno, ?_⟩
    split at h
    · rename_i key hkey
      obtain ⟨entry, hentry, hfits⟩ := find?_keysOf hkey
      exact .inl ⟨key, entry, (Option.some.inj h).symm, hentry, hfits⟩
    · rename_i hno
      obtain ⟨key, hkey, rfl⟩ := Option.map_eq_some_iff.mp h
      obtain ⟨ci, hci, hfits⟩ := find?_keysOf hkey
      exact .inr ⟨find?_keysOf_eq_none hno, key, ci, rfl, hci, hfits⟩

theorem victimTable_of_dropApart (h : s.DropApart indexName on table)
    (hvictim : dropVictim b s indexName on = some victim) : s.victimTable victim = some table := by
  obtain ⟨htree, hrest⟩ := h
  rcases dropVictim_cases hvictim with ⟨key, entry, rfl, hentry, hfits⟩ | ⟨hno, hcases⟩
  · rw [victimTable, hentry, Option.map_some, htree key entry hentry hfits]
  · obtain ⟨hhash, hrest⟩ := hrest hno
    rcases hcases with ⟨key, entry, rfl, hentry, hfits⟩ | ⟨hno, key, ci, rfl, hci, hfits⟩
    · rw [victimTable, hentry, Option.map_some, hhash key entry hentry hfits]
    · rw [victimTable, hci, Option.map_some, hrest hno key ci hci hfits]

theorem victimTable_isSome (hvictim : dropVictim b s indexName on = some victim) :
    ∃ table, s.victimTable victim = some table := by
  rcases dropVictim_cases hvictim with ⟨key, entry, rfl, hentry, -⟩ | ⟨-, hcases⟩
  · exact ⟨entry.1, by rw [victimTable, hentry, Option.map_some]⟩
  · rcases hcases with ⟨key, entry, rfl, hentry, -⟩ | ⟨-, key, ci, rfl, hci, -⟩
    · exact ⟨entry.1, by rw [victimTable, hentry, Option.map_some]⟩
    · exact ⟨ci.table, by rw [victimTable, hci, Option.map_some]⟩

/-- What a statement does to the tables it is not about. -/
def Frames (s : Store ρ τ η γ) (touches : String → Prop)
    (s' : Store ρ τ η γ) : Prop :=
  s'.Good ∧ ∀ u ∈ s.tables, ¬ touches u → s'.view u = s.view u

theorem frames_refl (hs : s.Good) (touches : String → Prop) : Frames s touches s :=
  ⟨hs, fun _ _ _ => rfl⟩

theorem execCreate_frames (hs : s.Good) {ifNotExists : Bool} {tree : τ}
    (hname : name ∈ s.tables ∨ name ∉ s.indexMeta)
    (h : execCreate b s name ifNotExists tree = .ok s') : Frames s (· = name) s' := by
  rw [execCreate] at h
  split_ifs at h with hskip hmem
  · obtain rfl := Except.ok.inj h
    exact frames_refl hs _
  · obtain rfl := Except.ok.inj h
    have hfree := hname.resolve_left hmem
    refine ⟨⟨fun k hk => ?_, hs.named⟩, fun u _ hu => ?_⟩
    · rcases mem_insert.mp hk with rfl | hk
      · exact hfree
      · exact hs.apart k hk
    · refine view_eq ?_ ?_ (fun _ _ => .rfl) (fun k c hk => ?_) (fun _ _ => .rfl)
        (fun _ _ _ => rfl) fun _ _ _ => .rfl
      · exact lookup_insert_of_ne _ hu
      · exact lookup_insert_of_ne _ hu
      · refine lookup_insert_of_ne _ ?_
        rintro rfl
        exact hfree (mem_of_lookup_eq_some hk)

theorem execDrop_frames (hs : s.Good) {ifExists referenced : Bool}
    (h : execDrop b s name ifExists referenced = .ok s') : Frames s (· = name) s' := by
  rw [execDrop] at h
  split_ifs at h with hskip href hmem
  · obtain rfl := Except.ok.inj h
    exact frames_refl hs _
  · obtain rfl := Except.ok.inj h
    have hkeep : ∀ {α : Type} {m : Map α} {tableOf : α → String} {u k : String} {v : α},
        tableOf v = u → u ≠ name → m.lookup k = some v →
        k ∉ keysWhere b m tableOf name := by
      intro α m tableOf u k v hv hu hk hin
      obtain ⟨w, hw, ht⟩ := mem_keysWhere.mp hin
      rw [hk, Option.some.injEq] at hw
      exact hu (hv.symm.trans (hw ▸ ht))
    refine ⟨⟨fun k hk => ?_, fun k t c hk => ?_⟩, fun u hu hne => ?_⟩
    · have hin := (mem_erase.mp hk).2
      rw [← lookup_eq_none, lookup_eraseAll, lookup_eq_none.mpr (hs.apart k hin), ite_self]
    · rw [lookup_eraseAll] at hk
      split_ifs at hk
      exact hs.named k t c hk
    · have hiff : ∀ {α : Type} {m : Map α} {tableOf : α → String} {k : String} {v : α},
          tableOf v = u → ((eraseAll (keysWhere b m tableOf name) m).lookup k = some v ↔
            m.lookup k = some v) := by
        intro α m tableOf k v hv
        rw [lookup_eraseAll]
        constructor
        · intro hk
          split_ifs at hk
          exact hk
        · intro hk
          rw [if_neg (hkeep hv hne hk), hk]
      have hkey : ∀ k c, s.indexMeta.lookup k = some (u, c) →
          k ∉ keysWhere b s.indexMeta Prod.fst name := fun k c hk => hkeep rfl hne hk
      refine view_eq ?_ ?_ (fun k c => hiff rfl) (fun k c hk => ?_) (fun k c => hiff rfl)
        (fun k c hk => ?_) fun k ci hci => hiff hci
      · exact lookup_erase_ne hne
      · rw [lookup_eraseAll, if_neg, lookup_erase_ne hne]
        intro hin
        obtain ⟨v, hv, -⟩ := mem_keysWhere.mp hin
        exact hs.apart u hu (mem_of_lookup_eq_some hv)
      · rw [lookup_eraseAll, if_neg (hkey k c hk), lookup_erase_ne]
        rintro rfl
        exact hs.apart _ hmem (mem_of_lookup_eq_some hk)
      · rw [lookup_eraseAll, if_neg (hkeep rfl hne hk)]

/-- No other table's name and no key of its indexes begins with the renamed table's name and an
underscore, is the new name, or is a key that is moved to. -/
structure Store.RenameApart (s : Store ρ τ η γ) (table newName : String) : Prop where
  name : ¬ s.treeOfOther table newName
  trees : ∀ k, k ∈ s.indexes ∨ k = newName → hasPrefix table k →
    ¬ s.treeOfOther table k ∧ ¬ s.treeOfOther table (movedKey table newName k)
  hashes : ∀ k ∈ s.hashIndexes, hasPrefix table k →
    ¬ s.hashOfOther table k ∧ ¬ s.hashOfOther table (movedKey table newName k)
  metas : ∀ k column, s.indexMeta.lookup k = some (table, column) →
    ¬ s.treeOfOther table (movedKey table newName k)

variable {newName : String}

theorem movedKey_indexKey :
    movedKey table newName (indexKey table name) = indexKey newName name := by
  rw [movedKey, indexKey, indexKey, ← String.toList_inj]
  simp [String.toList_append]

theorem mem_prefixed {k : String} :
    k ∈ (keysOf b m).filter (hasPrefix table) ↔ k ∈ m ∧ hasPrefix table k := by
  rw [List.mem_filter, keysOf, b.order.mem_keys, mem_keys]

theorem lookup_moveOwn {tableOf : α → String} {f : String → String} {g : α → α} {k u : String}
    {v : α} (hg : ∀ w, tableOf (g w) = newName) (hv : tableOf v = u) (hu : u ≠ table)
    (hnew : u ≠ newName) :
    (moveKeys f g (keysWhere b m tableOf table) m).lookup k = some v ↔
      m.lookup k = some v := by
  constructor
  · intro hk
    rcases lookup_moveKeys_eq_some hk with hold | ⟨w, rfl⟩
    · exact hold
    · exact absurd (hv.symm.trans (hg w)) hnew
  · intro hk
    rw [lookup_moveKeys ?_ (.inr (mem_of_lookup_eq_some hk)), hk]
    intro hin
    obtain ⟨w, hw, ht⟩ := mem_keysWhere.mp hin
    rw [hk, Option.some.injEq] at hw
    exact hu (hv.symm.trans (hw ▸ ht))

theorem renameTable_good (hs : s.Good) (hapart : s.RenameApart table newName)
    (h : renameTable b s table newName = .ok s') : s'.Good := by
  rw [renameTable] at h
  split_ifs at h with hmem hfree
  obtain rfl := Except.ok.inj h
  have hown : ∀ k ∈ keysWhere b s.indexMeta Prod.fst table, ∃ name c,
      k = indexKey table name ∧ s.indexMeta.lookup k = some (table, c) := by
    intro k hk
    obtain ⟨⟨_, c⟩, hc, rfl⟩ := mem_keysWhere.mp hk
    obtain ⟨name, hname⟩ := hs.named k _ c hc
    exact ⟨name, c, hname, hc⟩
  refine ⟨fun k hk hin => ?_, fun k t c hk => ?_⟩
  · rcases mem_moveKey hk with ⟨htable, hne⟩ | rfl
    · rcases mem_moveKeys hin with ⟨hmeta, -⟩ | ⟨k₀, hk₀, rfl⟩
      · exact hs.apart k htable hmeta
      · obtain ⟨_, c, -, hc⟩ := hown k₀ hk₀
        exact hapart.metas k₀ c hc (.inl ⟨htable, hne⟩)
    · rcases mem_moveKeys hin with ⟨hmeta, hkeys⟩ | ⟨k₀, hk₀, heq⟩
      · obtain ⟨⟨u, c⟩, hc⟩ := mem_iff.mp hmeta
        refine hapart.name (.inr ⟨u, c, hc, ?_⟩)
        rintro rfl
        exact hkeys (mem_keysWhere.mpr ⟨_, hc, rfl⟩)
      · obtain ⟨name, _, rfl, -⟩ := hown k₀ hk₀
        rw [movedKey_indexKey] at heq
        exact indexKey_ne heq
  · rcases mem_moveKeys (mem_of_lookup_eq_some hk) with
      ⟨hmeta, hkeys⟩ | ⟨k₀, hk₀, rfl⟩
    · rw [lookup_moveKeys hkeys (.inr hmeta)] at hk
      exact hs.named k t c hk
    · rcases lookup_moveKeys_eq_some hk with hold | ⟨w, hw⟩
      · exact hs.named _ t c hold
      · obtain ⟨name, _, rfl, -⟩ := hown k₀ hk₀
        obtain ⟨rfl, -⟩ := Prod.mk.inj hw
        exact ⟨name, movedKey_indexKey⟩

theorem renameTable_frames (hs : s.Good) (hapart : s.RenameApart table newName)
    (h : renameTable b s table newName = .ok s') : Frames s (· = table) s' := by
  refine ⟨renameTable_good hs hapart h, fun u hu hne => ?_⟩
  rw [renameTable] at h
  split_ifs at h with hmem hfree
  obtain rfl := Except.ok.inj h
  have hnew : u ≠ newName := fun heq => hfree (heq ▸ hu)
  -- the entry of another table or index goes through both moves of `s.indexes`
  have htree : ∀ k, k ≠ table → s.treeOfOther table k →
      (moveKeys (movedKey table newName) id
        ((keysOf b (moveKey (fun _ => newName) id s.indexes table)).filter
          (hasPrefix table))
        (moveKey (fun _ => newName) id s.indexes table)).lookup k =
        s.indexes.lookup k := by
    intro k hk hother
    have hin : ∀ j, j ∈ moveKey (fun _ => newName) id s.indexes table →
        j ∈ s.indexes ∨ j = newName := fun j hj =>
      (mem_moveKey hj).imp And.left Eq.symm
    have hfirst : (moveKey (fun _ => newName) id s.indexes table).lookup k =
        s.indexes.lookup k := by
      refine lookup_moveKey_of_ne hk (.inl ?_)
      rintro rfl
      exact hapart.name hother
    rw [lookup_moveKeys ?_ (.inl ?_), hfirst]
    · intro hkeys
      obtain ⟨hj, hleading⟩ := mem_prefixed.mp hkeys
      exact (hapart.trees k (hin k hj) hleading).1 hother
    · rintro j hkeys rfl
      obtain ⟨hj, hleading⟩ := mem_prefixed.mp hkeys
      exact (hapart.trees j (hin j hj) hleading).2 hother
  refine view_eq ?_ (htree u hne (.inl ⟨hu, hne⟩)) (fun k c => ?_) (fun k c hk => ?_)
    (fun k c => ?_) (fun k c hk => ?_) fun k ci hci => ?_
  · exact lookup_moveKey_of_ne hne (.inl (Ne.symm hnew))
  · exact lookup_moveOwn (fun _ => rfl) rfl hne hnew
  · refine htree k ?_ (.inr ⟨u, c, hk, hne⟩)
    rintro rfl
    exact hs.apart k hmem (mem_of_lookup_eq_some hk)
  · exact lookup_moveOwn (fun _ => rfl) rfl hne hnew
  · rw [lookup_moveKeys ?_ (.inl ?_)]
    · intro hkeys
      obtain ⟨hj, hleading⟩ := mem_prefixed.mp hkeys
      exact (hapart.hashes k hj hleading).1 ⟨u, c, hk, hne⟩
    · rintro j hkeys rfl
      obtain ⟨hj, hleading⟩ := mem_prefixed.mp hkeys
      exact (hapart.hashes j hj hleading).2 ⟨u, c, hk, hne⟩
  · exact lookup_moveOwn (fun _ => rfl) hci hne hnew

theorem execCreateIndex_frames (hs : s.Good) {columns : List String} {usingHash : Bool}
    (htree : usingHash = false → columns.length = 1 →
      ¬ s.treeOfOther table (indexKey table indexName))
    (hhash : usingHash → ¬ s.hashOfOther table (indexKey table indexName))
    (h : execCreateIndex b s indexName table columns usingHash = .ok s') :
    Frames s (· = table) s' := by
  rw [execCreateIndex] at h
  cases hrows : s.tables.lookup table with
  | none =>
    simp only [hrows] at h
    cases h
  | some rows =>
    simp only [hrows] at h
    split_ifs at h with htaken
    have hiff : ∀ {α : Type} {m : Map α} {k : String} {u : String} {v w : α}
        (tableOf : α → String), tableOf w = table → u ≠ table → tableOf v = u →
        ((emplace m (indexKey table indexName) w).lookup k = some v ↔
          m.lookup k = some v) := by
      intro α m k u v w tableOf hw hu hv
      rw [lookup_emplace, Option.or_eq_some_iff]
      refine or_iff_left ?_
      rintro ⟨-, hnew⟩
      split_ifs at hnew
      obtain rfl := Option.some.inj hnew
      exact hu (hv.symm.trans hw)
    split at h
    · rename_i column
      obtain rfl := Except.ok.inj h
      refine ⟨⟨hs.apart, hs.named⟩, fun u _ hu => ?_⟩
      refine view_eq rfl rfl (fun _ _ => .rfl) (fun _ _ _ => rfl)
        (fun k c => hiff Prod.fst rfl hu rfl) (fun k c hk => ?_) fun _ _ _ => .rfl
      rw [lookup_emplace, if_neg, Option.or_none]
      rintro rfl
      exact hhash rfl ⟨u, c, hk, hu⟩
    · cases h
    · rename_i column
      obtain rfl := Except.ok.inj h
      have hfree := htree rfl rfl
      have hne : indexKey table indexName ∉ s.tables := by
        intro hin
        exact hfree (.inl ⟨hin, indexKey_ne⟩)
      refine ⟨⟨fun k hk hin => ?_, fun k t c hk => ?_⟩, fun u hu hune => ?_⟩
      · rw [← lookup_isSome, lookup_emplace,
          lookup_eq_none.mpr (hs.apart k hk), Option.none_or] at hin
        split_ifs at hin with heq
        · exact hne (heq ▸ hk)
        · cases hin
      · rw [lookup_emplace, Option.or_eq_some_iff] at hk
        rcases hk with hold | ⟨-, hnew⟩
        · exact hs.named k t c hold
        · split_ifs at hnew with heq
          obtain ⟨rfl, rfl⟩ := Prod.mk.inj (Option.some.inj hnew)
          exact ⟨indexName, heq⟩
      · have hother : ∀ {k}, k ≠ indexKey table indexName →
            (emplace s.indexes (indexKey table indexName) (b.tree rows column)).lookup k =
              s.indexes.lookup k := by
          intro k hk
          rw [lookup_emplace, if_neg hk, Option.or_none]
        refine view_eq rfl (hother ?_) (fun k c => hiff Prod.fst rfl hune rfl) (fun k c hk => ?_)
          (fun _ _ => .rfl) (fun _ _ _ => rfl) fun _ _ _ => .rfl
        · rintro rfl
          exact hne hu
        · refine hother ?_
          rintro rfl
          exact hfree (.inr ⟨u, c, hk, hune⟩)
    · obtain rfl := Except.ok.inj h
      refine ⟨⟨hs.apart, hs.named⟩, fun u _ hu => ?_⟩
      exact view_eq rfl rfl (fun _ _ => .rfl) (fun _ _ _ => rfl) (fun _ _ => .rfl)
        (fun _ _ _ => rfl) fun k ci hci => hiff CompositeIndex.table rfl hu hci

theorem removeVictim_frames (hs : s.Good) (hvictim : s.victimTable victim = some table) :
    Frames s (· = table) (removeVictim s victim) := by
  have hiff : ∀ {α : Type} {m : Map α} {key k u : String} {v : α} (tableOf : α → String),
      (m.lookup key).map tableOf = some table → tableOf v = u → u ≠ table →
      ((m.erase key).lookup k = some v ↔ m.lookup k = some v) := by
    intro α m key k u v tableOf hkey hv hu
    by_cases heq : k = key
    · subst heq
      rw [lookup_erase]
      refine iff_of_false (by simp) fun hk => ?_
      rw [hk, Option.map_some, Option.some.injEq, hv] at hkey
      exact hu hkey
    · rw [lookup_erase_ne heq]
  cases victim with
  | tree key =>
    refine ⟨⟨fun k hk hin => hs.apart k hk (mem_erase.mp hin).2, fun k t c hk => ?_⟩,
      fun u hu hne => ?_⟩
    · refine hs.named k t c ?_
      have hk' : k ≠ key := by
        rintro rfl
        simp [removeVictim] at hk
      rwa [removeVictim, lookup_erase_ne hk'] at hk
    · obtain ⟨entry, hentry, -⟩ := Option.map_eq_some_iff.mp hvictim
      refine view_eq rfl (lookup_erase_ne ?_) (fun k c => hiff Prod.fst hvictim rfl hne)
        (fun k c hk => lookup_erase_ne ?_) (fun _ _ => .rfl) (fun _ _ _ => rfl)
        fun _ _ _ => .rfl
      · rintro rfl
        exact hs.apart _ hu (mem_of_lookup_eq_some hentry)
      · rintro rfl
        simp only [victimTable, hk, Option.map_some, Option.some.injEq] at hvictim
        exact hne hvictim
  | hash key =>
    refine ⟨⟨hs.apart, hs.named⟩, fun u hu hne => ?_⟩
    refine view_eq rfl rfl (fun _ _ => .rfl) (fun _ _ _ => rfl)
      (fun k c => hiff Prod.fst hvictim rfl hne) (fun k c hk => lookup_erase_ne ?_)
      fun _ _ _ => .rfl
    rintro rfl
    simp only [victimTable, hk, Option.map_some, Option.some.injEq] at hvictim
    exact hne hvictim
  | composite key =>
    refine ⟨⟨hs.apart, hs.named⟩, fun u hu hne => ?_⟩
    exact view_eq rfl rfl (fun _ _ => .rfl) (fun _ _ _ => rfl) (fun _ _ => .rfl)
      (fun _ _ _ => rfl) fun k ci hci => hiff CompositeIndex.table hvictim hci hne

/-! ### Runs -/

variable (b)

/-- The table a statement is about; DROP INDEX without a table is about that of the index. -/
def about (s : Store ρ τ η γ) : Action τ → String → Prop
  | .createTable name _ _, u => u = name
  | .dropTable name _ _, u => u = name
  | .renameTable table _, u => u = table
  | .createIndex _ table _ _, u => u = table
  | .dropIndex _ (some table), u => u = table
  | .dropIndex indexName none, u =>
    ∃ victim, dropVictim b s indexName none = some victim ∧ s.victimTable victim = some u
  | .addConstraint table _, u => u = table
  | .dropConstraint table _ _, u => u = table

variable {b}

/-- The keys a statement writes, moves or looks for are no keys of other tables. -/
def Apart (s : Store ρ τ η γ) : Action τ → Prop
  | .createTable name _ _ => name ∈ s.tables ∨ name ∉ s.indexMeta
  | .dropTable .. => True
  | .renameTable table newName => s.RenameApart table newName
  | .createIndex indexName table columns usingHash =>
    (usingHash = false → columns.length = 1 →
      ¬ s.treeOfOther table (indexKey table indexName)) ∧
      (usingHash → ¬ s.hashOfOther table (indexKey table indexName))
  | .dropIndex indexName (some table) => s.DropApart indexName (some table) table
  | .dropIndex _ none => True
  | .addConstraint .. => True
  | .dropConstraint table name inSchema => inSchema = true ∨ s.DropApart name none table

theorem dropConstraint_frames (hs : s.Good) {inSchema : Bool}
    (hapart : inSchema ∨ s.DropApart name none table)
    (h : dropConstraint b s table name inSchema = .ok s') : Frames s (· = table) s' := by
  rw [dropConstraint] at h
  split_ifs at h with hmem hschema
  · obtain rfl := Except.ok.inj h
    exact frames_refl hs _
  · split at h
    · rename_i victim hvictim
      obtain rfl := Except.ok.inj h
      exact removeVictim_frames hs
        (victimTable_of_dropApart (hapart.resolve_left hschema) hvictim)
    · cases h

theorem execDropIndex_frames (hs : s.Good) (hapart : Apart s (.dropIndex (τ := τ) indexName on)) :
    Frames s (about b s (.dropIndex indexName on)) (execDropIndex b s indexName on) := by
  rw [execDropIndex]
  cases hvictim : dropVictim b s indexName on with
  | none => exact frames_refl hs _
  | some victim =>
    cases on with
    | some table => exact removeVictim_frames hs (victimTable_of_dropApart hapart hvictim)
    | none =>
      obtain ⟨table, htable⟩ := victimTable_isSome hvictim
      obtain ⟨hgood, hframe⟩ := removeVictim_frames hs htable
      refine ⟨hgood, fun u hu hne => hframe u hu ?_⟩
      rintro rfl
      exact hne ⟨victim, hvictim, htable⟩

theorem next_frames (hs : s.Good) {a : Action τ} (hapart : Apart s a) :
    Frames s (about b s a) (next b s a) := by
  rw [next]
  cases h : execute b s a with
  | error _ => exact frames_refl hs _
  | ok s' =>
    cases a with
    | createTable name ifNotExists tree => exact execCreate_frames hs hapart h
    | dropTable name ifExists referenced => exact execDrop_frames hs h
    | renameTable table newName => exact renameTable_frames hs hapart h
    | createIndex indexName table columns usingHash =>
      exact execCreateIndex_frames hs hapart.1 hapart.2 h
    | dropIndex indexName on =>
      obtain rfl := Except.ok.inj h
      exact execDropIndex_frames hs hapart
    | addConstraint table accepted =>
      rw [execute] at h
      split_ifs at h
      obtain rfl := Except.ok.inj h
      exact frames_refl hs _
    | dropConstraint table name inSchema => exact dropConstraint_frames hs hapart h

theorem good_of_reaches {s₀ : Store ρ τ η γ} (hs₀ : s₀.Good)
    (h : Reaches (step b) Apart s₀ s) : s.Good := by
  refine h.invariant (fun s a s' hs hapart hstep => ?_) hs₀
  obtain rfl := Option.some.inj hstep
  exact (next_frames hs hapart).1

theorem Store.empty_good : (empty : Store ρ τ η γ).Good := by
  refine ⟨fun k hk => absurd hk (notMem_empty), fun k table column h => ?_⟩
  rw [empty, lookup_empty] at h
  cases h

/-! ### Tables whose names begin alike -/

/-- Trees and indexes that say what they were built over. -/
def labels : Builder (List String) String String String where
  order := { keys := sortedList, mem_keys := fun _ _ => mem_sortedList }
  noRows := []
  tree _ column := column
  hash _ column := column
  composite _ columns := String.intercalate "," columns

/-- `t` and `t_x`, with an index `i` on `t`. -/
def alike : Store (List String) String String String :=
  [Action.createTable "rusql.t" false "tree of t",
    .createTable "rusql.t_x" false "tree of t_x",
    .createIndex "i" "rusql.t" ["a"] false].foldl (next labels) .empty

theorem alike_reached {ok : Store (List String) String String String → Action String → Prop}
    (h₁ : ok .empty (.createTable "rusql.t" false "tree of t"))
    (h₂ : ok (next labels .empty (.createTable "rusql.t" false "tree of t"))
      (.createTable "rusql.t_x" false "tree of t_x"))
    (h₃ : ok (next labels (next labels .empty (.createTable "rusql.t" false "tree of t"))
      (.createTable "rusql.t_x" false "tree of t_x")) (.createIndex "i" "rusql.t" ["a"] false)) :
    Reaches (step labels) ok .empty alike :=
  ((Reaches.single _ h₁ rfl).trans (Reaches.single _ h₂ rfl)).trans (Reaches.single _ h₃ rfl)

end RusqlEngine.IndexKeys
