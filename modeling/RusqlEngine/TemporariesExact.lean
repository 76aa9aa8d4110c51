import RusqlEngine.Temporaries

/-!
# When the maps are what they were

A call leaves the maps as it found them exactly when no select over temporary tables or a view ended
with a thrown error, no result was broken off as it was read back over tables in the maps, and no
CTE took the name of a key of `s.indexes`. What is lost once stays lost: a table that is left behind
is in no list of names that an enclosing call takes out, and nothing puts a view or a tree back.
-/

namespace RusqlEngine.Temporaries

open StateRun Function

variable {κ τ ι : Type}

/-! ### Changes of the maps -/

/-- The catalog has the tables, and temporary tables are tables. -/
structure Database.Consistent (db : Database κ τ ι) : Prop where
  catalog : ∀ a, db.catalog a = none ↔ db.tables a = none
  temporary : ∀ a, db.temporary a → (db.tables a).isSome

theorem Database.Consistent.temporary_of_none {db : Database κ τ ι} (h : db.Consistent)
    {a : String} (ha : db.tables a = none) : db.temporary a = false := by
  by_contra hne
  have hsome := h.temporary a (by simpa using hne)
  rw [ha] at hsome
  cases hsome

def Step.good : Step → Bool
  | .overTemporaries _ (.thrown _) | .overView _ (.thrown _) => false
  | .overTemporaries _ _ | .overView _ _ => true
  | .readBack made thrown => !thrown || made.isEmpty
  | .cte _ indexed => !indexed

/-- A table left behind, a view or a tree that is gone. -/
def Damaged (db db' : Database κ τ ι) : Prop :=
  (∃ a, db.tables a = none ∧ (db'.tables a).isSome) ∨
    (∃ a, (db.views a).isSome ∧ db'.views a = none) ∨
    ∃ a, db.tables a = none ∧ (db.indexes a).isSome ∧ db'.indexes a = none

/-- What the steps `new` make of the maps. -/
structure Change (db db' : Database κ τ ι) (new : List Step) : Prop where
  consistent : db'.Consistent
  tables : ∀ a, (db.tables a).isSome → (db'.tables a).isSome = true
  temporary : ∀ a, (db.tables a).isSome → db'.temporary a = db.temporary a
  views : ∀ a, db'.views a = none ∨ db'.views a = db.views a
  indexes : ∀ a, db'.indexes a = none ∨ db'.indexes a = db.indexes a ∨
    db.tables a = none ∧ (db'.tables a).isSome = true
  kept : (∀ s ∈ new, s.good) → db' = db
  damaged : (∃ s ∈ new, s.good = false) → Damaged db db'

variable {db db' db'' : Database κ τ ι} {new new' : List Step}

theorem Change.refl (h : db.Consistent) : Change db db [] where
  consistent := h
  tables _ ha := ha
  temporary _ _ := rfl
  views _ := .inr rfl
  indexes _ := .inr (.inl rfl)
  kept _ := rfl
  damaged hbad := by simp at hbad

theorem Damaged.trans (h : Damaged db db') (h' : Change db' db'' new) : Damaged db db'' := by
  rcases h with ⟨a, hnone, hsome⟩ | ⟨a, hsome, hnone⟩ | ⟨a, htable, hsome, hnone⟩
  · exact .inl ⟨a, hnone, h'.tables a hsome⟩
  · refine .inr (.inl ⟨a, hsome, ?_⟩)
    rcases h'.views a with hv | hv
    · exact hv
    · rw [hv, hnone]
  · rcases h'.indexes a with hi | hi | ⟨-, hleft⟩
    · exact .inr (.inr ⟨a, htable, hsome, hi⟩)
    · exact .inr (.inr ⟨a, htable, hsome, hi.trans hnone⟩)
    · exact .inl ⟨a, htable, hleft⟩

theorem Damaged.ne (h : Damaged db db') : db' ≠ db := by
  rintro rfl
  rcases h with ⟨a, hnone, hsome⟩ | ⟨a, hsome, hnone⟩ | ⟨a, -, hsome, hnone⟩ <;>
    simp [hnone] at hsome

theorem good_or_bad (new : List Step) : (∀ s ∈ new, s.good) ∨ ∃ s ∈ new, s.good = false := by
  by_cases h : ∃ s ∈ new, s.good = false
  · exact .inr h
  · push Not at h
    exact .inl fun s hs => by simpa using h s hs

theorem Change.trans (h : Change db db' new) (h' : Change db' db'' new') :
    Change db db'' (new ++ new') where
  consistent := h'.consistent
  tables a ha := h'.tables a (h.tables a ha)
  temporary a ha := (h'.temporary a (h.tables a ha)).trans (h.temporary a ha)
  views a := by
    rcases h'.views a with hv | hv
    · exact .inl hv
    · rw [hv]
      exact h.views a
  indexes a := by
    rcases h'.indexes a with hi | hi | ⟨hnone, hsome⟩
    · exact .inl hi
    · rw [hi]
      exact (h.indexes a).imp_right (.imp_right fun hleft => ⟨hleft.1, h'.tables a hleft.2⟩)
    · refine .inr (.inr ⟨Option.not_isSome_iff_eq_none.mp fun ha => ?_, hsome⟩)
      have hsome' := h.tables a ha
      rw [hnone] at hsome'
      cases hsome'
  kept hgood := by
    rw [List.forall_mem_append] at hgood
    rw [h'.kept hgood.2, h.kept hgood.1]
  damaged hbad := by
    rcases good_or_bad new with hgood | hnew
    · obtain ⟨s, hs, hsbad⟩ := hbad
      rcases List.mem_append.mp hs with hin | hin
      · rw [hgood s hin] at hsbad
        cases hsbad
      · exact h.kept hgood ▸ h'.damaged ⟨s, hin, hsbad⟩
    · exact (h.damaged hnew).trans h'

theorem Change.snoc_good (h : Change db db' new) {s : Step} (hs : s.good) :
    Change db db' (new ++ [s]) :=
  h.trans { Change.refl h.consistent with
    kept := fun _ => rfl
    damaged := by
      rintro ⟨s', hs', hbad⟩
      rw [List.mem_singleton.mp hs', hs] at hbad
      cases hbad }

/-! ### Names taken out -/

/-- The maps without the tables `names` and the trees `keys`. -/
def Database.without (db : Database κ τ ι) (names keys : List String) : Database κ τ ι where
  tables a := if a ∈ names then none else db.tables a
  indexes a := if a ∈ keys then none else db.indexes a
  catalog a := if a ∈ names then none else db.catalog a
  views := db.views
  temporary a := if a ∈ names then false else db.temporary a

theorem Database.ext_maps (ht : ∀ a, db.tables a = db'.tables a)
    (hi : ∀ a, db.indexes a = db'.indexes a) (hc : ∀ a, db.catalog a = db'.catalog a)
    (hv : ∀ a, db.views a = db'.views a) (htemp : ∀ a, db.temporary a = db'.temporary a) :
    db = db' := by
  cases db
  cases db'
  congr
  · exact funext ht
  · exact funext hi
  · exact funext hc
  · exact funext hv
  · exact funext htemp

theorem without_nil (db : Database κ τ ι) : db.without [] [] = db := by
  refine Database.ext_maps ?_ ?_ ?_ ?_ ?_ <;> intro a <;> simp [Database.without]

theorem Database.Consistent.without (h : db.Consistent) (names keys : List String) :
    (db.without names keys).Consistent where
  catalog a := by
    simp only [Database.without]
    split_ifs
    · simp
    · exact h.catalog a
  temporary a := by
    simp only [Database.without]
    split_ifs
    · simp
    · exact h.temporary a

variable {keys : List String} {names : List String}

theorem tables_without (names keys : List String) (a : String) :
    (db.without names keys).tables a = if a ∈ names then none else db.tables a :=
  rfl

theorem Change.without (h : Change db db' new) (hnames : ∀ a ∈ names, (db.tables a).isSome)
    (hkeys : ∀ a ∈ keys, a ∈ names) :
    Change (db.without names keys) (db'.without names keys) new where
  consistent := h.consistent.without names keys
  tables a := by
    simp only [Database.without]
    split_ifs
    · exact id
    · exact h.tables a
  temporary a := by
    simp only [Database.without]
    split_ifs
    · exact fun _ => rfl
    · exact h.temporary a
  views a := h.views a
  indexes a := by
    by_cases hkey : a ∈ keys
    · exact .inl (if_pos hkey)
    · simp only [Database.without, if_neg hkey]
      refine (h.indexes a).imp_right (.imp_right fun ⟨hnone, hsome⟩ => ?_)
      have hin : a ∉ names := fun hin => by simpa [hnone] using hnames a hin
      exact ⟨by rw [if_neg hin, hnone], by rw [if_neg hin, hsome]⟩
  kept hgood := by rw [h.kept hgood]
  damaged hbad := by
    have hout : ∀ {a}, db.tables a = none → a ∉ names := by
      intro a hnone hin
      have := hnames a hin
      rw [hnone] at this
      cases this
    rcases h.damaged hbad with ⟨a, hnone, hsome⟩ | ⟨a, hsome, hnone⟩ | ⟨a, htable, hsome, hnone⟩
    · refine .inl ⟨a, ?_, ?_⟩
      · simp [Database.without, hnone]
      · simpa [Database.without, hout hnone] using hsome
    · exact .inr (.inl ⟨a, hsome, hnone⟩)
    · have hkey : a ∉ keys := fun hin => hout htable (hkeys a hin)
      exact .inr (.inr ⟨a, by simp [Database.without, htable],
        by simpa [Database.without, hkey] using hsome, by simp [Database.without, hnone]⟩)

/-- The tables stay in the maps behind a step that is not good. -/
theorem Change.leak (h : Change db db' new) (hnames : ∀ a ∈ names, (db.tables a).isSome)
    (hkeys : ∀ a ∈ keys, a ∈ names) (hne : names ≠ []) {s : Step} (hs : s.good = false) :
    Change (db.without names keys) db' (new ++ [s]) where
  consistent := h.consistent
  tables a ha := by
    rw [tables_without] at ha
    split_ifs at ha
    · cases ha
    · exact h.tables a ha
  temporary a ha := by
    rw [tables_without] at ha
    split_ifs at ha with hin
    · cases ha
    · rw [h.temporary a ha]
      simp [Database.without, hin]
  views a := h.views a
  indexes a := by
    by_cases hin : a ∈ names
    · exact .inr (.inr ⟨by rw [tables_without, if_pos hin], h.tables a (hnames a hin)⟩)
    · have hkey : a ∉ keys := fun hkey => hin (hkeys a hkey)
      simpa [Database.without, hin, hkey] using h.indexes a
  kept hgood := by
    have hbad := hgood s (by simp)
    rw [hs] at hbad
    cases hbad
  damaged _ := by
    obtain ⟨a, rest, rfl⟩ := List.exists_cons_of_ne_nil hne
    exact .inl ⟨a, by simp [Database.without], h.tables a (hnames a (by simp))⟩

/-! ### What is put in and taken out -/

theorem dropAll_eq_without (names : List String) : db.dropAll names = db.without names [] := by
  induction names generalizing db with
  | nil => exact (without_nil db).symm
  | cons a names ih =>
    have hrest : (db.drop a).dropAll names = (db.drop a).without names [] := ih
    rw [Database.dropAll, List.foldl_cons]
    refine hrest.trans ?_
    refine Database.ext_maps ?_ ?_ ?_ ?_ ?_ <;> intro b <;>
      simp only [Database.without, Database.drop, update_apply, List.mem_cons] <;>
      by_cases hb : b = a <;> simp [hb]

theorem dropCtes_eq_without (h : ∀ a ∈ names, db.temporary a = false) :
    db.dropCtes names = db.without names names := by
  induction names generalizing db with
  | nil => exact (without_nil db).symm
  | cons a names ih =>
    have hrest : (db.dropCte a).dropCtes names = (db.dropCte a).without names names :=
      ih fun b hb => h b (.tail _ hb)
    rw [Database.dropCtes, List.foldl_cons]
    refine hrest.trans ?_
    have ha := h a List.mem_cons_self
    refine Database.ext_maps ?_ ?_ ?_ ?_ ?_ <;> intro b <;>
      simp only [Database.without, Database.dropCte, update_apply, List.mem_cons] <;>
      by_cases hb : b = a <;> simp [hb, ha]

section

variable {a : String} {rows : List Row} {schema : τ} {names : List String}

theorem createSchema_of_none (h : db.Consistent) (ha : db.tables a = none) :
    db.createSchema a schema =
      { db with catalog := update db.catalog a (some schema) } := by
  rw [Database.createSchema, if_neg]
  simp [(h.catalog a).mpr ha]

theorem create_eq (h : db.Consistent) (ha : db.tables a = none) :
    db.create a rows schema =
      { db with
        tables := update db.tables a (some rows)
        temporary := update db.temporary a true
        catalog := update db.catalog a (some schema) } := by
  rw [Database.create, Database.createSchema, if_neg]
  simp [(h.catalog a).mpr ha]

theorem tables_create (b : String) :
    (db.create a rows schema).tables b = if b = a then some rows else db.tables b := by
  rw [Database.create, Database.createSchema]
  split_ifs <;> simp_all

theorem Database.Consistent.create (h : db.Consistent) (ha : db.tables a = none) :
    (db.create a rows schema).Consistent := by
  rw [create_eq h ha]
  constructor
  · intro b
    simp only [update_apply]
    split_ifs
    · simp
    · exact h.catalog b
  · intro b
    simp only [update_apply]
    split_ifs
    · simp
    · exact h.temporary b

theorem create_without (h : db.Consistent) (ha : db.tables a = none) :
    (db.create a rows schema).without (names ++ [a]) [] = db.without names [] := by
  have hcatalog := (h.catalog a).mpr ha
  have htemporary := h.temporary_of_none ha
  rw [create_eq h ha]
  refine Database.ext_maps ?_ ?_ ?_ ?_ ?_ <;> intro b <;>
    simp only [Database.without, update_apply, List.mem_append, List.mem_singleton] <;>
    by_cases hb : b = a <;> simp [hb, ha, hcatalog, htemporary]

theorem tables_setRows (b : String) :
    (db.setRows a rows).tables b = if b = a then some rows else db.tables b :=
  update_apply _ _ _ _

theorem Database.Consistent.setRows (h : db.Consistent) (ha : (db.tables a).isSome) :
    (db.setRows a rows).Consistent where
  catalog b := by
    rw [tables_setRows]
    split_ifs with hb
    · subst hb
      have hsome : db.catalog b ≠ none := fun hnone => by
        rw [(h.catalog b).mp hnone] at ha
        cases ha
      simpa [Database.setRows] using hsome
    · exact h.catalog b
  temporary b hb := by
    rw [tables_setRows]
    split_ifs
    · rfl
    · exact h.temporary b hb

theorem setRows_without (ha : a ∈ names) :
    (db.setRows a rows).without names keys = db.without names keys := by
  refine Database.ext_maps ?_ (fun _ => rfl) (fun _ => rfl) (fun _ => rfl) fun _ => rfl
  intro b
  simp only [Database.without, tables_setRows]
  split_ifs with hb hba
  · rfl
  · exact absurd (hba ▸ ha) hb
  · rfl

theorem createCte_eq {tree : ι} (h : db.Consistent) (ha : db.tables a = none) :
    db.createCte a rows schema tree =
      { db with
        tables := update db.tables a (some rows)
        indexes := update db.indexes a (some tree)
        catalog := update db.catalog a (some schema) } := by
  rw [Database.createCte, createSchema_of_none h ha]
  rfl

theorem Database.Consistent.createCte {tree : ι} (h : db.Consistent) (ha : db.tables a = none) :
    (db.createCte a rows schema tree).Consistent := by
  rw [createCte_eq h ha]
  constructor
  · intro b
    simp only [update_apply]
    split_ifs
    · simp
    · exact h.catalog b
  · intro b hb
    simp only [update_apply]
    split_ifs
    · rfl
    · exact h.temporary b hb

theorem createCte_without {tree : ι} (h : db.Consistent) (ha : db.tables a = none)
    (hnames : ∀ b ∈ names, (db.tables b).isSome) :
    Change (db.without names names)
      ((db.createCte a rows schema tree).without (names ++ [a]) (names ++ [a]))
      [.cte a (db.indexes a).isSome] := by
  have hcatalog := (h.catalog a).mpr ha
  have hin : a ∉ names := fun hin => by
    have := hnames a hin
    rw [ha] at this
    cases this
  have htemporary := h.temporary_of_none ha
  have heq : ((db.createCte a rows schema tree).without (names ++ [a]) (names ++ [a])) =
      db.without names (names ++ [a]) := by
    rw [createCte_eq h ha]
    refine Database.ext_maps ?_ ?_ ?_ ?_ ?_ <;> intro b <;>
      simp only [Database.without, update_apply, List.mem_append, List.mem_singleton] <;>
      by_cases hb : b = a <;> simp [hb, ha, hcatalog, htemporary]
  rw [heq]
  constructor
  · exact h.without names (names ++ [a])
  · exact fun _ hb => hb
  · exact fun _ _ => rfl
  · exact fun _ => .inr rfl
  · intro b
    simp only [Database.without, List.mem_append, List.mem_singleton]
    by_cases hb : b ∈ names
    · simp [hb]
    · by_cases hba : b = a <;> simp [hb, hba]
  · intro hgood
    have hnone : db.indexes a = none := by simpa [Step.good] using hgood
    refine Database.ext_maps (fun _ => rfl) ?_ (fun _ => rfl) (fun _ => rfl) fun _ => rfl
    intro b
    simp only [Database.without, List.mem_append, List.mem_singleton]
    by_cases hba : b = a
    · simp [hba, hnone]
    · simp [hba]
  · rintro ⟨s, hs, hbad⟩
    rw [List.mem_singleton] at hs
    subst hs
    refine .inr (.inr ⟨a, ?_, ?_, ?_⟩)
    · simp [Database.without, ha]
    · simpa [Database.without, hin, Step.good] using hbad
    · simp [Database.without]

end

variable {name : String}

theorem Change.putView {view : Statement κ} (h : Change (db.setView name none) db' new)
    (hview : db.views name = some view) :
    Change db (db'.setView name (some view)) new where
  consistent := ⟨h.consistent.catalog, h.consistent.temporary⟩
  tables := h.tables
  temporary := h.temporary
  views a := by
    have hv := h.views a
    simp only [Database.setView, update_apply] at hv ⊢
    by_cases ha : a = name
    · simp [ha, hview]
    · simpa [ha] using hv
  indexes := h.indexes
  kept hgood := by
    rw [h.kept hgood]
    refine Database.ext_maps (fun _ => rfl) (fun _ => rfl) (fun _ => rfl) ?_ fun _ => rfl
    intro a
    simp only [Database.setView, update_apply]
    split_ifs with ha
    · rw [ha, hview]
    · rfl
  damaged hbad := by
    rcases h.damaged hbad with hleft | ⟨a, hsome, hnone⟩ | htree
    · exact .inl hleft
    · have ha : a ≠ name := fun ha => by simp [Database.setView, ha] at hsome
      exact .inr (.inl ⟨a, by simpa [Database.setView, ha] using hsome,
        by simpa [Database.setView, ha] using hnone⟩)
    · exact .inr (.inr htree)

theorem Change.loseView (h : Change (db.setView name none) db' new)
    (hview : (db.views name).isSome) {s : Step} (hs : s.good = false) :
    Change db db' (new ++ [s]) where
  consistent := h.consistent
  tables := h.tables
  temporary := h.temporary
  views a := by
    have hv := h.views a
    by_cases ha : a = name
    · exact .inl (by simpa [Database.setView, ha] using hv)
    · simpa [Database.setView, ha] using hv
  indexes := h.indexes
  kept hgood := by
    have hbad := hgood s (by simp)
    rw [hs] at hbad
    cases hbad
  damaged _ := .inr (.inl ⟨name, hview, by simpa [Database.setView] using h.views name⟩)

theorem wanted_spec (e : Engine κ τ ι) (db : Database κ τ ι) (sel : SelectOf (Statement κ) κ) :
    (wanted e db sel).Nodup ∧ ∀ a ∈ wanted e db sel, db.tables a = none := by
  have hfold : ∀ ns acc : List String, (acc.Nodup ∧ ∀ a ∈ acc, db.tables a = none) →
      (ns.foldl (fun names name => if (db.tables name).isNone ∧ name ∉ names then names ++ [name]
        else names) acc).Nodup ∧
      ∀ a ∈ ns.foldl (fun names name => if (db.tables name).isNone ∧ name ∉ names then
        names ++ [name] else names) acc, db.tables a = none := by
    intro ns
    induction ns with
    | nil => exact fun acc hacc => hacc
    | cons n ns ih =>
      intro acc hacc
      rw [List.foldl_cons]
      refine ih _ ?_
      split_ifs with hn
      · refine ⟨hacc.1.append (List.nodup_singleton n) (by simpa using hn.2), fun a ha => ?_⟩
        rcases List.mem_append.mp ha with hin | hin
        · exact hacc.2 a hin
        · rw [List.mem_singleton.mp hin]
          simpa using hn.1
      · exact hacc
  exact hfold _ [] (by simp)

/-- Tables that are made one after another. -/
theorem createAll_spec (table : String → List Row × τ) (h : db.Consistent) (hnodup : names.Nodup)
    (hfree : ∀ a ∈ names, db.tables a = none) :
    (names.foldl (fun d name => d.create name (table name).1 (table name).2) db).Consistent ∧
      (names.foldl (fun d name => d.create name (table name).1 (table name).2) db).without
        names [] = db ∧
      ∀ a, (names.foldl (fun d name => d.create name (table name).1 (table name).2) db).tables a =
        if a ∈ names then some (table a).1 else db.tables a := by
  induction names using List.reverseRecOn with
  | nil => exact ⟨h, without_nil db, fun a => by simp⟩
  | append_singleton names n ih =>
    rw [List.nodup_append_comm, List.singleton_append, List.nodup_cons] at hnodup
    obtain ⟨hconsistent, hwithout, htables⟩ :=
      ih hnodup.2 fun a ha => hfree a (List.mem_append_left _ ha)
    rw [List.foldl_append, List.foldl_cons, List.foldl_nil]
    have hnone : (names.foldl (fun d name => d.create name (table name).1 (table name).2)
        db).tables n = none := by
      rw [htables, if_neg hnodup.1]
      exact hfree n (by simp)
    refine ⟨hconsistent.create hnone, ?_, fun a => ?_⟩
    · rw [create_without hconsistent hnone, hwithout]
    · rw [tables_create, htables]
      by_cases ha : a = n
      · simp [ha]
      · simp [ha]

/-! ### Calls -/

def Outcome.isOk : Outcome → Bool
  | .ok _ => true
  | _ => false

@[simp] theorem getDb_bind {α : Type} (f : Database κ τ ι → Run κ τ ι α) (w : World κ τ ι) :
    (getDb >>= f) w = f w.db w :=
  rfl

@[simp] theorem modifyDb_bind {α : Type} (g : Database κ τ ι → Database κ τ ι)
    (f : Unit → Run κ τ ι α) (w : World κ τ ι) :
    (modifyDb g >>= f) w = f () { w with db := g w.db } :=
  rfl

@[simp] theorem note_bind {α : Type} (step : Step) (f : Unit → Run κ τ ι α) (w : World κ τ ι) :
    (note step >>= f) w = f () { w with steps := w.steps ++ [step] } :=
  rfl

/-- From maps `base`, a call has come to the maps of `w'`; behind an answer there is no table
more. -/
def Leads (base : Database κ τ ι) (w : World κ τ ι) (outcome : Outcome) (w' : World κ τ ι) :
    Prop :=
  ∃ new, w'.steps = w.steps ++ new ∧ Change base w'.db new ∧
    (outcome.isOk → ∀ a, base.tables a = none → w'.db.tables a = none)

def Sound (exec : Call κ → Run κ τ ι Outcome) : Prop :=
  ∀ c w outcome w', w.db.Consistent → exec c w = some (outcome, w') → Leads w.db w outcome w'

variable {base : Database κ τ ι} {w w₁ w' : World κ τ ι} {outcome outcome' : Outcome}
  {text : List Char}

theorem Leads.stay (h : w.db.Consistent) (outcome : Outcome) : Leads w.db w outcome w :=
  ⟨[], by simp, Change.refl h, fun _ _ ha => ha⟩

theorem Leads.trans (h : Leads base w outcome w₁) (hok : outcome.isOk)
    (h' : Leads w₁.db w₁ outcome' w') : Leads base w outcome' w' := by
  obtain ⟨new, hsteps, hchange, htables⟩ := h
  obtain ⟨new', hsteps', hchange', htables'⟩ := h'
  refine ⟨new ++ new', ?_, hchange.trans hchange', fun hok' a ha => ?_⟩
  · rw [hsteps', hsteps, List.append_assoc]
  · exact htables' hok' a (htables hok a ha)

theorem Leads.fail (h : Leads base w outcome w') (hfail : outcome'.isOk = false) :
    Leads base w outcome' w' := by
  obtain ⟨new, hsteps, hchange, -⟩ := h
  exact ⟨new, hsteps, hchange, fun hok => by rw [hfail] at hok; cases hok⟩

theorem Leads.consistent (h : Leads base w outcome w') : w'.db.Consistent := by
  obtain ⟨_, _, hchange, _⟩ := h
  exact hchange.consistent

theorem Leads.free (h : Leads base w (.ok text) w') {a : String} (ha : base.tables a = none) :
    w'.db.tables a = none := by
  obtain ⟨_, _, _, htables⟩ := h
  exact htables rfl a ha

theorem Leads.isSome (h : Leads base w outcome w') {a : String}
    (ha : (base.tables a).isSome) : (w'.db.tables a).isSome := by
  obtain ⟨_, _, hchange, _⟩ := h
  exact hchange.tables a ha

theorem Leads.without (h : Leads w.db w outcome w₁)
    (hnames : ∀ a ∈ names, (w.db.tables a).isSome) (hkeys : ∀ a ∈ keys, a ∈ names) :
    Leads (w.db.without names keys) w outcome { w₁ with db := w₁.db.without names keys } := by
  obtain ⟨new, hsteps, hchange, htables⟩ := h
  refine ⟨new, hsteps, hchange.without hnames hkeys, fun hok a ha => ?_⟩
  simp only [tables_without] at ha ⊢
  split_ifs at ha ⊢
  · rfl
  · exact htables hok a ha

theorem Leads.snoc_good (h : Leads base w outcome w₁) {s : Step} (hs : s.good) :
    Leads base w outcome { w₁ with steps := w₁.steps ++ [s] } := by
  obtain ⟨new, hsteps, hchange, htables⟩ := h
  exact ⟨new ++ [s], by simp [hsteps], hchange.snoc_good hs, htables⟩

/-- The names of CTEs in the maps. -/
structure Ctes (db : Database κ τ ι) (names : List String) : Prop where
  consistent : db.Consistent
  tables : ∀ a ∈ names, (db.tables a).isSome = true
  temporary : ∀ a ∈ names, db.temporary a = false

theorem Ctes.setRows (h : Ctes db names) (rows : List Row) (hname : name ∈ names) :
    Ctes (db.setRows name rows) names := by
  refine ⟨h.consistent.setRows (h.tables name hname), fun a ha => ?_, h.temporary⟩
  rw [tables_setRows]
  split_ifs
  · rfl
  · exact h.tables a ha

theorem Ctes.leads (h : Ctes w.db names) (hleads : Leads w.db w outcome w') : Ctes w'.db names := by
  obtain ⟨_, _, hchange, _⟩ := hleads
  refine ⟨hchange.consistent, fun a ha => hchange.tables a (h.tables a ha), fun a ha => ?_⟩
  rw [hchange.temporary a (h.tables a ha)]
  exact h.temporary a ha

theorem Ctes.dropped (h : Ctes w.db names) (hleads : Leads w.db w outcome w₁) :
    Leads (w.db.without names names) w outcome { w₁ with db := w₁.db.dropCtes names } := by
  rw [dropCtes_eq_without (h.leads hleads).temporary]
  exact hleads.without h.tables fun _ ha => ha

section

variable {e : Engine κ τ ι} {exec : Call κ → Run κ τ ι Outcome} (hexec : Sound exec)

theorem addCte_leads {rows : List Row} {schema : Database κ τ ι → τ} {u : Unit}
    (hw : Ctes w.db names) (hfree : w.db.tables name = none)
    (h : addCte e name rows schema w = some (u, w')) :
    Leads (w.db.without names names) w (.ok [])
        { w' with db := w'.db.without (names ++ [name]) (names ++ [name]) } ∧
      Ctes w'.db (names ++ [name]) := by
  rw [addCte, getDb_bind, note_bind] at h
  cases h
  have hcte : Change (w.db.without names names)
      ((w.db.createCte name rows (schema w.db) e.emptyTree).without (names ++ [name])
        (names ++ [name])) [.cte name (w.db.indexes name).isSome] :=
    createCte_without hw.consistent hfree hw.tables
  have htables : ∀ a, (w.db.createCte name rows (schema w.db) e.emptyTree).tables a =
      if a = name then some rows else w.db.tables a := by
    intro a
    rw [createCte_eq hw.consistent hfree]
    exact update_apply _ _ _ _
  refine ⟨⟨_, rfl, hcte, fun _ a ha => ?_⟩, hw.consistent.createCte hfree, fun a ha => ?_,
    fun a ha => ?_⟩
  · refine (tables_without _ _ a).trans ?_
    rw [tables_without] at ha
    rw [htables]
    by_cases hin : a ∈ names ++ [name]
    · rw [if_pos hin]
    · rw [List.mem_append, List.mem_singleton, not_or] at hin
      rw [if_neg hin.1] at ha
      rw [if_neg hin.2, ha, ite_self]
  · refine (congrArg Option.isSome (htables a)).trans ?_
    split_ifs with heq
    · rfl
    · rw [List.mem_append, List.mem_singleton] at ha
      exact hw.tables a (ha.resolve_right heq)
  · have htemporary : (w.db.createCte name rows (schema w.db) e.emptyTree).temporary a =
        w.db.temporary a := by
      rw [createCte_eq hw.consistent hfree]
    refine htemporary.trans ?_
    rcases List.mem_append.mp ha with hin | hin
    · exact hw.temporary a hin
    · rw [List.mem_singleton.mp hin]
      exact hw.consistent.temporary_of_none hfree

/-- A result that is read back. -/
theorem parseTableOutput_ok {made : List String} {out : TableOutput} (hw : w.db.Consistent)
    (h : parseTableOutput e made text w = some (.ok out, w')) : Leads w.db w (.ok []) w' := by
  rw [parseTableOutput, Option.some.injEq, Prod.mk.injEq] at h
  obtain ⟨hout, rfl⟩ := h
  refine (Leads.stay hw _).snoc_good ?_
  cases hdeadline : e.deadline w text with
  | none => rfl
  | some m => simp [hdeadline] at hout

/-- A result that is broken off leaves the tables `made` in the maps. -/
theorem parseTableOutput_thrown {made : List String} {m : String} (hw : w.db.Consistent)
    (hmade : ∀ a ∈ made, (w.db.tables a).isSome) (hkeys : ∀ a ∈ keys, a ∈ made)
    (h : parseTableOutput e made text w = some (.error m, w')) :
    Leads (w.db.without made keys) w (.thrown m) w' := by
  rw [parseTableOutput, Option.some.injEq, Prod.mk.injEq] at h
  obtain ⟨hout, rfl⟩ := h
  have hthrown : (e.deadline w text).isSome := by
    cases hdeadline : e.deadline w text with
    | none => simp [hdeadline] at hout
    | some m => rfl
  rw [hthrown]
  cases made with
  | nil =>
    obtain rfl := List.eq_nil_iff_forall_not_mem.mpr fun a ha => List.not_mem_nil (hkeys a ha)
    rw [without_nil]
    exact (Leads.stay hw _).snoc_good rfl
  | cons a made =>
    exact ⟨_, rfl, (Change.refl hw).leak hmade hkeys (List.cons_ne_nil _ _) rfl, nofun⟩

include hexec

theorem Sound.executeWithS {st : Statement κ} {result : Except String (List Char)}
    (hw : w.db.Consistent) (h : executeWithS exec st w = some (result, w')) :
    Leads w.db w (ofCaught result) w' := by
  obtain ⟨outcome, w₁, hcall, hret⟩ := bind_eq_some h
  obtain ⟨rfl, rfl⟩ := pure_eq_some hret
  have hleads := hexec _ _ _ _ hw hcall
  cases outcome with
  | ok text => exact hleads
  | err m => exact hleads
  | thrown m => exact hleads.fail rfl

theorem runWork_leads {work : Work κ τ ι} (hw : w.db.Consistent)
    (h : runWork exec work w = some (outcome, w')) : Leads w.db w outcome w' := by
  induction work generalizing w with
  | done o =>
    obtain ⟨rfl, rfl⟩ := pure_eq_some h
    exact Leads.stay hw _
  | subquery st next ih =>
    rw [runWork] at h
    obtain ⟨o, w₁, hcall, h⟩ := bind_eq_some h
    have hleads := hexec _ _ _ _ hw hcall
    cases o with
    | ok text => exact hleads.trans rfl (ih w₁.db text hleads.consistent h)
    | err m | thrown m =>
      obtain ⟨rfl, rfl⟩ := pure_eq_some h
      exact hleads.fail rfl
  | lateral st next ih =>
    rw [runWork] at h
    obtain ⟨result, w₁, hcall, h⟩ := bind_eq_some h
    have hleads := hexec.executeWithS hw hcall
    cases result with
    | ok text => exact hleads.trans rfl (ih w₁.db text hleads.consistent h)
    | error m =>
      obtain ⟨rfl, rfl⟩ := pure_eq_some h
      exact hleads.fail rfl

variable {sel : SelectOf (Statement κ) κ}

theorem overTemporaries_leads (hw : w.db.Consistent)
    (hnames : ∀ a ∈ names, (w.db.tables a).isSome) (hne : names ≠ [])
    (h : overTemporaries exec names sel w = some (outcome, w')) :
    Leads (w.db.without names []) w outcome w' := by
  obtain ⟨o, w₁, hcall, h⟩ := bind_eq_some h
  obtain ⟨new, hsteps, hchange, htables⟩ := hexec _ _ _ _ hw hcall
  rw [note_bind] at h
  have hall : w₁.steps ++ [Step.overTemporaries names o] =
      w.steps ++ (new ++ [Step.overTemporaries names o]) := by
    rw [hsteps, List.append_assoc]
  have hcleaned : (Step.overTemporaries names o).good →
      Leads (w.db.without names []) w o
        ⟨w₁.db.dropAll names, w₁.steps ++ [Step.overTemporaries names o]⟩ := by
    refine fun hgood => ⟨_, hall, ?_, fun hok a ha => ?_⟩
    · rw [dropAll_eq_without]
      exact (hchange.without hnames (by simp)).snoc_good hgood
    · rw [dropAll_eq_without, tables_without]
      rw [tables_without] at ha
      split_ifs at ha ⊢
      · rfl
      · exact htables hok a ha
  cases o with
  | thrown m =>
    obtain ⟨rfl, rfl⟩ := pure_eq_some h
    exact ⟨_, hall, hchange.leak hnames (by simp) hne rfl, nofun⟩
  | ok text | err m =>
    cases h
    exact hcleaned rfl

theorem execSelectWithSubquery_leads {inner : Statement κ} (hw : w.db.Consistent)
    (h : execSelectWithSubquery e exec inner name sel w = some (outcome, w')) :
    Leads w.db w outcome w' := by
  rw [execSelectWithSubquery] at h
  rw [getDb_bind] at h
  split_ifs at h with htaken
  · cases h
    exact Leads.stay hw _
  · have hfree : w.db.tables name = none := by
      simp only [Database.taken, Bool.or_eq_true, not_or, Option.not_isSome_iff_eq_none] at htaken
      exact htaken.1
    obtain ⟨result, w₁, hrun, h⟩ := bind_eq_some h
    have hleads := hexec.executeWithS hw hrun
    cases result with
    | error m =>
      cases h
      exact hleads
    | ok text =>
      obtain ⟨r, w₂, hread, h⟩ := bind_eq_some h
      cases r with
      | error m =>
        cases h
        have hthrown := parseTableOutput_thrown hleads.consistent (by simp)
          (fun a ha => (List.not_mem_nil ha).elim) hread
        rw [without_nil] at hthrown
        exact hleads.trans rfl hthrown
      | ok out =>
        have hback := hleads.trans rfl (parseTableOutput_ok hleads.consistent hread)
        dsimp only at h
        rw [getDb_bind] at h
        split_ifs at h with hcols
        · cases h
          exact hback.trans rfl (Leads.stay hback.consistent _)
        · have hfree₂ := hback.free hfree
          rw [modifyDb_bind] at h
          refine hback.trans rfl ?_
          have hover := overTemporaries_leads hexec (hback.consistent.create hfree₂)
            (by simp [tables_create]) (by simp) h
          rwa [← List.nil_append [name], create_without hback.consistent hfree₂,
            without_nil] at hover

theorem derivedJoins_leads {joins done : List (JoinOf (Statement κ))} {made : List String}
    (hw : w.db.Consistent) (hmade : ∀ a ∈ made, (w.db.tables a).isSome)
    (hne : made ≠ [] ∨ joins.any (fun j => j.derived.isSome))
    (h : derivedJoins e exec sel joins done made w = some (outcome, w')) :
    Leads (w.db.without made []) w outcome w' := by
  induction joins generalizing done made w with
  | nil =>
    rw [derivedJoins] at h
    exact overTemporaries_leads hexec hw hmade (by simpa using hne) h
  | cons j joins ih =>
    rw [derivedJoins] at h
    cases hj : j.derived with
    | none =>
      simp only [hj] at h
      exact ih hw hmade (by simpa [hj] using hne) h
    | some derived =>
      obtain ⟨inner, name⟩ := derived
      simp only [hj] at h
      rw [getDb_bind] at h
      split_ifs at h with htaken
      · cases h
        beta_reduce
        rw [dropAll_eq_without]
        exact (Leads.stay hw _).without hmade (by simp)
      · have hfree : w.db.tables name = none := by
          simp only [Database.taken, Bool.or_eq_true, not_or,
            Option.not_isSome_iff_eq_none] at htaken
          exact htaken.1
        obtain ⟨result, w₁, hrun, h⟩ := bind_eq_some h
        have hleads := hexec.executeWithS hw hrun
        cases result with
        | error m =>
          cases h
          beta_reduce
          rw [dropAll_eq_without]
          exact hleads.without hmade (by simp)
        | ok text =>
          obtain ⟨r, w₂, hread, h⟩ := bind_eq_some h
          have hmade₁ : ∀ a ∈ made, (w₁.db.tables a).isSome :=
            fun a ha => hleads.isSome (hmade a ha)
          cases r with
          | error m =>
            cases h
            exact (hleads.without hmade (by simp)).trans rfl
              (parseTableOutput_thrown hleads.consistent hmade₁ (by simp) hread)
          | ok out =>
            have hback := hleads.trans rfl (parseTableOutput_ok hleads.consistent hread)
            have hfree₂ := hback.free hfree
            dsimp only at h
            rw [getDb_bind, modifyDb_bind] at h
            have hrest := ih (hback.consistent.create hfree₂) ?_ (by simp) h
            · rw [create_without hback.consistent hfree₂] at hrest
              exact (hback.without hmade (by simp)).trans rfl hrest
            · intro a ha
              rw [tables_create]
              split_ifs with heq
              · rfl
              · rw [List.mem_append, List.mem_singleton] at ha
                exact hback.isSome (hmade a (ha.resolve_right heq))

theorem execSelect_leads (hw : w.db.Consistent) (h : execSelect e exec sel w = some (outcome, w')) :
    Leads w.db w outcome w' := by
  rw [execSelect] at h
  cases hsub : sel.subquery with
  | some derived =>
    simp only [hsub] at h
    exact execSelectWithSubquery_leads hexec hw h
  | none =>
    simp only [hsub] at h
    split_ifs at h with hderived hdual
    · have hjoins := derivedJoins_leads hexec hw (by simp) (.inr hderived) h
      rwa [without_nil] at hjoins
    · exact runWork_leads hexec hw h
    · rw [getDb_bind] at h
      split_ifs at h with hwanted
      · obtain ⟨hnodup, hfree⟩ := wanted_spec e w.db sel
        obtain ⟨hconsistent, hwithout, htables⟩ :=
          createAll_spec (e.infoSchemaTable w.db) hw hnodup hfree
        rw [modifyDb_bind] at h
        have hover := overTemporaries_leads hexec hconsistent (fun a ha => ?_) hwanted h
        · rwa [hwithout] at hover
        · rw [htables, if_pos ha]
          rfl
      · cases hview : w.db.views (noted e sel).table with
        | none =>
          simp only [hview] at h
          exact runWork_leads hexec hw h
        | some view =>
          simp only [hview] at h
          rw [modifyDb_bind] at h
          obtain ⟨o, w₂, hrun, h⟩ := bind_eq_some h
          have hout : (w.db.setView (noted e sel).table none).Consistent :=
            ⟨hw.catalog, hw.temporary⟩
          obtain ⟨new, hsteps, hchange, htables⟩ := execSelectWithSubquery_leads hexec hout hrun
          rw [note_bind] at h
          have hall : w₂.steps ++ [Step.overView (noted e sel).table o] =
              w.steps ++ (new ++ [Step.overView (noted e sel).table o]) := by
            rw [hsteps, List.append_assoc]
          cases o with
          | thrown m =>
            cases h
            exact ⟨_, hall, hchange.loseView (by rw [hview]; rfl) rfl, nofun⟩
          | ok text | err m =>
            cases h
            exact ⟨_, hall, (hchange.putView hview).snoc_good rfl, htables⟩

/-! ### WITH -/

theorem mainQuery_leads {query : Statement κ} (hw : Ctes w.db names)
    (h : mainQuery exec query names w = some (outcome, w')) :
    Leads (w.db.without names names) w outcome w' := by
  obtain ⟨result, w₁, hrun, h⟩ := bind_eq_some h
  cases h
  exact hw.dropped (hexec.executeWithS hw.consistent hrun)

/-- How the rounds end, the tables `names` being in the maps. -/
def RoundsLead (base : Database κ τ ι) (names : List String) (w : World κ τ ι) :
    Except Outcome (List Row) → World κ τ ι → Prop
  | .error (.thrown m), w' => Leads base w (.thrown m) w'
  | .error outcome, w' =>
    Leads base w outcome { w' with db := w'.db.without names names } ∧ Ctes w'.db names
  | .ok _, w' =>
    Leads base w (.ok []) { w' with db := w'.db.without names names } ∧ Ctes w'.db names

omit hexec in
theorem Leads.rounds {result : Except Outcome (List Row)} (h : Leads base w outcome w₁)
    (hok : outcome.isOk) (hrest : RoundsLead w₁.db names w₁ result w') :
    RoundsLead base names w result w' := by
  rcases result with o | rows
  · cases o with
    | thrown m => exact h.trans hok hrest
    | ok text | err m => exact ⟨h.trans hok hrest.1, hrest.2⟩
  · exact ⟨h.trans hok hrest.1, hrest.2⟩

theorem rounds_leads {right : Statement κ} {cols : List String} {semiNaive : Bool} {n : Nat}
    {st : CteLoop} {result : Except Outcome (List Row)} (hw : Ctes w.db names)
    (hname : name ∈ names)
    (h : rounds e exec names name right cols semiNaive n st w = some (result, w')) :
    RoundsLead (w.db.without names names) names w result w' := by
  induction n generalizing st w with
  | zero =>
    obtain ⟨rfl, rfl⟩ := pure_eq_some h
    exact ⟨(Leads.stay hw.consistent _).without hw.tables fun _ ha => ha, hw⟩
  | succ n ih =>
    rw [rounds, modifyDb_bind] at h
    have hset := hw.setRows (RecursiveCte.roundInput semiNaive st) hname
    obtain ⟨r, w₁, hrun, h⟩ := bind_eq_some h
    have hleads := hexec.executeWithS hset.consistent hrun
    have hctes := hset.leads hleads
    have hround := hleads.without hset.tables fun _ ha => ha
    beta_reduce at hround
    rw [setRows_without hname] at hround
    cases r with
    | error m =>
      cases h
      exact ⟨hround, hctes⟩
    | ok text =>
      obtain ⟨r, w₂, hread, h⟩ := bind_eq_some h
      cases r with
      | error m =>
        cases h
        exact hround.trans rfl
          (parseTableOutput_thrown hctes.consistent hctes.tables (fun _ ha => ha) hread)
      | ok out =>
        have hback := parseTableOutput_ok hctes.consistent hread
        have hctes₂ := hctes.leads hback
        have hround₂ := hround.trans rfl (hback.without hctes.tables fun _ ha => ha)
        dsimp only at h
        split_ifs at h with hfresh
        · cases h
          exact ⟨hround₂, hctes₂⟩
        · exact hround₂.rounds rfl (ih hctes₂ h)

theorem execWith_leads {recursive : Bool} {query : Statement κ} {ctes : List (String × Statement κ)}
    (hw : Ctes w.db names) (h : execWith e exec recursive query ctes names w = some (outcome, w')) :
    Leads (w.db.without names names) w outcome w' := by
  induction ctes generalizing names w with
  | nil => exact mainQuery_leads hexec hw h
  | cons cte ctes ih =>
    obtain ⟨name, body⟩ := cte
    rw [execWith, getDb_bind] at h
    have hstop : ∀ {o w₁}, Leads w.db w o w₁ →
        Leads (w.db.without names names) w o { w₁ with db := w₁.db.dropCtes names } :=
      fun hleads => hw.dropped hleads
    have hthrown : ∀ {text m w₁ w₂}, Ctes w₁.db names →
        parseTableOutput e names text w₁ = some (.error m, w₂) →
        Leads (w₁.db.without names names) w₁ (.thrown m) w₂ := fun hctes hread =>
      parseTableOutput_thrown hctes.consistent hctes.tables (fun _ ha => ha) hread
    split_ifs at h with htaken
    · cases h
      exact hstop (Leads.stay hw.consistent _)
    · have hfree : w.db.tables name = none := by
        simp only [Database.taken, Bool.or_eq_true, not_or, Option.not_isSome_iff_eq_none] at htaken
        exact htaken.1
      cases hparts : recursiveParts recursive body with
      | none =>
        simp only [hparts] at h
        obtain ⟨result, w₁, hrun, h⟩ := bind_eq_some h
        have hleads := hexec.executeWithS hw.consistent hrun
        cases result with
        | error m =>
          cases h
          exact hstop hleads
        | ok text =>
          obtain ⟨r, w₂, hread, h⟩ := bind_eq_some h
          have hbody := hleads.without hw.tables fun _ ha => ha
          cases r with
          | error m =>
            cases h
            exact hbody.trans rfl (hthrown (hw.leads hleads) hread)
          | ok out =>
            have hback := hleads.trans rfl (parseTableOutput_ok hleads.consistent hread)
            obtain ⟨_, w₃, hadd, h⟩ := bind_eq_some h
            obtain ⟨hcte, hctes⟩ := addCte_leads (hw.leads hback) (hback.free hfree) hadd
            have hadded := (hback.without hw.tables fun _ ha => ha).trans rfl hcte
            exact hadded.trans rfl (ih hctes h)
      | some parts =>
        obtain ⟨left, right⟩ := parts
        simp only [hparts] at h
        obtain ⟨result, w₁, hrun, h⟩ := bind_eq_some h
        have hleads := hexec.executeWithS hw.consistent hrun
        cases result with
        | error m =>
          cases h
          exact hstop hleads
        | ok text =>
          obtain ⟨r, w₂, hread, h⟩ := bind_eq_some h
          have hleft := hleads.without hw.tables fun _ ha => ha
          cases r with
          | error m =>
            cases h
            exact hleft.trans rfl (hthrown (hw.leads hleads) hread)
          | ok base =>
            have hback := hleads.trans rfl (parseTableOutput_ok hleads.consistent hread)
            obtain ⟨_, w₃, hadd, h⟩ := bind_eq_some h
            obtain ⟨hcte, hctes⟩ := addCte_leads (hw.leads hback) (hback.free hfree) hadd
            have hbase := (hback.without hw.tables fun _ ha => ha).trans rfl hcte
            obtain ⟨result, w₄, hrounds, h⟩ := bind_eq_some h
            have hround := hbase.rounds rfl (rounds_leads hexec hctes (by simp) hrounds)
            cases result with
            | error o =>
              cases o with
              | thrown m =>
                cases h
                exact hround
              | ok text | err m =>
                cases h
                beta_reduce
                rw [dropCtes_eq_without hround.2.temporary]
                exact hround.1
            | ok rows =>
              dsimp only at h
              rw [modifyDb_bind] at h
              have hmain := mainQuery_leads hexec (hround.2.setRows rows (by simp)) h
              beta_reduce at hmain
              rw [setRows_without (by simp)] at hmain
              exact hround.1.trans rfl hmain

theorem execSetOp_leads {left right : Statement κ} {rest : κ} (hw : w.db.Consistent)
    (h : execSetOp e exec left right rest w = some (outcome, w')) : Leads w.db w outcome w' := by
  obtain ⟨r, w₁, hleft, h⟩ := bind_eq_some h
  have hl := hexec.executeWithS hw hleft
  cases r with
  | error m =>
    cases h
    exact hl
  | ok text =>
    obtain ⟨r', w₂, hright, h⟩ := bind_eq_some h
    have hr := hexec.executeWithS hl.consistent hright
    cases r' with
    | error m =>
      cases h
      exact hl.trans rfl hr
    | ok text' =>
      cases h
      exact (hl.trans rfl hr).trans rfl (Leads.stay hr.consistent _)

theorem executeBody_leads {st : Statement κ} (hw : w.db.Consistent)
    (h : executeBody e exec st w = some (outcome, w')) : Leads w.db w outcome w' := by
  rw [executeBody, getDb_bind] at h
  cases hprepare : e.prepare w.db st with
  | error o =>
    simp only [hprepare] at h
    cases h
    exact Leads.stay hw _
  | ok prepared =>
    cases prepared with
    | select sel =>
      simp only [hprepare] at h
      exact hexec _ _ _ _ hw h
    | setOp union left right rest =>
      simp only [hprepare] at h
      exact execSetOp_leads hexec hw h
    | withCtes recursive ctes query =>
      simp only [hprepare] at h
      have hwith := execWith_leads hexec ⟨hw, by simp, by simp⟩ h
      rwa [without_nil] at hwith

theorem call_sound : Sound (call e exec) := by
  intro c w outcome w' hw h
  cases c with
  | select sel => exact execSelect_leads hexec hw h
  | statement st =>
    obtain ⟨o, w₁, hbody, h⟩ := bind_eq_some h
    have hleads := executeBody_leads hexec hw hbody
    cases h
    cases o with
    | ok text => exact hleads
    | err m => exact hleads
    | thrown m => exact hleads.fail rfl

end

theorem run_sound (e : Engine κ τ ι) (n : Nat) : Sound (run e n) := by
  induction n with
  | zero => exact nofun
  | succ n ih => exact call_sound ih

/-- A statement leaves the maps as they were exactly when every select over temporary tables or a
view came to an end without a thrown error, no result was broken off while tables stood in the maps,
and no CTE took the name of a key of `s.indexes`. -/
theorem run_restores_iff (e : Engine κ τ ι) (db : Database κ τ ι) (hdb : db.Consistent)
    (st : Statement κ) (n : Nat) (outcome : Outcome) (w : World κ τ ι)
    (hrun : run e n (.statement st) ⟨db, []⟩ = some (outcome, w)) :
    w.db = db ↔ ∀ s ∈ w.steps, s.good := by
  obtain ⟨new, hsteps, hchange, -⟩ := run_sound e n _ _ _ _ hdb hrun
  rw [List.nil_append] at hsteps
  rw [hsteps]
  constructor
  · intro heq
    rcases good_or_bad new with hgood | hbad
    · exact hgood
    · exact absurd heq (hchange.damaged hbad).ne
  · exact hchange.kept

/-! ### A view and an index -/

def oneRow : List Char :=
  "+---+\n| a |\n+---+\n| 1 |\n+---+\n1 row(s) returned.".toList

/-- Selects that answer one row, or throw where they say so. -/
def plainEngine : Engine Bool Unit Nat where
  coll := { key := id, key_null := fun _ h => h }
  emptyTree := 0
  textColumns _ := ()
  prepare _ st := .ok st
  infoSchemaName _ := none
  infoSchemaTable _ _ := ([], ())
  derivedColumnNames _ _ := ["a"]
  derivedColumnDefs _ _ _ _ := ()
  recursiveTerm _ := none
  work _ sel := .done (if sel.rest then .thrown "DOUBLE value is out of range in 'cot(0)'"
    else .ok oneRow)
  combine _ _ _ left _ := .ok left
  deadline _ _ := none

def selectFrom (table : String) (throws : Bool) : Statement Bool :=
  .select { table := table, subquery := none, joins := [], rest := throws }

/-- A table `t` with an index `x`, and a view `v` of it. -/
def viewAndIndex : Database Bool Unit Nat where
  tables a := if a = "rusql.t" then some [] else none
  indexes a := if a = "rusql.t" ∨ a = "rusql.t_x" then some 7 else none
  catalog a := if a = "rusql.t" then some () else none
  views a := if a = "rusql.v" then some (selectFrom "rusql.t" false) else none
  temporary _ := false

theorem viewAndIndex_consistent : viewAndIndex.Consistent where
  catalog a := by
    simp only [viewAndIndex]
    split_ifs <;> simp
  temporary a h := nomatch h

/-- A select over the view that throws loses the view; a CTE that is called like the key of the
index loses the tree. -/
theorem run_loses_view_and_index :
    (∃ m w, run plainEngine 4 (.statement (selectFrom "rusql.v" true)) ⟨viewAndIndex, []⟩ =
        some (.err m, w) ∧ w.db ≠ viewAndIndex) ∧
    ∃ text w, run plainEngine 4
        (.statement (.withCtes false [("rusql.t_x", selectFrom "rusql.t" false)]
          (selectFrom "rusql.t_x" false))) ⟨viewAndIndex, []⟩ = some (.ok text, w) ∧
      w.db ≠ viewAndIndex := by
  constructor
  · have h : (run plainEngine 4 (.statement (selectFrom "rusql.v" true)) ⟨viewAndIndex, []⟩).map
        (fun p => (p.1, (p.2.db.views "rusql.v").isSome)) =
          some (.err "DOUBLE value is out of range in 'cot(0)'", false) := by
      decide +kernel
    obtain ⟨⟨o, w⟩, hrun, heq⟩ := Option.map_eq_some_iff.mp h
    obtain ⟨rfl, hview⟩ := Prod.mk.inj heq
    refine ⟨_, w, hrun, fun hdb => ?_⟩
    rw [hdb] at hview
    simp [viewAndIndex] at hview
  · have h : (run plainEngine 4 (.statement (.withCtes false
        [("rusql.t_x", selectFrom "rusql.t" false)] (selectFrom "rusql.t_x" false)))
          ⟨viewAndIndex, []⟩).map (fun p => (p.1, p.2.db.indexes "rusql.t_x")) =
          some (.ok oneRow, none) := by
      decide +kernel
    obtain ⟨⟨o, w⟩, hrun, heq⟩ := Option.map_eq_some_iff.mp h
    obtain ⟨rfl, htree⟩ := Prod.mk.inj heq
    refine ⟨_, w, hrun, fun hdb => ?_⟩
    rw [hdb] at htree
    simp [viewAndIndex] at htree

theorem run_restores_view :
    ∃ w, run plainEngine 4 (.statement (selectFrom "rusql.v" false)) ⟨viewAndIndex, []⟩ =
        some (.ok oneRow, w) ∧ w.db = viewAndIndex := by
  have h : (run plainEngine 4 (.statement (selectFrom "rusql.v" false)) ⟨viewAndIndex, []⟩).map
      (fun p => (p.1, p.2.steps.all Step.good)) = some (.ok oneRow, true) := by
    decide
  obtain ⟨⟨o, w⟩, hrun, heq⟩ := Option.map_eq_some_iff.mp h
  obtain ⟨rfl, hgood⟩ := Prod.mk.inj heq
  exact ⟨w, hrun, (run_restores_iff plainEngine viewAndIndex viewAndIndex_consistent _ 4 _ w
    hrun).mpr (List.all_eq_true.mp hgood)⟩

end RusqlEngine.Temporaries
