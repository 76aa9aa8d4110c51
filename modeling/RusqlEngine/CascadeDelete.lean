import RusqlEngine.CascadePlan

/-!
# A DELETE keeps every foreign key

Where no default is written, a DELETE takes rows away and sets cells to NULL, no more. Behind
`delete_row` no row that stays refers to the row; behind `change_key` of a cell that becomes NULL
none refers to what it held. Rows removed and cells cleared later take no such reference back.
-/

namespace RusqlEngine.CascadeDb

open ExceptFold

variable {db : CascadeDb} {start : Effect → Prop}

/-- No row that stays refers to the value by the foreign key. -/
def Settled (db : CascadeDb) (sim : CascadeSim) (e : Edge) (value : String) : Prop :=
  ∀ kid, db.Live e.table kid → sim.gone e.table kid = false →
    ¬ db.Same (db.valueOf sim e.table kid e.column) value

/-- Rows go and cells become NULL from one simulation to the other, no more. -/
structure Fades (db : CascadeDb) (sim sim' : CascadeSim) : Prop where
  gone : ∀ table pos, sim.gone table pos → sim'.gone table pos = true
  value : ∀ table pos column, db.valueOf sim' table pos column = db.valueOf sim table pos column ∨
    db.valueOf sim' table pos column = executorNull

/-- The simulation of a DELETE that writes no default: what is taken away is touched, and nothing
refers to what a cleared cell held. -/
structure Fading (db : CascadeDb) (start : Effect → Prop) (sim : CascadeSim) : Prop where
  value : ∀ table pos column,
    db.valueOf sim table pos column = db.foundValue table pos column ∨
      db.valueOf sim table pos column = executorNull
  gone : ∀ table pos, sim.gone table pos → db.Touched start (.goes table pos)
  cleared : ∀ e ∈ db.catalog.edges, ∀ pos,
    db.valueOf sim e.parent pos e.refColumn = executorNull →
    db.foundValue e.parent pos e.refColumn ≠ executorNull →
    db.Settled sim e (db.foundValue e.parent pos e.refColumn)

/-- Nothing refers to a row that has gone between the two simulations. -/
def NewlySettled (db : CascadeDb) (sim sim' : CascadeSim) : Prop :=
  ∀ table pos, sim'.gone table pos → sim.gone table pos = false →
    ∀ e ∈ db.edgesOf table, db.foundValue table pos e.refColumn ≠ executorNull →
      db.Settled sim' e (db.foundValue table pos e.refColumn)

variable (sim : CascadeSim)

theorem Fades.refl : db.Fades sim sim :=
  ⟨fun _ _ h => h, fun _ _ _ => .inl rfl⟩

variable {sim'' : CascadeSim}

theorem Fades.trans {sim sim' : CascadeSim} (h : db.Fades sim sim') (h' : db.Fades sim' sim'') :
    db.Fades sim sim'' := by
  refine ⟨fun t p hg => h'.gone t p (h.gone t p hg), fun t p c => ?_⟩
  rcases h'.value t p c with hsame | hnull
  · rw [hsame]
    exact h.value t p c
  · exact .inr hnull

theorem Fades.childrenOf (sim : CascadeSim) (e : Edge) (value : String) :
    db.Fades sim (db.childrenOf sim e value).2 :=
  ⟨fun t p hg => by rwa [childrenOf_snd_gone],
    fun t p c => .inl (valueOf_congr (childrenOf_snd_rewritten ..) t p c)⟩

theorem Fades.stays {sim sim' : CascadeSim} (h : db.Fades sim sim') {table : String} {pos : Nat}
    (hgone : sim'.gone table pos = false) : sim.gone table pos = false := by
  cases hbefore : sim.gone table pos with
  | false => rfl
  | true =>
    rw [h.gone table pos hbefore] at hgone
    exact hgone

variable {e : Edge} {value : String}

theorem Settled.fades {sim sim' : CascadeSim} (hvalue : value ≠ executorNull)
    (h : db.Settled sim e value) (hfades : db.Fades sim sim') : db.Settled sim' e value := by
  intro kid hlive hgone hsame
  have hstays := hfades.stays hgone
  rcases hfades.value e.table kid e.column with hkeep | hnull
  · exact h kid hlive hstays (hkeep ▸ hsame)
  · exact not_same_null hvalue (hnull ▸ hsame)

theorem NewlySettled.refl : db.NewlySettled sim sim :=
  fun _ _ hg hg' => by
    rw [hg] at hg'
    exact Bool.noConfusion hg'

theorem NewlySettled.trans {sim sim' : CascadeSim} (h : db.NewlySettled sim sim')
    (h' : db.NewlySettled sim' sim'') (hfades : db.Fades sim' sim'') :
    db.NewlySettled sim sim'' := by
  intro t p hg hstays e he hvalue
  cases hmid : sim'.gone t p with
  | true => exact (h t p hmid hstays e he hvalue).fades hvalue hfades
  | false => exact h' t p hg hmid e he hvalue

theorem Fading.childrenOf {sim : CascadeSim} (h : db.Fading start sim) (e : Edge) (value : String) :
    db.Fading start (db.childrenOf sim e value).2 := by
  have hvalue := @valueOf_congr db sim _ (@childrenOf_snd_rewritten db sim e value)
  refine ⟨fun t p c => ?_, fun t p hg => h.gone t p (by rwa [childrenOf_snd_gone] at hg),
    fun e' he pos hnull hne => ?_⟩
  · rw [hvalue]
    exact h.value t p c
  · rw [hvalue] at hnull
    exact (h.cleared e' he pos hnull hne).fades hne (.childrenOf sim e value)

theorem Fading.refersTo {sim : CascadeSim} (h : db.Fading start sim) {kid : Nat}
    (hvalue : value ≠ executorNull) (hlive : db.Live e.table kid)
    (hsame : db.Same (db.valueOf sim e.table kid e.column) value) : db.RefersTo e kid value := by
  rcases h.value e.table kid e.column with hfound | hnull
  · exact ⟨hlive, hfound ▸ hsame⟩
  · exact absurd (hnull ▸ hsame) (not_same_null hvalue)

theorem Fading.settled_of_childless {sim : CascadeSim} (h : db.Fading start sim)
    (habsent : db.AbsentSound) (hvalue : value ≠ executorNull)
    (hkids : (db.childrenOf sim e value).1 = []) : db.Settled sim e value := by
  intro kid hlive hgone hsame
  have hkid := (mem_childrenOf_iff habsent hvalue).mpr
    ⟨h.refersTo hvalue hlive hsame, hgone, hsame⟩
  rw [hkids] at hkid
  exact List.not_mem_nil hkid

theorem Fading.settled_of_children {sim sim' : CascadeSim} (h : db.Fading start sim)
    (habsent : db.AbsentSound) (hvalue : value ≠ executorNull) (hfades : db.Fades sim sim')
    (hkids : ∀ kid ∈ (db.childrenOf sim e value).1, sim'.gone e.table kid ∨
      db.valueOf sim' e.table kid e.column = executorNull) :
    db.Settled sim' e value := by
  intro kid hlive hgone hsame
  have hstays := hfades.stays hgone
  have hsame' : db.Same (db.valueOf sim e.table kid e.column) value := by
    rcases hfades.value e.table kid e.column with hkeep | hnull
    · exact hkeep ▸ hsame
    · exact absurd (hnull ▸ hsame) (not_same_null hvalue)
  have hkid := (mem_childrenOf_iff habsent hvalue).mpr
    ⟨h.refersTo hvalue hlive hsame', hstays, hsame'⟩
  rcases hkids kid hkid with hg | hnull
  · rw [hg] at hgone
    exact Bool.noConfusion hgone
  · exact not_same_null hvalue (hnull ▸ hsame)

variable (table : String)

theorem imageOf_setImage (pos : Nat) (column value : String) (t : String) (p : Nat) :
    db.imageOf (db.setImage sim table pos column value) t p =
      if t = table ∧ p = pos then (db.imageOf sim table pos).set column value
      else db.imageOf sim t p := by
  by_cases h : t = table ∧ p = pos <;> simp [imageOf, setImage, h]

theorem valueOf_setImage (pos : Nat) (column value : String) (t : String) (p : Nat) (c : String) :
    db.valueOf (db.setImage sim table pos column value) t p c =
      if t = table ∧ p = pos ∧ c = column then value else db.valueOf sim t p c := by
  rw [valueOf, imageOf_setImage]
  by_cases hrow : t = table ∧ p = pos
  · obtain ⟨rfl, rfl⟩ := hrow
    rw [if_pos ⟨rfl, rfl⟩]
    by_cases hcol : c = column
    · subst hcol
      simp
    · rw [Row.find_set_of_ne _ _ hcol, if_neg (by simp [hcol])]
      rfl
  · rw [if_neg hrow, if_neg (by tauto)]
    rfl

/-- What following one cleared cell does: it goes on fading, removes no row, and nothing
refers to what the cell held. -/
structure Cleared (db : CascadeDb) (start : Effect → Prop) (table column value : String)
    (sim sim' : CascadeSim) : Prop where
  fading : db.Fading start sim'
  fades : db.Fades sim sim'
  gone : sim'.gone = sim.gone
  settled : ∀ e ∈ db.edgesOf table, e.refColumn = column → db.Settled sim' e value

/-- What `change_key` has to do for a cell that becomes NULL. -/
def ClearsKeys (db : CascadeDb) (start : Effect → Prop) (follow : Follow) : Prop :=
  ∀ path table pos column sim sim', db.Fading start sim →
    db.Touched start (.loses table pos column) →
    db.foundValue table pos column ≠ executorNull →
    follow path table column (db.foundValue table pos column) executorNull sim = .ok sim' →
    db.Cleared start table column (db.foundValue table pos column) sim sim'

variable {path : List String}

theorem rewriteColumn_null {follow : Follow} (hfollow : db.ClearsKeys start follow) {table : String}
    {pos : Nat} {column : String} {sim sim' : CascadeSim} (hsim : db.Fading start sim)
    (htouched : db.Touched start (.loses table pos column))
    (h : db.rewriteColumn follow path table pos column executorNull sim = .ok sim') :
    db.Fading start sim' ∧ db.Fades sim sim' ∧ sim'.gone = sim.gone ∧
      db.valueOf sim' table pos column = executorNull := by
  rw [rewriteColumn] at h
  by_cases hnull : db.valueOf sim table pos column = executorNull
  · simp only [hnull, if_true] at h
    cases h
    exact ⟨hsim, .refl _, rfl, hnull⟩
  · have hfound := (hsim.value table pos column).resolve_right hnull
    rw [hfound] at hnull h
    simp only [if_neg hnull] at h
    obtain ⟨mid, hmid, hset⟩ := bind_eq_ok_iff.mp h
    cases hset
    have hcleared := hfollow _ _ _ _ _ _ hsim htouched hnull hmid
    have hfades : db.Fades mid (db.setImage mid table pos column executorNull) := by
      refine ⟨fun _ _ hg => hg, fun t p c => ?_⟩
      rw [valueOf_setImage]
      split
      · exact .inr rfl
      · exact .inl rfl
    refine ⟨⟨fun t p c => ?_, hcleared.fading.gone, fun e he p hp hne => ?_⟩,
      hcleared.fades.trans hfades, hcleared.gone, ?_⟩
    · rw [valueOf_setImage]
      split
      · exact .inr rfl
      · exact hcleared.fading.value t p c
    · rw [valueOf_setImage] at hp
      by_cases hcell : e.parent = table ∧ p = pos ∧ e.refColumn = column
      · obtain ⟨htable, rfl, hcolumn⟩ := hcell
        have hsettled := hcleared.settled e (mem_edgesOf.mpr ⟨he, htable⟩) hcolumn
        rw [htable, hcolumn]
        exact hsettled.fades hnull hfades
      · rw [if_neg hcell] at hp
        exact (hcleared.fading.cleared e he p hp hne).fades hne hfades
    · rw [valueOf_setImage, if_pos ⟨rfl, rfl, rfl⟩]

theorem rewriteChildren_null {follow : Follow} (hfollow : db.ClearsKeys start follow)
    {kids : List Nat} {sim sim' : CascadeSim} (hsim : db.Fading start sim)
    (htouched : ∀ kid ∈ kids, db.Touched start (.loses e.table kid e.column))
    (h : db.rewriteChildren follow path e executorNull kids sim = .ok sim') :
    db.Fading start sim' ∧ db.Fades sim sim' ∧ sim'.gone = sim.gone ∧
      ∀ kid ∈ kids, sim'.gone e.table kid ∨
        db.valueOf sim' e.table kid e.column = executorNull := by
  have hstep : ∀ kid ∈ kids, ∀ s s', db.Fading start s ∧ db.Fades sim s ∧ s.gone = sim.gone →
      (if s.gone e.table kid = true then Except.ok s
        else (db.otherParentMissing e executorNull).elim
          (db.rewriteColumn follow path e.table kid e.column executorNull s) .error) = .ok s' →
      (db.Fading start s' ∧ db.Fades sim s' ∧ s'.gone = sim.gone) ∧ db.Fades s s' ∧
        (s'.gone e.table kid ∨
          db.valueOf s' e.table kid e.column = executorNull) := by
    rintro kid hkid s s' ⟨hs, hfades, hgone⟩ hok
    by_cases hg : s.gone e.table kid = true
    · rw [if_pos hg] at hok
      cases hok
      exact ⟨⟨hs, hfades, hgone⟩, .refl _, .inl hg⟩
    · rw [if_neg hg, show db.otherParentMissing e executorNull = none from if_pos rfl] at hok
      obtain ⟨hs', hfades', hgone', hnull⟩ :=
        rewriteColumn_null hfollow hs (htouched kid hkid) hok
      exact ⟨⟨hs', hfades.trans hfades', hgone'.trans hgone⟩, hfades', .inr hnull⟩
  have hbegin : db.Fading start sim ∧ db.Fades sim sim ∧ sim.gone = sim.gone :=
    ⟨hsim, .refl _, rfl⟩
  have hall := foldlM_invariant
    (fun kid hkid s s' hs hok => (hstep kid hkid s s' hs hok).1) hbegin h
  refine ⟨hall.1, hall.2.1, hall.2.2, fun kid hkid => ?_⟩
  refine foldlM_establishes
    (Q := fun s => s.gone e.table kid = true ∨ db.valueOf s e.table kid e.column = executorNull)
    hkid (fun k hk s s' hs hok => (hstep k hk s s' hs hok).1)
    (fun s s' hs hok => (hstep kid hkid s s' hs hok).2.2) (fun k hk s s' hs hq hok => ?_) hbegin h
  have hfades := (hstep k hk s s' hs hok).2.1
  rcases hq with hg | hnull
  · exact .inl (hfades.gone _ _ hg)
  · rcases hfades.value e.table kid e.column with hkeep | hnull'
    · exact .inr (hkeep.trans hnull)
    · exact .inr hnull'

theorem actionValue_null {action : FkAction}
    (h : action = .setDefault → e.defaultValue = executorNull) :
    actionValue e executorNull action = executorNull := by
  cases action with
  | setDefault => exact h rfl
  | restrict => rfl
  | cascade => rfl
  | setNull => rfl

/-- One foreign key of a cell that becomes NULL. -/
theorem changeKeyEdge_null (habsent : db.AbsentSound) (hdefaults : db.NoDefaults start)
    {next : Option Follow} (hnext : ∀ follow ∈ next, db.ClearsKeys start follow) {table : String}
    {pos : Nat} {column : String} {sim sim' : CascadeSim} (hsim : db.Fading start sim)
    (htouched : db.Touched start (.loses table pos column))
    (hvalue : db.foundValue table pos column ≠ executorNull) (he : e ∈ db.edgesOf table)
    (h : db.changeKeyEdge next path table column
      (db.foundValue table pos column) executorNull sim e = .ok sim') :
    db.Fading start sim' ∧ db.Fades sim sim' ∧ sim'.gone = sim.gone ∧
      (e.refColumn = column → db.Settled sim' e (db.foundValue table pos column)) := by
  simp only [changeKeyEdge] at h
  by_cases hcolumn : e.refColumn = column
  · rw [if_neg (not_not.mpr hcolumn)] at h
    subst hcolumn
    have hcount := hsim.childrenOf e (db.foundValue table pos e.refColumn)
    have hcounts : db.Fades sim _ := .childrenOf sim e (db.foundValue table pos e.refColumn)
    by_cases hkids : (db.childrenOf sim e (db.foundValue table pos e.refColumn)).1 = []
    · rw [if_pos hkids] at h
      cases h
      exact ⟨hcount, hcounts, childrenOf_snd_gone .., fun _ =>
        (hsim.settled_of_childless habsent hvalue hkids).fades hvalue hcounts⟩
    · rw [if_neg hkids] at h
      split at h
      · cases h
      · rename_i hrestrict
        cases next with
        | none => cases h
        | some follow =>
          have hchild : ∀ kid ∈ (db.childrenOf sim e (db.foundValue table pos e.refColumn)).1,
              db.ChildOf e kid table pos := fun kid hkid =>
            ⟨hvalue, ((mem_childrenOf_iff habsent hvalue).mp hkid).1⟩
          obtain ⟨first, hfirst⟩ := List.exists_mem_of_ne_nil _ hkids
          have hnull : actionValue e executorNull e.onUpdate = executorNull :=
            actionValue_null fun haction => hdefaults.onUpdate table pos e first (.inl htouched)
              he (hchild first hfirst) haction
          rw [hnull] at h
          obtain ⟨hfading, hfades, hgone, hall⟩ := rewriteChildren_null (hnext follow rfl) hcount
            (fun kid hkid => .lost htouched he (hchild kid hkid) fun hr => hrestrict (.inl hr)) h
          refine ⟨hfading, hcounts.trans hfades, hgone.trans (childrenOf_snd_gone ..), fun _ => ?_⟩
          exact hsim.settled_of_children habsent hvalue (hcounts.trans hfades) hall
  · rw [if_pos hcolumn] at h
    cases h
    exact ⟨hsim, .refl _, rfl, fun hc => absurd hc hcolumn⟩

theorem changeKeyBody_clearsKeys (habsent : db.AbsentSound) (hdefaults : db.NoDefaults start)
    {next : Option Follow} (hnext : ∀ follow ∈ next, db.ClearsKeys start follow) :
    db.ClearsKeys start (db.changeKeyBody next) := by
  intro path table pos column sim sim' hsim htouched hvalue h
  simp only [changeKeyBody] at h
  rw [if_neg (by simp [hvalue])] at h
  have hstep : ∀ e ∈ db.edgesOf table, ∀ s s',
      db.Fading start s ∧ db.Fades sim s ∧ s.gone = sim.gone →
      db.changeKeyEdge next (table :: path) table column (db.foundValue table pos column)
        executorNull s e = .ok s' →
      (db.Fading start s' ∧ db.Fades sim s' ∧ s'.gone = sim.gone) ∧ db.Fades s s' ∧
        (e.refColumn = column → db.Settled s' e (db.foundValue table pos column)) := by
    rintro e he s s' ⟨hs, hfades, hgone⟩ hok
    obtain ⟨hs', hfades', hgone', hsettled⟩ :=
      changeKeyEdge_null habsent hdefaults hnext hs htouched hvalue he hok
    exact ⟨⟨hs', hfades.trans hfades', hgone'.trans hgone⟩, hfades', hsettled⟩
  have hbegin : db.Fading start sim ∧ db.Fades sim sim ∧ sim.gone = sim.gone :=
    ⟨hsim, .refl _, rfl⟩
  have hall := foldlM_invariant
    (fun e he s s' hs hok => (hstep e he s s' hs hok).1) hbegin h
  refine ⟨hall.1, hall.2.1, hall.2.2, fun e he hcolumn => ?_⟩
  exact foldlM_establishes
    (Q := fun s => db.Settled s e (db.foundValue table pos column)) he
    (fun e' he' s s' hs hok => (hstep e' he' s s' hs hok).1)
    (fun s s' hs hok => (hstep e he s s' hs hok).2.2 hcolumn)
    (fun e' he' s s' hs hq hok => hq.fades hvalue (hstep e' he' s s' hs hok).2.1) hbegin h

theorem changeKey_clearsKeys (habsent : db.AbsentSound) (hdefaults : db.NoDefaults start) :
    ∀ depth, db.ClearsKeys start (db.changeKey depth)
  | 0 => changeKeyBody_clearsKeys habsent hdefaults nofun
  | 1 => changeKeyBody_clearsKeys habsent hdefaults nofun
  | depth + 2 => changeKeyBody_clearsKeys habsent hdefaults fun follow h => by
      cases h
      exact changeKey_clearsKeys habsent hdefaults (depth + 1)

/-- What following a removed row does. -/
structure Removed (db : CascadeDb) (start : Effect → Prop) (sim sim' : CascadeSim) : Prop where
  fading : db.Fading start sim'
  fades : db.Fades sim sim'
  settled : db.NewlySettled sim sim'

/-- What `delete_row` has to do for a row that goes. -/
def RemovesRows (db : CascadeDb) (start : Effect → Prop)
    (deleteRow : String → Nat → CascadeSim → Except String CascadeSim) : Prop :=
  ∀ table pos sim sim', db.Fading start sim → db.Touched start (.goes table pos) →
    deleteRow table pos sim = .ok sim' →
    db.Removed start sim sim' ∧ sim'.gone table pos

theorem Removed.refl {sim : CascadeSim} (h : db.Fading start sim) : db.Removed start sim sim :=
  ⟨h, .refl sim, .refl sim⟩

theorem Removed.trans {sim sim' : CascadeSim} (h : db.Removed start sim sim')
    (h' : db.Removed start sim' sim'') : db.Removed start sim sim'' :=
  ⟨h'.fading, h.fades.trans h'.fades, h.settled.trans h'.settled h'.fades⟩

theorem Removed.of_gone {sim sim' : CascadeSim} (hfading : db.Fading start sim')
    (hfades : db.Fades sim sim') (hgone : sim'.gone = sim.gone) : db.Removed start sim sim' := by
  refine ⟨hfading, hfades, fun t p hg hstays => ?_⟩
  rw [hgone, hstays] at hg
  exact Bool.noConfusion hg

/-- The children that go with their parent. -/
theorem deleteChildren_removed {deleteRow : String → Nat → CascadeSim → Except String CascadeSim}
    (hdelete : db.RemovesRows start deleteRow) {kids : List Nat} {sim sim' : CascadeSim}
    (hsim : db.Fading start sim) (htouched : ∀ kid ∈ kids, db.Touched start (.goes e.table kid))
    (h : kids.foldlM (fun sim kid =>
      if sim.gone e.table kid then .ok sim else deleteRow e.table kid sim) sim = .ok sim') :
    db.Removed start sim sim' ∧ ∀ kid ∈ kids, sim'.gone e.table kid := by
  have hstep : ∀ kid ∈ kids, ∀ s s', db.Removed start sim s →
      (if s.gone e.table kid = true then Except.ok s else deleteRow e.table kid s) = .ok s' →
      db.Removed start sim s' ∧ db.Fades s s' ∧ s'.gone e.table kid := by
    intro kid hkid s s' hs hok
    by_cases hg : s.gone e.table kid = true
    · rw [if_pos hg] at hok
      cases hok
      exact ⟨hs, .refl _, hg⟩
    · rw [if_neg hg] at hok
      obtain ⟨hremoved, hgone⟩ := hdelete _ _ _ _ hs.fading (htouched kid hkid) hok
      exact ⟨hs.trans hremoved, hremoved.fades, hgone⟩
  refine ⟨foldlM_invariant (fun kid hkid s s' hs hok => (hstep kid hkid s s' hs hok).1)
    (.refl hsim) h, fun kid hkid => ?_⟩
  exact foldlM_establishes (Q := fun s => s.gone e.table kid = true) hkid
    (fun k hk s s' hs hok => (hstep k hk s s' hs hok).1)
    (fun s s' hs hok => (hstep kid hkid s s' hs hok).2.2)
    (fun k hk s s' hs hq hok => (hstep k hk s s' hs hok).2.1.gone _ _ hq) (.refl hsim) h

/-- One foreign key of a row that goes. -/
theorem deleteRowEdge_removed (habsent : db.AbsentSound) (hdefaults : db.NoDefaults start)
    {next : Option (String → Nat → CascadeSim → Except String CascadeSim)}
    (hnext : ∀ deleteRow ∈ next, db.RemovesRows start deleteRow) {depth : Nat} {table : String}
    {pos : Nat} {sim sim' : CascadeSim} (hsim : db.Fading start sim)
    (htouched : db.Touched start (.goes table pos)) (he : e ∈ db.edgesOf table)
    (h : db.deleteRowEdge next (db.changeKey depth) table pos sim e = .ok sim') :
    db.Removed start sim sim' ∧ (db.foundValue table pos e.refColumn ≠ executorNull →
      db.Settled sim' e (db.foundValue table pos e.refColumn)) := by
  obtain ⟨hedge, rfl⟩ := mem_edgesOf.mp he
  simp only [deleteRowEdge] at h
  by_cases hnull : db.valueOf sim e.parent pos e.refColumn = executorNull
  · rw [if_pos hnull] at h
    cases h
    exact ⟨.refl hsim, hsim.cleared e hedge pos hnull⟩
  · have hfound := (hsim.value e.parent pos e.refColumn).resolve_right hnull
    rw [if_neg hnull, hfound] at h
    rw [hfound] at hnull
    have hcount := hsim.childrenOf e (db.foundValue e.parent pos e.refColumn)
    have hcounts : db.Fades sim _ := .childrenOf sim e (db.foundValue e.parent pos e.refColumn)
    have hbegin : db.Removed start sim
        (db.childrenOf sim e (db.foundValue e.parent pos e.refColumn)).2 :=
      .of_gone hcount hcounts (childrenOf_snd_gone ..)
    have hchildless : (db.childrenOf sim e (db.foundValue e.parent pos e.refColumn)).1 = [] →
        db.Settled (db.childrenOf sim e (db.foundValue e.parent pos e.refColumn)).2 e
          (db.foundValue e.parent pos e.refColumn) := fun hkids =>
      (hsim.settled_of_childless habsent hnull hkids).fades hnull hcounts
    have hchild : ∀ kid ∈ (db.childrenOf sim e (db.foundValue e.parent pos e.refColumn)).1,
        db.ChildOf e kid e.parent pos := fun kid hkid =>
      ⟨hnull, ((mem_childrenOf_iff habsent hnull).mp hkid).1⟩
    split at h
    · split at h
      · cases h
      · rename_i hnone
        cases h
        exact ⟨hbegin, fun _ => hchildless (by tauto)⟩
    · rename_i hcascade
      split at h
      · split at h
        · rename_i hkids
          cases h
          exact ⟨hbegin, fun _ => hchildless hkids⟩
        · cases h
      · rename_i deleteRow
        obtain ⟨hremoved, hall⟩ := deleteChildren_removed (hnext deleteRow rfl) hcount
          (fun kid hkid => .removed htouched he (hchild kid hkid) hcascade) h
        refine ⟨hbegin.trans hremoved, fun _ => ?_⟩
        exact hsim.settled_of_children habsent hnull (hcounts.trans hremoved.fades)
          fun kid hkid => .inl (hall kid hkid)
    · rename_i hnotRestrict hnotCascade
      have haction : e.onDelete = .setNull ∨ e.onDelete = .setDefault := by
        cases hcase : e.onDelete with
        | restrict => exact absurd hcase hnotRestrict
        | cascade => exact absurd hcase hnotCascade
        | setNull => exact .inl rfl
        | setDefault => exact .inr rfl
      by_cases hkids : (db.childrenOf sim e (db.foundValue e.parent pos e.refColumn)).1 = []
      · rw [hkids] at h
        cases h
        exact ⟨hbegin, fun _ => hchildless hkids⟩
      · obtain ⟨first, hfirst⟩ := List.exists_mem_of_ne_nil _ hkids
        rw [actionValue_null fun hdefault => hdefaults.onDelete _ pos e first htouched he
          (hchild first hfirst) hdefault] at h
        obtain ⟨hfading, hfades, hgone, hall⟩ := rewriteChildren_null
          (changeKey_clearsKeys habsent hdefaults depth) hcount
          (fun kid hkid => .cleared htouched he (hchild kid hkid) haction) h
        refine ⟨hbegin.trans (.of_gone hfading hfades hgone), fun _ => ?_⟩
        exact hsim.settled_of_children habsent hnull (hcounts.trans hfades) hall

theorem markGone_fades (named : Bool) (table : String) (pos : Nat) :
    db.Fades sim (db.markGone sim named table pos) :=
  ⟨fun t p hg => by simp [markGone, hg], fun _ _ _ => .inl rfl⟩

/-- The foreign keys of a row that goes, one after the other. -/
theorem deleteEdges_removed (habsent : db.AbsentSound) (hdefaults : db.NoDefaults start)
    {next : Option (String → Nat → CascadeSim → Except String CascadeSim)}
    (hnext : ∀ deleteRow ∈ next, db.RemovesRows start deleteRow) {depth : Nat} {table : String}
    {pos : Nat} {named : Bool} {sim sim' : CascadeSim} (hsim : db.Fading start sim)
    (htouched : db.Touched start (.goes table pos))
    (h : (db.edgesOf table).foldlM (db.deleteRowEdge next (db.changeKey depth) table pos)
      (db.markGone sim named table pos) = .ok sim') :
    db.Removed start sim sim' ∧ sim'.gone table pos := by
  have hmark := @markGone_fades db sim named table pos
  have hgone : (db.markGone sim named table pos).gone table pos := by simp [markGone]
  have hbegin : db.Fading start (db.markGone sim named table pos) := by
    refine ⟨hsim.value, fun t p hg => ?_, fun e he p hnull hne =>
      (hsim.cleared e he p hnull hne).fades hne hmark⟩
    simp only [markGone, Bool.or_eq_true, decide_eq_true_eq] at hg
    rcases hg with ⟨rfl, rfl⟩ | hg
    · exact htouched
    · exact hsim.gone t p hg
  have hstep : ∀ e ∈ db.edgesOf table, ∀ s s',
      db.Removed start (db.markGone sim named table pos) s →
      db.deleteRowEdge next (db.changeKey depth) table pos s e = .ok s' →
      db.Removed start (db.markGone sim named table pos) s' ∧ db.Fades s s' ∧
        (db.foundValue table pos e.refColumn ≠ executorNull →
          db.Settled s' e (db.foundValue table pos e.refColumn)) := by
    intro e he s s' hs hok
    obtain ⟨hremoved, hsettled⟩ :=
      deleteRowEdge_removed habsent hdefaults hnext hs.fading htouched he hok
    exact ⟨hs.trans hremoved, hremoved.fades, hsettled⟩
  have hall := foldlM_invariant
    (fun e he s s' hs hok => (hstep e he s s' hs hok).1) (.refl hbegin) h
  refine ⟨⟨hall.fading, hmark.trans hall.fades, fun t p hg hstays e he hne => ?_⟩,
    hall.fades.gone _ _ hgone⟩
  by_cases hrow : t = table ∧ p = pos
  · obtain ⟨rfl, rfl⟩ := hrow
    exact foldlM_establishes
      (Q := fun s => db.Settled s e (db.foundValue t p e.refColumn)) he
      (fun e' he' s s' hs hok => (hstep e' he' s s' hs hok).1)
      (fun s s' hs hok => (hstep e he s s' hs hok).2.2 hne)
      (fun e' he' s s' hs hq hok => hq.fades hne (hstep e' he' s s' hs hok).2.1) (.refl hbegin) h
  · refine hall.settled t p hg ?_ e he hne
    simp only [markGone, hrow, decide_false, Bool.false_or, hstays]

theorem deleteRow_removesRows (habsent : db.AbsentSound) (hdefaults : db.NoDefaults start) :
    ∀ depth, db.RemovesRows start (db.deleteRow depth)
  | 0 => fun _ _ _ _ hsim htouched h => @deleteEdges_removed db start habsent hdefaults none
      nofun _ _ _ _ _ _ hsim htouched h
  | 1 => fun _ _ _ _ hsim htouched h => @deleteEdges_removed db start habsent hdefaults none
      nofun _ _ _ _ _ _ hsim htouched h
  | depth + 2 => fun _ _ _ _ hsim htouched h => deleteEdges_removed habsent hdefaults
      (fun deleteRow hmem => by
        cases hmem
        exact deleteRow_removesRows habsent hdefaults (depth + 1)) hsim htouched h

def deletes (table : String) (targets : List Nat) (effect : Effect) : Prop :=
  ∃ pos ∈ targets, effect = .goes table pos

theorem start_fading : db.Fading start CascadeSim.start := by
  refine ⟨fun _ _ _ => .inl rfl, nofun, fun e _ pos hnull hne => ?_⟩
  exact absurd hnull hne

variable {targets : List Nat}

theorem deleteTargets_removed (habsent : db.AbsentSound) {table : String}
    (hdefaults : db.NoDefaults (deletes table targets)) {holds : Row → Bool} {reread : Bool}
    {sim : CascadeSim}
    (h : db.deleteTargets table targets holds reread CascadeSim.start = .ok sim) :
    db.Removed (deletes table targets) CascadeSim.start sim := by
  refine foldlM_invariant (fun pos hpos s s' hs hok => ?_) (.refl start_fading) h
  split at hok
  · cases hok
    exact hs
  · exact hs.trans (deleteRow_removesRows habsent hdefaults _ table pos s s' hs.fading
      (.start ⟨pos, hpos, rfl⟩) hok).1

/-- What nothing has cleared and nothing removed, with everything that did either settled, is
intact. -/
theorem fkIntact_of_removed (hfound : db.FkIntact db.liveRows) {sim : CascadeSim}
    (h : db.Removed start CascadeSim.start sim) : db.FkIntact (db.rowsAfterDelete sim) := by
  intro e he row hrow hvalue
  obtain ⟨kid, hkid, rfl⟩ := List.mem_map.mp hrow
  obtain ⟨hlive, hstays⟩ := mem_staying_iff.mp hkid
  have hkept := (h.fading.value e.table kid e.column).resolve_right hvalue
  have hne : db.foundValue e.table kid e.column ≠ executorNull := hkept ▸ hvalue
  obtain ⟨pos, hpos, hsame⟩ := exists_parent_of_fkIntact hfound he hlive hne
  have hparent : db.foundValue e.parent pos e.refColumn ≠ executorNull := fun hnull =>
    not_same_null hne (hnull ▸ hsame)
  have hrefers : db.Same (db.valueOf sim e.table kid e.column)
      (db.foundValue e.parent pos e.refColumn) := by
    rw [hkept]
    exact hsame.symm
  have hposStays : sim.gone e.parent pos = false := by
    by_contra hgone
    exact h.settled e.parent pos (by simpa using hgone) rfl e (mem_edgesOf.mpr ⟨he, rfl⟩) hparent
      kid hlive hstays hrefers
  have hposKept : db.valueOf sim e.parent pos e.refColumn =
      db.foundValue e.parent pos e.refColumn := by
    refine (h.fading.value e.parent pos e.refColumn).resolve_right fun hnull => ?_
    exact h.fading.cleared e he pos hnull hparent kid hlive hstays hrefers
  refine ⟨db.imageOf sim e.parent pos,
    List.mem_map.mpr ⟨pos, mem_staying_iff.mpr ⟨hpos, hposStays⟩, rfl⟩, ?_⟩
  change db.Same (db.valueOf sim e.parent pos e.refColumn) (db.valueOf sim e.table kid e.column)
  rw [hposKept]
  exact hrefers.symm

theorem markTargets_gone {table : String} {t : String} {p : Nat} :
    (db.markTargets table targets).gone t p ↔ t = table ∧ p ∈ targets := by
  have hfold : ∀ (targets : List Nat) (sim : CascadeSim),
      (targets.foldl (fun sim pos => db.markGone sim true table pos) sim).gone t p ↔
        (t = table ∧ p ∈ targets) ∨ sim.gone t p := by
    intro targets
    induction targets with
    | nil => simp
    | cons pos targets ih =>
      intro sim
      rw [List.foldl_cons, ih]
      simp only [markGone, Bool.or_eq_true, decide_eq_true_eq, List.mem_cons]
      tauto
  rw [markTargets, hfold]
  simp [CascadeSim.start]

theorem markTargets_rewritten (targets : List Nat) :
    (db.markTargets table targets).rewritten = CascadeSim.start.rewritten := by
  have hfold : ∀ (targets : List Nat) (sim : CascadeSim),
      (targets.foldl (fun sim pos => db.markGone sim true table pos) sim).rewritten =
        sim.rewritten := by
    intro targets
    induction targets with
    | nil => exact fun _ => rfl
    | cons pos targets ih => exact fun sim => ih _
  exact hfold targets _

theorem markTargets_removed {table : String}
    (hsettled : ∀ pos ∈ targets, ∀ e ∈ db.edgesOf table, db.foundValue table pos e.refColumn ≠
      executorNull → ∀ kid, ¬ db.RefersTo e kid (db.foundValue table pos e.refColumn)) :
    db.Removed (deletes table targets) CascadeSim.start (db.markTargets table targets) := by
  have hvalue := fun t p c => @valueOf_congr db _ _ (@markTargets_rewritten db table targets) t p c
  have hfound : ∀ t p c, db.valueOf (db.markTargets table targets) t p c = db.foundValue t p c :=
    fun t p c => hvalue t p c
  refine ⟨⟨fun t p c => .inl (hfound t p c), fun t p hg => ?_, fun e _ pos hnull hne => ?_⟩,
    ⟨nofun, fun t p c => .inl (hvalue t p c)⟩, ?_⟩
  · obtain ⟨rfl, hp⟩ := markTargets_gone.mp hg
    exact .start ⟨p, hp, rfl⟩
  · rw [hfound] at hnull
    exact absurd hnull hne
  · intro t p hg _ e he hne kid hlive _ hsame
    obtain ⟨rfl, hp⟩ := markTargets_gone.mp hg
    rw [hfound] at hsame
    exact hsettled p hp e he hne kid ⟨hlive, hsame⟩

theorem planCascadeDelete_fkIntact (habsent : db.AbsentSound) (hfound : db.FkIntact db.liveRows)
    {table : String} (hdefaults : db.NoDefaults (deletes table targets)) {holds : Row → Bool}
    {reread : Bool} {sim : CascadeSim}
    (h : db.planCascadeDelete table targets holds reread = .ok sim) :
    db.FkIntact (db.rowsAfterDelete sim) := by
  rw [planCascadeDelete] at h
  split at h
  · rename_i hedges
    cases h
    refine fkIntact_of_removed hfound (markTargets_removed fun pos _ e he => ?_)
    rw [hedges] at he
    exact absurd he (List.not_mem_nil)
  · split at h
    · rename_i hnone
      cases h
      refine fkIntact_of_removed hfound (markTargets_removed fun pos hpos e he hne kid href => ?_)
      cases hcell : ((db.rowsOf table).getD pos ∅).find e.refColumn with
      | none => exact hne (by rw [foundValue, hcell]; rfl)
      | some value =>
        have hvalue : db.foundValue table pos e.refColumn = value := by
          rw [foundValue, hcell]
          rfl
        rw [hvalue] at hne href
        refine habsent e.table e.column value kid ?_ hne href.1 href.2
        by_contra hpresent
        apply Bool.not_eq_true' _ |>.mp hnone |> Bool.eq_false_iff.mp
        refine List.any_eq_true.mpr ⟨pos, hpos, List.any_eq_true.mpr ⟨e, he, ?_⟩⟩
        rw [hcell]
        simpa [hne] using hpresent
    · exact fkIntact_of_removed hfound (deleteTargets_removed habsent hdefaults h)

end RusqlEngine.CascadeDb
