import RusqlEngine.CascadeDelete

/-!
# An UPDATE of keys keeps every foreign key

While `change_key` follows a cell its children may already hold the new value and the cell the old
one, so the foreign keys to the tables on the path are left out until the cell is rewritten. A child
that has moved refers to a parent that has moved: rows that another step moved to the old value stay
where they are.
-/

namespace RusqlEngine.CascadeDb

open ExceptFold

/-- An UPDATE: the new images of its rows by their positions, and the columns that it sets. -/
structure KeyUpdate where
  table : String
  targets : List (Nat × Row)
  changedCols : List String

/-- The old and the new image of every target. -/
def targetPairs (db : CascadeDb) (table : String) (targets : List (Nat × Row)) :
    List (Row × Row) :=
  targets.map fun target => ((db.rowsOf table).getD target.1 ∅, target.2)

/-- The image of a live row of a table after an UPDATE has applied its plan. -/
def imageAfterUpdate (db : CascadeDb) (u : KeyUpdate) (sim : CascadeSim) (t : String)
    (pos : Nat) : Row :=
  if t = u.table then
    ((u.targets.find? fun target => target.1 == pos).map Prod.snd).getD (db.imageOf sim t pos)
  else db.imageOf sim t pos

/-- The live rows after an UPDATE has applied its plan. -/
def rowsAfterUpdate (db : CascadeDb) (u : KeyUpdate) (sim : CascadeSim) (t : String) : List Row :=
  (db.staying CascadeSim.start t).map (db.imageAfterUpdate u sim t)

/-- What a new value does to the cell that takes it. -/
def effectOf (newValue table : String) (pos : Nat) (column : String) : Effect :=
  if newValue = executorNull then .loses table pos column else .takes table pos column newValue

/-- The cells that an UPDATE changes. -/
def updates (db : CascadeDb) (u : KeyUpdate) (effect : Effect) : Prop :=
  ∃ target ∈ u.targets, ∃ column ∈ u.changedCols,
    cellOrNull target.2 column ≠ db.foundValue u.table target.1 column ∧
      effect = effectOf (cellOrNull target.2 column) u.table target.1 column

/-- A column that takes a new value from one parent has it in the parents of its other keys too, in
rows that the statement leaves alone, where they had it at all. -/
def OthersStay (db : CascadeDb) (start : Effect → Prop) : Prop :=
  ∀ table pos e kid value, db.Touched start (.takes table pos e.refColumn value) →
    e ∈ db.edgesOf table → db.ChildOf e kid table pos → e.onUpdate = .cascade →
    ∀ e' ∈ db.catalog.edges, e'.table = e.table → e'.column = e.column →
      ¬ (e'.parent = e.parent ∧ e'.refColumn = e.refColumn) →
      (∃ p, db.Live e'.parent p ∧ db.Same (db.foundValue e'.parent p e'.refColumn) value) →
      db.Anchored start e' value

/-- What the executor hands over: every target is a live row, once, and its new image differs in the
changed columns alone, as far as foreign keys go. -/
structure TargetsOf (db : CascadeDb) (u : KeyUpdate) : Prop where
  live : ∀ target ∈ u.targets, db.Live u.table target.1
  nodup : (u.targets.map Prod.fst).Nodup
  unchanged : ∀ target ∈ u.targets, ∀ e ∈ db.catalog.edges, ∀ column ∉ u.changedCols,
    (e.table = u.table ∧ e.column = column) ∨ (e.parent = u.table ∧ e.refColumn = column) →
    cellOrNull target.2 column = db.foundValue u.table target.1 column

/-- The row is given a new value in the foreign key by the statement itself. -/
def SetsKey (db : CascadeDb) (u : KeyUpdate) (e : Edge) (kid : Nat) : Prop :=
  e.table = u.table ∧ ∃ target ∈ u.targets, target.1 = kid ∧ e.column ∈ u.changedCols ∧
    cellOrNull target.2 e.column ≠ db.foundValue u.table kid e.column

/-- A value that the statement itself gives a foreign key has a parent: a row that the statement
leaves alone, or a row of the table as the statement leaves it. -/
def OwnKeysHeld (db : CascadeDb) (u : KeyUpdate) : Prop :=
  ∀ target ∈ u.targets, ∀ e ∈ db.catalog.edges, db.SetsKey u e target.1 →
    cellOrNull target.2 e.column ≠ executorNull →
    db.Anchored (db.updates u) e (cellOrNull target.2 e.column) ∨
      (e.parent = u.table ∧ ∃ pos, db.Live u.table pos ∧
        db.Same (cellOrNull (db.imageAfterUpdate u CascadeSim.start u.table pos) e.refColumn)
          (cellOrNull target.2 e.column))

variable {db : CascadeDb} {u : KeyUpdate}

/-- The value of every cell while an UPDATE is followed, where `cur` are the cells of the table
itself. -/
def view (db : CascadeDb) (u : KeyUpdate) (cur : Nat → String → String) (sim : CascadeSim)
    (t : String) (pos : Nat) (column : String) : String :=
  if t = u.table then cur pos column else db.valueOf sim t pos column

/-- The cell has a value that is not the one it was found with. -/
def Moved (db : CascadeDb) (f : String → Nat → String → String) (t : String) (pos : Nat)
    (column : String) : Prop :=
  ¬ db.Same (f t pos column) (db.foundValue t pos column)

/-- The row of the parent's table has the value of the child, and has moved if the child has. -/
def HeldBy (db : CascadeDb) (f : String → Nat → String → String) (e : Edge) (kid pos : Nat) :
    Prop :=
  db.Live e.parent pos ∧ db.Same (f e.parent pos e.refColumn) (f e.table kid e.column) ∧
    (db.Moved f e.parent pos e.refColumn ↔ db.Moved f e.table kid e.column)

/-- The value needs no parent, or has one that the statement leaves alone. -/
def Secure (db : CascadeDb) (u : KeyUpdate) (e : Edge) (value : String) : Prop :=
  value = executorNull ∨ db.Anchored (db.updates u) e value

/-- The child refers to nothing, or to a row that is there. -/
def Held (db : CascadeDb) (u : KeyUpdate) (f : String → Nat → String → String) (e : Edge)
    (kid : Nat) : Prop :=
  db.Secure u e (f e.table kid e.column) ∨ ∃ pos, db.HeldBy f e kid pos

/-- Every child of a table that is not on the path is held, but for those that the statement
sets. -/
def AllHeld (db : CascadeDb) (u : KeyUpdate) (path : List String)
    (f : String → Nat → String → String) : Prop :=
  ∀ e ∈ db.catalog.edges, e.parent ∉ path → ∀ kid, db.Live e.table kid → ¬ db.SetsKey u e kid →
    db.Held u f e kid

/-- The child of a cell that goes from one value to the other has the new value already, or a row
that stays where it is holds it. -/
def HeldAcross (db : CascadeDb) (u : KeyUpdate) (f : String → Nat → String → String) (e : Edge)
    (oldValue newValue : String) (kid : Nat) : Prop :=
  db.Secure u e (f e.table kid e.column) ∨
  (db.Same (db.foundValue e.table kid e.column) oldValue ∧
    db.Same (f e.table kid e.column) newValue) ∨
  ((∃ pos, db.HeldBy f e kid pos) ∧
    ¬ (db.Same (f e.table kid e.column) oldValue ∧
      db.Same (db.foundValue e.table kid e.column) oldValue))

variable {path : List String} {column : String} {oldValue : String} {newValue : String}

section

variable {f f' : String → Nat → String → String} {e : Edge} {kid pos : Nat}

theorem HeldBy.congr (h : db.HeldBy f e kid pos)
    (hparent : f' e.parent pos e.refColumn = f e.parent pos e.refColumn)
    (hchild : f' e.table kid e.column = f e.table kid e.column) : db.HeldBy f' e kid pos := by
  rw [HeldBy, Moved, Moved, hparent, hchild]
  exact h

theorem Held.congr (h : db.Held u f e kid)
    (hparent : ∀ pos, f' e.parent pos e.refColumn = f e.parent pos e.refColumn)
    (hchild : f' e.table kid e.column = f e.table kid e.column) : db.Held u f' e kid := by
  rcases h with hsecure | ⟨pos, hpos⟩
  · exact .inl (hchild ▸ hsecure)
  · exact .inr ⟨pos, hpos.congr (hparent pos) hchild⟩

theorem Held.across_self (h : db.Held u f e kid) (value : String) :
    db.HeldAcross u f e value value kid := by
  rcases h with hsecure | hpos
  · exact .inl hsecure
  · by_cases hvalue : db.Same (f e.table kid e.column) value ∧
        db.Same (db.foundValue e.table kid e.column) value
    · exact .inr (.inl ⟨hvalue.2, hvalue.1⟩)
    · exact .inr (.inr ⟨hpos, hvalue⟩)

theorem Held.across_null (h : db.Held u f e kid) (value : String) :
    db.HeldAcross u f e executorNull value kid := by
  rcases h with hsecure | hpos
  · exact .inl hsecure
  · by_cases hvalue : f e.table kid e.column = executorNull
    · exact .inl (.inl hvalue)
    · exact .inr (.inr ⟨hpos, fun hsame => not_same_null hvalue hsame.1.symm⟩)

/-- When the followed cell takes its new value, the children of its table are held again. -/
theorem allHeld_set {table : String} (hset : f' table pos column = newValue)
    (hkeep : ∀ t p c, ¬ (t = table ∧ p = pos ∧ c = column) → f' t p c = f t p c)
    (hlive : db.Live table pos) (hfound : db.Same (db.foundValue table pos column) oldValue)
    (hbefore : f table pos column = newValue ∨ db.Same (f table pos column) oldValue)
    (hheld : db.AllHeld u (table :: path) f)
    (hother : ∀ e ∈ db.catalog.edges, e.parent = table → e.refColumn ≠ column →
      ∀ kid, db.Live e.table kid → ¬ db.SetsKey u e kid → db.Held u f e kid)
    (hacross : ∀ e ∈ db.catalog.edges, e.parent = table → e.refColumn = column →
      ∀ kid, db.Live e.table kid → ¬ db.SetsKey u e kid → db.HeldAcross u f e oldValue newValue kid)
    (hchild : f table pos column = newValue ∨ ∀ e ∈ db.catalog.edges, e.table = table →
      e.column = column → e.parent ∉ path → ¬ db.SetsKey u e pos → db.Secure u e newValue) :
    db.AllHeld u path f' := by
  intro e he hparent kid hkid hsets
  by_cases hself : f table pos column ≠ newValue ∧ e.table = table ∧ kid = pos ∧ e.column = column
  · obtain ⟨hdiff, htable, rfl, hcolumn⟩ := hself
    refine .inl ?_
    rw [htable, hcolumn, hset]
    exact hchild.resolve_left hdiff e he htable hcolumn hparent hsets
  have hkidSame : f' e.table kid e.column = f e.table kid e.column := by
    by_cases hcell : e.table = table ∧ kid = pos ∧ e.column = column
    · have hsame : f table pos column = newValue := by tauto
      rw [hcell.1, hcell.2.1, hcell.2.2, hset, hsame]
    · exact hkeep _ _ _ hcell
  by_cases htable : e.parent = table
  · by_cases hcolumn : e.refColumn = column
    · rcases hacross e he htable hcolumn kid hkid hsets with
        hsecure | ⟨hold, hnew⟩ | ⟨⟨p, hp⟩, hnot⟩
      · exact .inl (hkidSame ▸ hsecure)
      · refine .inr ⟨pos, htable ▸ hlive, ?_, ?_⟩
        · rw [htable, hcolumn, hset, hkidSame]
          exact hnew.symm
        · rw [Moved, Moved, htable, hcolumn, hset, hkidSame]
          refine not_congr ⟨fun h => ?_, fun h => ?_⟩
          · exact hnew.trans (h.trans (hfound.trans hold.symm))
          · exact hnew.symm.trans (h.trans (hold.trans hfound.symm))
      · by_cases hp' : p = pos
        · subst hp'
          rcases hbefore with hsame | hsame
          · exact .inr ⟨p, hp.congr (by rw [htable, hcolumn, hset, hsame]) hkidSame⟩
          · have hunmoved : ¬ db.Moved f e.parent p e.refColumn := by
              rw [Moved, not_not, htable, hcolumn]
              exact hsame.trans hfound.symm
            have hkidOld : db.Same (f e.table kid e.column) oldValue := by
              refine hp.2.1.symm.trans ?_
              rw [htable, hcolumn]
              exact hsame
            have hkidFound := not_not.mp (mt hp.2.2.mpr hunmoved)
            exact absurd ⟨hkidOld, hkidFound.symm.trans hkidOld⟩ hnot
        · exact .inr ⟨p, hp.congr (hkeep _ _ _ (by tauto)) hkidSame⟩
    · exact (hother e he htable hcolumn kid hkid hsets).congr (fun p => hkeep _ _ _ (by tauto))
        hkidSame
  · exact (hheld e he (by simp [htable, hparent]) kid hkid hsets).congr
      (fun p => hkeep _ _ _ (by tauto)) hkidSame

end

/-- A simulation of an UPDATE: it has removed no row and rewritten none of the table, the cells that
the statement leaves alone are as they were found, and the children of the tables off the path are
held. -/
structure Following (db : CascadeDb) (u : KeyUpdate) (cur : Nat → String → String)
    (path : List String) (sim : CascadeSim) : Prop where
  gone : ∀ t p, sim.gone t p = false
  target : ∀ p, sim.rewritten u.table p = none
  fixed : ∀ t p c, db.Fixed (db.updates u) t p c → db.view u cur sim t p c = db.foundValue t p c
  held : db.AllHeld u path (db.view u cur sim)

/-- The cell is as it was, or no foreign key to a table of the path needs more than it has. -/
def CellKept (db : CascadeDb) (u : KeyUpdate) (cur : Nat → String → String) (path : List String)
    (sim sim' : CascadeSim) (t : String) (kid : Nat) (c : String) : Prop :=
  db.view u cur sim' t kid c = db.view u cur sim t kid c ∨
    ∀ e ∈ db.catalog.edges, e.table = t → e.column = c → e.parent ∈ path →
      db.Secure u e (db.view u cur sim' t kid c)

/-- What following one changed cell does. -/
structure Followed (db : CascadeDb) (u : KeyUpdate) (cur : Nat → String → String)
    (path : List String) (t column oldValue newValue : String) (sim sim' : CascadeSim) :
    Prop where
  following : db.Following u cur (t :: path) sim'
  frame : ∀ t' ∈ t :: path, ∀ p, sim'.rewritten t' p = sim.rewritten t' p
  cells : ∀ t' kid c, db.CellKept u cur path sim sim' t' kid c
  other : ∀ e ∈ db.catalog.edges, e.parent = t → e.refColumn ≠ column → ∀ kid,
    db.Live e.table kid → ¬ db.SetsKey u e kid → db.Held u (db.view u cur sim') e kid
  across : ∀ e ∈ db.catalog.edges, e.parent = t → e.refColumn = column → ∀ kid,
    db.Live e.table kid → ¬ db.SetsKey u e kid →
      db.HeldAcross u (db.view u cur sim') e oldValue newValue kid

/-- What `change_key` has to do for a cell that is found with the old value. -/
def FollowsKeys (db : CascadeDb) (u : KeyUpdate) (cur : Nat → String → String)
    (follow : Follow) : Prop :=
  ∀ path t pos column oldValue newValue sim sim', u.table ∈ t :: path → t ∉ path →
    db.Following u cur path sim → db.Same (db.foundValue t pos column) oldValue →
    (oldValue ≠ newValue → db.Touched (db.updates u) (effectOf newValue t pos column)) →
    follow path t column oldValue newValue sim = .ok sim' →
    db.Followed u cur path t column oldValue newValue sim sim'

/-- What rewriting one cell does, once its children have been followed. -/
structure Rewrote (db : CascadeDb) (u : KeyUpdate) (cur : Nat → String → String)
    (path : List String) (t : String) (pos : Nat) (column value : String)
    (sim sim' : CascadeSim) : Prop where
  following : db.Following u cur path sim'
  frame : ∀ t' ∈ path, ∀ p, sim'.rewritten t' p = sim.rewritten t' p
  cells : ∀ t' kid c, ¬ (t' = t ∧ kid = pos ∧ c = column) →
    db.CellKept u cur path sim sim' t' kid c
  own : ∀ kid c, ¬ (kid = pos ∧ c = column) →
    db.view u cur sim' t kid c = db.view u cur sim t kid c
  value : db.view u cur sim' t pos column = value

/-- The other keys of the key's column have the value too, in rows that the statement leaves
alone. -/
def OthersSecure (db : CascadeDb) (u : KeyUpdate) (e : Edge) (value : String) : Prop :=
  ∀ e' ∈ db.catalog.edges, e'.table = e.table → e'.column = e.column →
    ¬ (e'.parent = e.parent ∧ e'.refColumn = e.refColumn) → db.Secure u e' value

variable {sim : CascadeSim} {sim' : CascadeSim} {e : Edge}

section

variable {cur : Nat → String → String}

theorem view_of_ne {t : String} (h : t ≠ u.table) (sim : CascadeSim) (pos : Nat)
    (column : String) : db.view u cur sim t pos column = db.valueOf sim t pos column :=
  if_neg h

variable {pos : Nat}

theorem view_congr {t : String} (h : sim'.rewritten t pos = sim.rewritten t pos) (column : String) :
    db.view u cur sim' t pos column = db.view u cur sim t pos column := by
  rw [view, view, valueOf, valueOf, imageOf, imageOf, h]

theorem view_setImage {t : String} (h : t ≠ u.table) (sim : CascadeSim) (pos : Nat)
    (column value : String) (t' : String) (p : Nat) (c : String) :
    db.view u cur (db.setImage sim t pos column value) t' p c =
      if t' = t ∧ p = pos ∧ c = column then value else db.view u cur sim t' p c := by
  rw [view, valueOf_setImage]
  by_cases htable : t' = u.table
  · rw [if_pos htable, if_neg (fun hcell => h (hcell.1.symm.trans htable)), view, if_pos htable]
  · rw [if_neg htable, view, if_neg htable]

theorem Following.of_eq (h : db.Following u cur path sim) (hgone : sim'.gone = sim.gone)
    (hrewritten : sim'.rewritten = sim.rewritten) : db.Following u cur path sim' := by
  have hview : db.view u cur sim' = db.view u cur sim := by
    funext t p c
    exact view_congr (by rw [hrewritten]) c
  exact ⟨fun t p => hgone ▸ h.gone t p, fun p => hrewritten ▸ h.target p, hview ▸ h.fixed,
    hview ▸ h.held⟩

theorem Following.cons (h : db.Following u cur path sim) (t : String) :
    db.Following u cur (t :: path) sim :=
  ⟨h.gone, h.target, h.fixed, fun e he hp => h.held e he fun hc => hp (.tail _ hc)⟩

theorem not_fixed_of_touched {start : Effect → Prop} {t : String}
    (h : db.Touched start (effectOf newValue t pos column)) : ¬ db.Fixed start t pos column := by
  intro hfixed
  rw [effectOf] at h
  split at h
  · exact hfixed.1 h
  · exact hfixed.2 _ h

variable {follow : Follow} {value : String}

/-- One cell is rewritten, its children before it. -/
theorem rewriteColumn_rewrote (hfollow : db.FollowsKeys u cur follow) {t : String}
    (htable : u.table ∈ path) (ht : t ∉ path) (hsim : db.Following u cur path sim)
    (hlive : db.Live t pos) (hfound : db.valueOf sim t pos column ≠ value →
      db.Same (db.foundValue t pos column) (db.valueOf sim t pos column))
    (htouched : db.Touched (db.updates u) (effectOf value t pos column))
    (hchild : ∀ e ∈ db.catalog.edges, e.table = t → e.column = column → e.parent ∉ path →
      db.Secure u e value) (h : db.rewriteColumn follow path t pos column value sim = .ok sim') :
    db.Rewrote u cur path t pos column value sim sim' := by
  have hne : t ≠ u.table := fun he => ht (he ▸ htable)
  rw [rewriteColumn] at h
  by_cases hsame : db.valueOf sim t pos column = value
  · simp only [hsame, if_true] at h
    cases h
    exact ⟨hsim, fun _ _ _ => rfl, fun _ _ _ _ => .inl rfl, fun _ _ _ => rfl,
      (view_of_ne hne sim pos column).trans hsame⟩
  · simp only [if_neg hsame] at h
    obtain ⟨mid, hmid, hset⟩ := bind_eq_ok_iff.mp h
    cases hset
    have hfollowed := hfollow path t pos column _ value sim mid (.tail _ htable) ht
      hsim (hfound hsame) (fun _ => htouched) hmid
    have hview := fun t' p c => @view_setImage db u cur t hne mid pos column value t' p c
    have hmidSelf : db.view u cur mid t pos column = db.valueOf sim t pos column := by
      rw [view_congr (hfollowed.frame t List.mem_cons_self pos), view_of_ne hne]
    refine ⟨⟨hfollowed.following.gone, fun p => ?_, fun t' p c hfixed => ?_, ?_⟩,
      fun t' ht' p => ?_, fun t' kid c hcell => ?_, fun kid c hcell => ?_, ?_⟩
    · change (if u.table = t ∧ p = pos then _ else mid.rewritten u.table p) = none
      rw [if_neg (fun hcell => hne hcell.1.symm)]
      exact hfollowed.following.target p
    · rw [hview, if_neg]
      · exact hfollowed.following.fixed t' p c hfixed
      · rintro ⟨rfl, rfl, rfl⟩
        exact not_fixed_of_touched htouched hfixed
    · refine allHeld_set (f := db.view u cur mid)
        ((hview t pos column).trans (if_pos ⟨rfl, rfl, rfl⟩))
        (fun t' p c hcell => (hview t' p c).trans (if_neg hcell)) hlive (hfound hsame)
        (.inr ?_) hfollowed.following.held hfollowed.other hfollowed.across
        (.inr fun e he ht hc hp _ => hchild e he ht hc hp)
      rw [hmidSelf]
      exact rfl
    · change (if t' = t ∧ p = pos then _ else mid.rewritten t' p) = _
      rw [if_neg (fun hcell : t' = t ∧ p = pos => ht (hcell.1 ▸ ht'))]
      exact hfollowed.frame t' (.tail _ ht') p
    · rw [CellKept, hview, if_neg hcell]
      exact hfollowed.cells t' kid c
    · rw [hview, if_neg (by tauto)]
      exact view_congr (hfollowed.frame t List.mem_cons_self kid) c
    · rw [hview, if_pos ⟨rfl, rfl, rfl⟩]

/-- What rewriting some children of a foreign key does. -/
structure RewroteAll (db : CascadeDb) (u : KeyUpdate) (cur : Nat → String → String)
    (path : List String) (e : Edge) (kids : List Nat) (value : String) (sim sim' : CascadeSim) :
    Prop where
  following : db.Following u cur path sim'
  frame : ∀ t' ∈ path, ∀ p, sim'.rewritten t' p = sim.rewritten t' p
  cells : ∀ t' kid c, db.CellKept u cur path sim sim' t' kid c ∨
    (t' = e.table ∧ c = e.column ∧ kid ∈ kids ∧ db.view u cur sim' t' kid c = value ∧
      db.OthersSecure u e value)
  own : ∀ kid, db.view u cur sim' e.table kid e.column =
      db.view u cur sim e.table kid e.column ∨
    (kid ∈ kids ∧ db.view u cur sim' e.table kid e.column = value)

variable {kids : List Nat} {kid : Nat}

/-- One child row, after some of its siblings. -/
theorem rewriteChild_rewrote (hfollow : db.FollowsKeys u cur follow) {s s' : CascadeSim}
    (htable : u.table ∈ path) (he : e.table ∉ path) (hparent : e.parent ∈ path)
    (hkid : db.RefersTo e kid oldValue ∧ db.Same (db.valueOf sim e.table kid e.column) oldValue)
    (htouched : db.Touched (db.updates u) (effectOf value e.table kid e.column))
    (hothers : db.otherParentMissing e value = none → db.OthersSecure u e value)
    (hs : db.RewroteAll u cur path e kids value sim s)
    (h : (if s.gone e.table kid = true then Except.ok s
      else match db.otherParentMissing e value with
        | some refused => .error refused
        | none => db.rewriteColumn follow path e.table kid e.column value s) = .ok s') :
    db.Rewrote u cur path e.table kid e.column value s s' ∧ db.OthersSecure u e value := by
  have hne : e.table ≠ u.table := fun hc => he (hc ▸ htable)
  rw [hs.following.gone e.table kid, if_neg Bool.false_ne_true] at h
  split at h
  · cases h
  · rename_i hnone
    obtain ⟨href, hsame⟩ := hkid
    have hview := @view_of_ne db u cur e.table hne s kid e.column
    refine ⟨rewriteColumn_rewrote hfollow htable he hs.following href.1 (fun hdiff => ?_)
      htouched (fun e' he' ht hc hp => hothers hnone e' he' ht hc
        fun hboth => hp (hboth.1 ▸ hparent)) h, hothers hnone⟩
    rcases hs.own kid with hkeep | ⟨-, hvalue⟩
    · rw [← hview, hkeep, view_of_ne hne]
      exact href.2.trans hsame.symm
    · exact absurd (hview.symm.trans hvalue) hdiff

theorem RewroteAll.rewrote {s s' : CascadeSim} (h : db.RewroteAll u cur path e kids value sim s)
    (hkid : kid ∈ kids) (hs' : db.Rewrote u cur path e.table kid e.column value s s' ∧
      db.OthersSecure u e value) : db.RewroteAll u cur path e kids value sim s' := by
  obtain ⟨hs', hothers⟩ := hs'
  refine ⟨hs'.following, fun t' ht' p => (hs'.frame t' ht' p).trans (h.frame t' ht' p),
    fun t' k c => ?_, fun k => ?_⟩
  · by_cases hcell : t' = e.table ∧ k = kid ∧ c = e.column
    · obtain ⟨rfl, rfl, rfl⟩ := hcell
      exact .inr ⟨rfl, rfl, hkid, hs'.value, hothers⟩
    · rcases hs'.cells t' k c hcell with hsame | hsecure
      · rw [CellKept, hsame]
        exact h.cells t' k c
      · exact .inl (.inr hsecure)
  · by_cases hcell : k = kid
    · subst hcell
      exact .inr ⟨hkid, hs'.value⟩
    · rw [hs'.own k e.column (by tauto)]
      exact h.own k

theorem rewriteChildren_rewrote (hfollow : db.FollowsKeys u cur follow)
    (htable : u.table ∈ path) (he : e.table ∉ path) (hparent : e.parent ∈ path)
    (hsim : db.Following u cur path sim) (hkids : ∀ kid ∈ kids, db.RefersTo e kid oldValue ∧
      db.Same (db.valueOf sim e.table kid e.column) oldValue)
    (htouched : ∀ kid ∈ kids, db.Touched (db.updates u) (effectOf value e.table kid e.column))
    (hothers : db.otherParentMissing e value = none → db.OthersSecure u e value)
    (h : db.rewriteChildren follow path e value kids sim = .ok sim') :
    db.RewroteAll u cur path e kids value sim sim' ∧
      ∀ kid ∈ kids, db.view u cur sim' e.table kid e.column = value := by
  have hbegin : db.RewroteAll u cur path e kids value sim sim :=
    ⟨hsim, fun _ _ _ => rfl, fun _ _ _ => .inl (.inl rfl), fun _ => .inl rfl⟩
  have hstep := fun kid (hkid : kid ∈ kids) s s' hs hok => @rewriteChild_rewrote db u path oldValue
    sim e cur follow value kids kid hfollow s s' htable he hparent (hkids kid hkid)
    (htouched kid hkid) hothers hs hok
  refine ⟨foldlM_invariant (P := db.RewroteAll u cur path e kids value sim)
    (fun kid hkid s s' hs hok => hs.rewrote hkid (hstep kid hkid s s' hs hok)) hbegin h,
    fun kid hkid => ?_⟩
  refine foldlM_establishes (P := db.RewroteAll u cur path e kids value sim)
    (Q := fun s => db.view u cur s e.table kid e.column = value) hkid
    (fun k hk s s' hs hok => hs.rewrote hk (hstep k hk s s' hs hok))
    (fun s s' hs hok => (hstep kid hkid s s' hs hok).1.value)
    (fun k hk s s' hs hq hok => ?_) hbegin h
  have hs' := (hstep k hk s s' hs hok).1
  by_cases hcell : kid = k
  · rw [hcell]
    exact hs'.value
  · rw [hs'.own kid e.column (by tauto)]
    exact hq

/-- What following one foreign key of a changed cell does to the cells. -/
structure FollowedEdge (db : CascadeDb) (u : KeyUpdate) (cur : Nat → String → String)
    (path : List String) (t column oldValue newValue : String) (sim sim' : CascadeSim) :
    Prop where
  following : db.Following u cur (t :: path) sim'
  frame : ∀ t' ∈ t :: path, ∀ p, sim'.rewritten t' p = sim.rewritten t' p
  cells : ∀ t' kid c, db.view u cur sim' t' kid c = db.view u cur sim t' kid c ∨
    ∀ e ∈ db.catalog.edges, e.table = t' → e.column = c → e.parent ∈ t :: path →
      db.Secure u e (db.view u cur sim' t' kid c) ∨
      (e.parent = t ∧ e.refColumn = column ∧ db.Same (db.foundValue t' kid c) oldValue ∧
        db.view u cur sim' t' kid c = newValue)

/-- No child of the foreign key that was found with the old value still has it. -/
def Resolved (db : CascadeDb) (u : KeyUpdate) (f : String → Nat → String → String) (e : Edge)
    (oldValue newValue : String) : Prop :=
  ∀ kid, db.Live e.table kid → db.Secure u e (f e.table kid e.column) ∨
    (db.Same (db.foundValue e.table kid e.column) oldValue ∧
      db.Same (f e.table kid e.column) newValue) ∨
    ¬ (db.Same (f e.table kid e.column) oldValue ∧
      db.Same (db.foundValue e.table kid e.column) oldValue)

variable {start : Effect → Prop}

/-- The value that an action writes is NULL, or the new value. -/
theorem actionValue_eq (hdefaults : db.NoDefaults start) {t : String}
    (htouched : db.Touched start (effectOf newValue t pos e.refColumn)) (he : e ∈ db.edgesOf t)
    (haction : e.onUpdate ≠ .restrict) (hchild : db.ChildOf e kid t pos) :
    actionValue e newValue e.onUpdate = executorNull ∨
      (e.onUpdate = .cascade ∧ actionValue e newValue e.onUpdate = newValue) := by
  by_cases hnull : newValue = executorNull
  · rw [effectOf, if_pos hnull] at htouched
    refine .inl ?_
    rw [hnull]
    exact actionValue_null fun hdefault =>
      hdefaults.onUpdate t pos e kid (.inl htouched) he hchild hdefault
  · rw [effectOf, if_neg hnull] at htouched
    cases hcase : e.onUpdate with
    | restrict => exact absurd hcase haction
    | cascade => exact .inr ⟨rfl, rfl⟩
    | setNull => exact .inl rfl
    | setDefault => exact .inl (hdefaults.onUpdate t pos e kid (.inr ⟨_, htouched⟩) he hchild hcase)

/-- The value that an action writes touches the child. -/
theorem actionValue_touched {t : String}
    (htouched : db.Touched start (effectOf newValue t pos e.refColumn)) (he : e ∈ db.edgesOf t)
    (haction : e.onUpdate ≠ .restrict) (hchild : db.ChildOf e kid t pos)
    (hvalue : actionValue e newValue e.onUpdate = executorNull ∨ e.onUpdate = .cascade) :
    db.Touched start (effectOf (actionValue e newValue e.onUpdate) e.table kid e.column) := by
  by_cases hnull : newValue = executorNull
  · rw [effectOf, if_pos hnull] at htouched
    have hlost := Touched.lost htouched he hchild haction
    rcases hvalue with hvalue | hcascade
    · rwa [effectOf, if_pos hvalue]
    · rwa [hcascade, actionValue, effectOf, if_pos hnull]
  · rw [effectOf, if_neg hnull] at htouched
    cases hcase : e.onUpdate with
    | restrict => exact absurd hcase haction
    | cascade =>
      rw [actionValue, effectOf, if_neg hnull]
      exact .followed htouched he hchild hcase
    | setNull => exact .dropped htouched he hchild (.inl hcase)
    | setDefault =>
      rw [hcase] at hvalue
      rw [effectOf, if_pos (hvalue.resolve_right (by simp))]
      exact .dropped htouched he hchild (.inr hcase)

/-- A value that passes the check of the other parents is in them as the statement found them. -/
theorem exists_other_parent (hnone : db.otherParentMissing e value = none)
    (hvalue : value ≠ executorNull) (he : e ∈ db.catalog.edges) {e' : Edge}
    (he' : e' ∈ db.catalog.edges) (htable : e'.table = e.table) (hcolumn : e'.column = e.column)
    (hne : ¬ (e'.parent = e.parent ∧ e'.refColumn = e.refColumn)) :
    ∃ p, db.Live e'.parent p ∧ db.Same (db.foundValue e'.parent p e'.refColumn) value := by
  have hmem : e ∈ db.byChild e.table e.column ∧ e' ∈ db.byChild e.table e.column := by
    simp [byChild, he, he', htable, hcolumn]
  rw [otherParentMissing, if_neg hvalue] at hnone
  split at hnone
  · rename_i hshort
    obtain ⟨only, honly⟩ | hnil : (∃ only, db.byChild e.table e.column = [only]) ∨
        db.byChild e.table e.column = [] := by
      cases hlist : db.byChild e.table e.column with
      | nil => exact .inr rfl
      | cons only rest =>
        rw [hlist, List.length_cons] at hshort
        exact .inl ⟨only, by rw [List.length_eq_zero_iff.mp (by omega : rest.length = 0)]⟩
    · rw [honly, List.mem_singleton, List.mem_singleton] at hmem
      exact absurd (by rw [hmem.1, hmem.2]; exact ⟨rfl, rfl⟩) hne
    · rw [hnil] at hmem
      exact nomatch hmem.1
  · have hone := List.findSome?_eq_none_iff.mp hnone e' hmem.2
    rw [if_neg hne, fkChildViolation, if_neg hvalue] at hone
    split at hone
    · cases hone
    · rename_i rows hrows
      split at hone
      · rename_i hany
        obtain ⟨row, hrow, hhas⟩ := List.any_eq_true.mp hany
        obtain ⟨p, hp, rfl⟩ := List.getElem_of_mem hrow
        rw [Bool.and_eq_true, any_same_iff hvalue] at hhas
        have hfound : db.rowsOf e'.parent = rows := by rw [rowsOf, hrows, Option.getD_some]
        have hget : (db.rowsOf e'.parent).getD p ∅ = rows[p] := by
          rw [hfound]
          exact List.getD_eq_getElem _ _ hp
        exact ⟨p, ⟨hfound ▸ hp, hget ▸ hhas.1⟩, by rw [foundValue, hget]; exact hhas.2⟩
      · cases hone

/-- The other keys of a column that takes an action's value are secure once the check has let it
pass. -/
theorem othersSecure_of_stay (hothers : db.OthersStay (db.updates u)) {t : String}
    (htouched : db.Touched (db.updates u) (effectOf newValue t pos e.refColumn))
    (he : e ∈ db.edgesOf t) (hchild : db.ChildOf e kid t pos)
    (hvalue : value = executorNull ∨ (e.onUpdate = .cascade ∧ value = newValue))
    (hnone : db.otherParentMissing e value = none) : db.OthersSecure u e value := by
  intro e' he' ht hc hne
  by_cases hnull : value = executorNull
  · exact .inl hnull
  · obtain ⟨hcascade, rfl⟩ := hvalue.resolve_left hnull
    rw [effectOf, if_neg hnull] at htouched
    exact .inr (hothers t pos e kid value htouched he hchild hcascade e' he' ht hc hne
      (exists_other_parent hnone hnull (mem_edgesOf.mp he).1 he' ht hc hne))

variable {t : String}

theorem mem_childrenOf_of_view (habsent : db.AbsentSound) (hold : oldValue ≠ executorNull)
    (hsim : db.Following u cur path sim) (hlive : db.Live e.table kid)
    (h : db.Same (db.view u cur sim e.table kid e.column) oldValue ∧
      db.Same (db.foundValue e.table kid e.column) oldValue) :
    kid ∈ (db.childrenOf sim e oldValue).1 := by
  refine (mem_childrenOf_iff habsent hold).mpr ⟨⟨hlive, h.2⟩, hsim.gone _ _, ?_⟩
  by_cases ht : e.table = u.table
  · rw [valueOf, imageOf, ht, hsim.target, Option.getD_none, ← ht]
    exact h.2
  · rw [view_of_ne ht] at h
    exact h.1

/-- The children of one foreign key have been rewritten. -/
theorem RewroteAll.followedEdge (hparent : e.parent = t)
    (h : db.RewroteAll u cur (t :: path) e kids value sim sim')
    (hkids : ∀ kid ∈ kids, db.Same (db.foundValue e.table kid e.column) oldValue)
    (hvalue : value = executorNull ∨ value = newValue) :
    db.FollowedEdge u cur path t e.refColumn oldValue newValue sim sim' := by
  refine ⟨h.following, h.frame, fun t' kid c => ?_⟩
  rcases h.cells t' kid c with (hkeep | hsecure) | ⟨rfl, rfl, hkid, hwrite, hothers⟩
  · exact .inl hkeep
  · exact .inr fun e' he' ht hc hp => .inl (hsecure e' he' ht hc hp)
  · refine .inr fun e' he' ht hc _ => ?_
    rw [hwrite]
    by_cases hkey : e'.parent = e.parent ∧ e'.refColumn = e.refColumn
    · exact hvalue.imp .inl fun hnew => ⟨hkey.1.trans hparent, hkey.2, hkids kid hkid, hnew⟩
    · exact .inl (hothers e' he' ht hc hkey)

theorem RewroteAll.resolved (h : db.RewroteAll u cur path e kids value sim sim')
    (hdone : ∀ kid ∈ kids, db.view u cur sim' e.table kid e.column = value)
    (hkids : ∀ kid ∈ kids, db.Same (db.foundValue e.table kid e.column) oldValue)
    (hvalue : value = executorNull ∨ value = newValue) (hmem : ∀ kid, db.Live e.table kid →
      db.Same (db.view u cur sim e.table kid e.column) oldValue ∧
        db.Same (db.foundValue e.table kid e.column) oldValue → kid ∈ kids) :
    db.Resolved u (db.view u cur sim') e oldValue newValue := by
  intro kid hlive
  by_cases hkid : kid ∈ kids
  · rw [hdone kid hkid]
    exact hvalue.imp .inl fun hnew => .inl ⟨hkids kid hkid, congrArg db.coll.key hnew⟩
  · refine .inr (.inr fun hboth => hkid (hmem kid hlive ?_))
    rwa [(h.own kid).resolve_right fun hc => hkid hc.1] at hboth

theorem FollowedEdge.refl (h : db.Following u cur (t :: path) sim) :
    db.FollowedEdge u cur path t column oldValue newValue sim sim :=
  ⟨h, fun _ _ _ => rfl, fun _ _ _ => .inl rfl⟩

theorem FollowedEdge.trans {sim'' : CascadeSim}
    (h : db.FollowedEdge u cur path t column oldValue newValue sim sim')
    (h' : db.FollowedEdge u cur path t column oldValue newValue sim' sim'') :
    db.FollowedEdge u cur path t column oldValue newValue sim sim'' := by
  refine ⟨h'.following, fun t' ht' p => (h'.frame t' ht' p).trans (h.frame t' ht' p),
    fun t' kid c => ?_⟩
  rcases h'.cells t' kid c with hkeep | hrest
  · rw [hkeep]
    exact h.cells t' kid c
  · exact .inr hrest

/-- What a foreign key to the followed table can have become: as it was, secure, or of the new
value. -/
theorem FollowedEdge.child (h : db.FollowedEdge u cur path t column oldValue newValue sim sim')
    (he : e ∈ db.catalog.edges) (hparent : e.parent = t) (kid : Nat) :
    db.view u cur sim' e.table kid e.column = db.view u cur sim e.table kid e.column ∨
    db.Secure u e (db.view u cur sim' e.table kid e.column) ∨
    (e.refColumn = column ∧ db.Same (db.foundValue e.table kid e.column) oldValue ∧
      db.Same (db.view u cur sim' e.table kid e.column) newValue) := by
  rcases h.cells e.table kid e.column with hkeep | hall
  · exact .inl hkeep
  · refine .inr ((hall e he rfl rfl (hparent ▸ List.mem_cons_self)).imp_right ?_)
    rintro ⟨-, hc, hfound, hnew⟩
    exact ⟨hc, hfound, congrArg db.coll.key hnew⟩

theorem FollowedEdge.parent (h : db.FollowedEdge u cur path t column oldValue newValue sim sim')
    (hparent : e.parent = t) (pos : Nat) :
    db.view u cur sim' e.parent pos e.refColumn = db.view u cur sim e.parent pos e.refColumn :=
  view_congr (h.frame e.parent (hparent ▸ List.mem_cons_self) pos) e.refColumn

theorem Resolved.followedEdge (he : e ∈ db.catalog.edges) (hparent : e.parent = t)
    (hresolved : db.Resolved u (db.view u cur sim) e oldValue newValue)
    (h : db.FollowedEdge u cur path t column oldValue newValue sim sim') :
    db.Resolved u (db.view u cur sim') e oldValue newValue := by
  intro kid hlive
  rcases h.child he hparent kid with hkeep | hsecure | ⟨-, hnew⟩
  · rw [hkeep]
    exact hresolved kid hlive
  · exact .inl hsecure
  · exact .inr (.inl hnew)

theorem FollowedEdge.followed (hsim : db.Following u cur path sim) (ht : t ∉ path)
    (h : db.FollowedEdge u cur path t column oldValue newValue sim sim')
    (hresolved : ∀ e ∈ db.edgesOf t, e.refColumn = column →
      db.Resolved u (db.view u cur sim') e oldValue newValue) :
    db.Followed u cur path t column oldValue newValue sim sim' := by
  refine ⟨h.following, h.frame, fun t' kid c => ?_, fun e he hparent hcolumn kid hlive hsets => ?_,
    fun e he hparent hcolumn kid hlive hsets => ?_⟩
  · refine (h.cells t' kid c).imp_right fun hall e he ht' hc hp => ?_
    exact (hall e he ht' hc (.tail _ hp)).resolve_right fun hr => ht (hr.1 ▸ hp)
  · have hheld := hsim.held e he (hparent ▸ ht) kid hlive hsets
    rcases h.child he hparent kid with hkeep | hsecure | ⟨hc, -⟩
    · exact hheld.congr (h.parent hparent) hkeep
    · exact .inl hsecure
    · exact absurd hc hcolumn
  · have hheld := hsim.held e he (hparent ▸ ht) kid hlive hsets
    rcases hresolved e (mem_edgesOf.mpr ⟨he, hparent⟩) hcolumn kid hlive with
      hsecure | hnew | hnot
    · exact .inl hsecure
    · exact .inr (.inl hnew)
    · rcases h.child he hparent kid with hkeep | hsecure | ⟨-, hnew⟩
      · exact (hheld.congr (h.parent hparent) hkeep).imp_right fun hpos => .inr ⟨hpos, hnot⟩
      · exact .inl hsecure
      · exact .inr (.inl hnew)

/-- Nothing has to be done for a cell whose children are held across. -/
theorem Followed.of_across (hsim : db.Following u cur path sim) (ht : t ∉ path)
    (hacross : ∀ e ∈ db.catalog.edges, e.parent = t → e.refColumn = column → ∀ kid,
      db.Held u (db.view u cur sim) e kid →
        db.HeldAcross u (db.view u cur sim) e oldValue newValue kid) :
    db.Followed u cur path t column oldValue newValue sim sim :=
  ⟨hsim.cons t, fun _ _ _ => rfl, fun _ _ _ => .inl rfl,
    fun e he hparent _ => hsim.held e he (hparent ▸ ht),
    fun e he hparent hcolumn kid hlive hsets =>
      hacross e he hparent hcolumn kid (hsim.held e he (hparent ▸ ht) kid hlive hsets)⟩

/-- The cells of the table once the UPDATE has set them. -/
def SetCells (db : CascadeDb) (u : KeyUpdate) (cur : Nat → String → String) : Prop :=
  ∀ p c, cur p c = match u.targets.find? fun target => target.1 == p with
    | some target => if c ∈ u.changedCols then cellOrNull target.2 c else db.foundValue u.table p c
    | none => db.foundValue u.table p c

theorem Following.image_own (hsim : db.Following u cur [] sim) (pos : Nat) :
    db.imageAfterUpdate u sim u.table pos =
      db.imageAfterUpdate u CascadeSim.start u.table pos := by
  rw [imageAfterUpdate, imageAfterUpdate, imageOf, imageOf, hsim.target]
  rfl

/-- A cell of a foreign key after the plan has been applied. -/
theorem cellOrNull_imageAfterUpdate (htargets : db.TargetsOf u) (hsim : db.Following u cur [] sim)
    (hcur : db.SetCells u cur) (he : e ∈ db.catalog.edges) {t c : String}
    (hkey : (e.table = t ∧ e.column = c) ∨ (e.parent = t ∧ e.refColumn = c)) (pos : Nat) :
    cellOrNull (db.imageAfterUpdate u sim t pos) c = db.view u cur sim t pos c := by
  by_cases ht : t = u.table
  · subst ht
    rw [hsim.image_own, imageAfterUpdate, if_pos rfl, view, if_pos rfl, hcur]
    cases hfind : u.targets.find? (fun target => target.1 == pos) with
    | none => rfl
    | some target =>
      have htarget := List.mem_of_find?_eq_some hfind
      have hpos : target.1 = pos := by simpa using List.find?_some hfind
      simp only [Option.map_some, Option.getD_some]
      split
      · rfl
      · rename_i hc
        rw [htargets.unchanged target htarget e he c hc hkey, hpos]
  · rw [imageAfterUpdate, if_neg ht, view_of_ne ht]
    rfl

theorem start_following (hfound : db.FkIntact db.liveRows) :
    db.Following u (db.foundValue u.table) [] CascadeSim.start := by
  have hview : ∀ t p c, db.view u (db.foundValue u.table) CascadeSim.start t p c =
      db.foundValue t p c := by
    intro t p c
    rw [view]
    split
    · rename_i ht
      rw [ht]
    · rfl
  refine ⟨fun _ _ => rfl, fun _ => rfl, fun t p c _ => hview t p c, fun e he _ kid hlive _ => ?_⟩
  by_cases hnull : db.foundValue e.table kid e.column = executorNull
  · exact .inl (.inl ((hview ..).trans hnull))
  · obtain ⟨pos, hpos, hsame⟩ := exists_parent_of_fkIntact hfound he hlive hnull
    refine .inr ⟨pos, hpos, ?_, ?_⟩
    · rw [hview, hview]
      exact hsame
    · rw [Moved, Moved, hview, hview]
      exact iff_of_false (fun hm => hm rfl) (fun hm => hm rfl)

theorem mem_rowsAfterUpdate {t : String} {pos : Nat} (h : db.Live t pos) :
    db.imageAfterUpdate u sim t pos ∈ db.rowsAfterUpdate u sim t :=
  List.mem_map.mpr ⟨pos, mem_staying_iff.mpr ⟨h, rfl⟩, rfl⟩

theorem exists_parent_of_anchored (htargets : db.TargetsOf u) (hsim : db.Following u cur [] sim)
    (hcur : db.SetCells u cur) (he : e ∈ db.catalog.edges) {value : String}
    (h : db.Anchored (db.updates u) e value) :
    ∃ parent ∈ db.rowsAfterUpdate u sim e.parent,
      db.Same (cellOrNull parent e.refColumn) value := by
  obtain ⟨pos, hpos, hsame, hfixed⟩ := h
  refine ⟨_, mem_rowsAfterUpdate hpos, ?_⟩
  rw [cellOrNull_imageAfterUpdate htargets hsim hcur he (.inr ⟨rfl, rfl⟩), hsim.fixed _ _ _ hfixed]
  exact hsame

/-- The cell that the statement gives the foreign key has what the target's image has. -/
theorem SetsKey.view_eq (htargets : db.TargetsOf u) (hcur : db.SetCells u cur)
    {target : Nat × Row} (htarget : target ∈ u.targets) (htable : e.table = u.table)
    (hcolumn : e.column ∈ u.changedCols) :
    db.view u cur sim e.table target.1 e.column = cellOrNull target.2 e.column := by
  rw [view, if_pos htable, hcur]
  cases hfind : u.targets.find? (fun other => other.1 == target.1) with
  | none => simpa using List.find?_eq_none.mp hfind target htarget
  | some other =>
    have hsame := List.inj_on_of_nodup_map htargets.nodup (List.mem_of_find?_eq_some hfind) htarget
      (by simpa using List.find?_some hfind)
    rw [hsame]
    exact if_pos hcolumn

/-- One changed column of one target. -/
def changeColumn (db : CascadeDb) (table : String) (pair : Row × Row) (column : String)
    (sim : CascadeSim) : Except String CascadeSim :=
  if (db.edgesOf table).all (fun e => e.refColumn ≠ column) then .ok sim
  else match pair.1.find column with
    | none => .ok sim
    | some before => db.changeKey kCascadeDepthLimit [] table column before
        ((pair.2.find column).getD executorNull) sim

variable (habsent : db.AbsentSound) (hdefaults : db.NoDefaults (db.updates u))
  (hothers : db.OthersStay (db.updates u))
include habsent hdefaults hothers

/-- One foreign key of a changed cell. -/
theorem changeKeyEdge_followed
    {next : Option Follow} (hnext : ∀ follow ∈ next, db.FollowsKeys u cur follow)
    (htable : u.table ∈ t :: path) (hsim : db.Following u cur (t :: path) sim)
    (hfound : db.Same (db.foundValue t pos column) oldValue) (hold : oldValue ≠ executorNull)
    (htouched : db.Touched (db.updates u) (effectOf newValue t pos column)) (he : e ∈ db.edgesOf t)
    (h : db.changeKeyEdge next (t :: path) t column oldValue newValue sim e = .ok sim') :
    db.FollowedEdge u cur path t column oldValue newValue sim sim' ∧
      (e.refColumn = column → db.Resolved u (db.view u cur sim') e oldValue newValue) := by
  simp only [changeKeyEdge] at h
  by_cases hcolumn : e.refColumn = column
  swap
  · rw [if_pos hcolumn] at h
    cases h
    exact ⟨.refl hsim, fun hc => absurd hc hcolumn⟩
  subst hcolumn
  rw [if_neg (not_not.mpr rfl)] at h
  have hcount := hsim.of_eq (@childrenOf_snd_gone db sim e oldValue)
    (@childrenOf_snd_rewritten db sim e oldValue)
  have hsame : db.view u cur (db.childrenOf sim e oldValue).2 = db.view u cur sim := by
    funext t' p c
    exact view_congr (by rw [childrenOf_snd_rewritten]) c
  have hscan : db.FollowedEdge u cur path t e.refColumn oldValue newValue sim
      (db.childrenOf sim e oldValue).2 :=
    ⟨hcount, fun _ _ _ => by rw [childrenOf_snd_rewritten], fun _ _ _ => .inl (by rw [hsame])⟩
  have hmem := fun kid hlive hboth =>
    @mem_childrenOf_of_view db u (t :: path) oldValue sim e cur kid habsent hold hsim hlive hboth
  by_cases hkids : (db.childrenOf sim e oldValue).1 = []
  · rw [if_pos hkids] at h
    cases h
    refine ⟨hscan, fun _ kid hlive => .inr (.inr fun hboth => ?_)⟩
    rw [hsame] at hboth
    exact List.not_mem_nil (hkids ▸ hmem kid hlive hboth)
  · rw [if_neg hkids] at h
    split at h
    · cases h
    · rename_i hrestrict
      obtain ⟨haction, hpath⟩ := not_or.mp hrestrict
      cases next with
      | none => cases h
      | some follow =>
        have href := fun kid hkid =>
          (@mem_childrenOf_iff db e habsent sim oldValue hold kid).mp hkid
        have hchild : ∀ kid ∈ (db.childrenOf sim e oldValue).1, db.ChildOf e kid t pos := by
          intro kid hkid
          refine ⟨fun hnull => not_same_null hold (hnull ▸ hfound), (href kid hkid).1.1, ?_⟩
          exact (href kid hkid).1.2.trans hfound.symm
        obtain ⟨first, hfirst⟩ := List.exists_mem_of_ne_nil _ hkids
        have hvalue := actionValue_eq hdefaults htouched he haction (hchild first hfirst)
        obtain ⟨hall, hdone⟩ := rewriteChildren_rewrote (hnext follow rfl) htable hpath
          ((mem_edgesOf.mp he).2 ▸ List.mem_cons_self) hcount
          (fun kid hkid => by
            rw [valueOf_congr (childrenOf_snd_rewritten ..)]
            exact ⟨(href kid hkid).1, (href kid hkid).2.2⟩)
          (fun kid hkid => actionValue_touched htouched he haction (hchild kid hkid)
            (hvalue.imp_right And.left))
          (othersSecure_of_stay hothers htouched he (hchild first hfirst) hvalue) h
        have hkidFound := fun kid hkid => (href kid hkid).1.2
        have hvalue := hvalue.imp_right And.right
        refine ⟨hscan.trans (hall.followedEdge (mem_edgesOf.mp he).2 hkidFound hvalue), fun _ =>
          hall.resolved hdone hkidFound hvalue fun kid hlive hboth => hmem kid hlive ?_⟩
        rwa [hsame] at hboth

theorem changeKeyBody_followsKeys
    {next : Option Follow} (hnext : ∀ follow ∈ next, db.FollowsKeys u cur follow) :
    db.FollowsKeys u cur (db.changeKeyBody next) := by
  intro path t pos column oldValue newValue sim sim' htable ht hsim hfound htouched h
  simp only [changeKeyBody] at h
  split at h
  · rename_i hnothing
    cases h
    refine .of_across hsim ht fun e _ _ _ kid hheld => ?_
    rcases hnothing with hnull | hsame
    · rw [hnull]
      exact hheld.across_null newValue
    · rw [hsame]
      exact hheld.across_self newValue
  · rename_i hchange
    obtain ⟨hold, hdiff⟩ := not_or.mp hchange
    have hbegin : db.FollowedEdge u cur path t column oldValue newValue sim sim :=
      .refl (hsim.cons t)
    have hstep : ∀ e ∈ db.edgesOf t, ∀ s s',
        db.FollowedEdge u cur path t column oldValue newValue sim s →
        db.changeKeyEdge next (t :: path) t column oldValue newValue s e = .ok s' →
        db.FollowedEdge u cur path t column oldValue newValue s s' ∧
          (e.refColumn = column → db.Resolved u (db.view u cur s') e oldValue newValue) :=
      fun e he s s' hs hok => changeKeyEdge_followed habsent hdefaults hothers hnext htable
        hs.following hfound hold (htouched hdiff) he hok
    refine FollowedEdge.followed hsim ht (foldlM_invariant
      (fun e he s s' hs hok => hs.trans (hstep e he s s' hs hok).1) hbegin h) fun e he hcolumn => ?_
    obtain ⟨hedge, hparent⟩ := mem_edgesOf.mp he
    exact foldlM_establishes
      (Q := fun s => db.Resolved u (db.view u cur s) e oldValue newValue) he
      (fun e' he' s s' hs hok => hs.trans (hstep e' he' s s' hs hok).1)
      (fun s s' hs hok => (hstep e he s s' hs hok).2 hcolumn)
      (fun e' he' s s' hs hq hok =>
        hq.followedEdge hedge hparent (hstep e' he' s s' hs hok).1) hbegin h

theorem changeKey_followsKeys : ∀ depth, db.FollowsKeys u cur (db.changeKey depth)
  | 0 => changeKeyBody_followsKeys habsent hdefaults hothers nofun
  | 1 => changeKeyBody_followsKeys habsent hdefaults hothers nofun
  | depth + 2 => changeKeyBody_followsKeys habsent hdefaults hothers fun follow h => by
      cases h
      exact changeKey_followsKeys (depth + 1)

theorem changeColumn_followed {target : Nat × Row}
    (hupdates : cellOrNull target.2 column ≠ db.foundValue u.table target.1 column →
      db.updates u (effectOf (cellOrNull target.2 column) u.table target.1 column))
    (hsim : db.Following u cur [] sim)
    (h : db.changeColumn u.table ((db.rowsOf u.table).getD target.1 ∅, target.2) column sim =
      .ok sim') :
    db.Followed u cur [] u.table column (db.foundValue u.table target.1 column)
      (cellOrNull target.2 column) sim sim' := by
  rw [changeColumn] at h
  split at h
  · rename_i hnone
    cases h
    refine .of_across hsim List.not_mem_nil fun e he hparent hc => ?_
    have hall := List.all_eq_true.mp hnone e (mem_edgesOf.mpr ⟨he, hparent⟩)
    exact absurd hc (by simpa using hall)
  · split at h
    · rename_i hcell
      cases h
      have hnull : db.foundValue u.table target.1 column = executorNull := by
        rw [foundValue, hcell]
        rfl
      rw [hnull]
      exact .of_across hsim List.not_mem_nil fun e _ _ _ kid hheld => hheld.across_null _
    · rename_i before hcell
      have hfound : db.foundValue u.table target.1 column = before := by
        rw [foundValue, hcell]
        rfl
      rw [hfound]
      exact changeKey_followsKeys habsent hdefaults hothers _ [] u.table target.1 column before _
        sim sim' List.mem_cons_self List.not_mem_nil hsim (hfound ▸ rfl)
        (fun hdiff => .start (hupdates (hfound ▸ Ne.symm hdiff))) h

theorem changeColumn_following {target : Nat × Row} (htarget : target ∈ u.targets)
    (hlive : db.Live u.table target.1) (hcolumn : column ∈ u.changedCols)
    {cur' : Nat → String → String} (hcur : cur target.1 column = cellOrNull target.2 column ∨
      cur target.1 column = db.foundValue u.table target.1 column) (hcur' : ∀ p c, cur' p c =
      if p = target.1 ∧ c = column then cellOrNull target.2 column else cur p c)
    (hsim : db.Following u cur [] sim)
    (h : db.changeColumn u.table ((db.rowsOf u.table).getD target.1 ∅, target.2) column sim =
      .ok sim') : db.Following u cur' [] sim' := by
  have hset : db.view u cur' sim' u.table target.1 column = cellOrNull target.2 column := by
    rw [view, if_pos rfl, hcur', if_pos ⟨rfl, rfl⟩]
  have hkeep : ∀ t p c, ¬ (t = u.table ∧ p = target.1 ∧ c = column) →
      db.view u cur' sim' t p c = db.view u cur sim' t p c := by
    intro t p c hcell
    by_cases ht : t = u.table
    · rw [view, view, if_pos ht, if_pos ht, hcur', if_neg (by tauto)]
    · rw [view_of_ne ht, view_of_ne ht]
  have hself : db.view u cur sim' u.table target.1 column = cur target.1 column := by
    rw [view, if_pos rfl]
  have hupdates : cellOrNull target.2 column ≠ db.foundValue u.table target.1 column →
      db.updates u (effectOf (cellOrNull target.2 column) u.table target.1 column) :=
    fun hne => ⟨target, htarget, column, hcolumn, hne, rfl⟩
  have hfollowed := changeColumn_followed habsent hdefaults hothers hupdates hsim h
  refine ⟨hfollowed.following.gone, hfollowed.following.target, fun t p c hfixed => ?_,
    allHeld_set hset hkeep hlive rfl ?_ hfollowed.following.held hfollowed.other
      hfollowed.across ?_⟩
  · by_cases hcell : t = u.table ∧ p = target.1 ∧ c = column
    · obtain ⟨rfl, rfl, rfl⟩ := hcell
      rw [hset]
      by_contra hne
      exact not_fixed_of_touched (.start (hupdates hne)) hfixed
    · rw [hkeep t p c hcell]
      exact hfollowed.following.fixed t p c hfixed
  · rw [hself]
    exact hcur.imp_right fun he => congrArg db.coll.key he
  · rw [hself]
    by_cases hne : cellOrNull target.2 column = db.foundValue u.table target.1 column
    · exact .inl (hcur.elim id fun he => he.trans hne.symm)
    · exact .inr fun e _ ht hc _ hsets => absurd
        ⟨ht, target, htarget, rfl, hc ▸ hcolumn, hc ▸ hne⟩ hsets

/-- The changed columns of one target. -/
theorem changeColumns_following
    {target : Nat × Row} (htarget : target ∈ u.targets) (hlive : db.Live u.table target.1) :
    ∀ {columns : List String} {cur : Nat → String → String} {sim sim' : CascadeSim},
      (∀ column ∈ columns, column ∈ u.changedCols) →
      (∀ column, cur target.1 column = cellOrNull target.2 column ∨
        cur target.1 column = db.foundValue u.table target.1 column) →
      db.Following u cur [] sim →
      columns.foldlM (fun sim column => db.changeColumn u.table
        ((db.rowsOf u.table).getD target.1 ∅, target.2) column sim) sim = .ok sim' →
      ∃ cur', db.Following u cur' [] sim' ∧ ∀ p c, cur' p c =
        if p = target.1 ∧ c ∈ columns then cellOrNull target.2 c else cur p c
  | [], cur, sim, sim', _, _, hsim, h => by
      cases h
      exact ⟨cur, hsim, fun p c => by simp⟩
  | column :: columns, cur, sim, sim', hcolumns, hcur, hsim, h => by
      rw [List.foldlM_cons] at h
      obtain ⟨mid, hmid, hrest⟩ := bind_eq_ok_iff.mp h
      obtain ⟨cur₁, hcur₁⟩ : ∃ cur₁ : Nat → String → String, ∀ p c, cur₁ p c =
          if p = target.1 ∧ c = column then cellOrNull target.2 column else cur p c :=
        ⟨_, fun _ _ => rfl⟩
      have hnext := changeColumn_following habsent hdefaults hothers htarget hlive
        (hcolumns column List.mem_cons_self) (hcur column) hcur₁ hsim hmid
      have hcells : ∀ c, cur₁ target.1 c = cellOrNull target.2 c ∨
          cur₁ target.1 c = db.foundValue u.table target.1 c := by
        intro c
        by_cases hc : c = column
        · subst hc
          exact .inl (by simp [hcur₁])
        · simpa [hcur₁, hc] using hcur c
      obtain ⟨cur', hcur', hfinal⟩ := changeColumns_following htarget hlive
        (fun c hc => hcolumns c (.tail _ hc)) hcells hnext hrest
      refine ⟨cur', hcur', fun p c => ?_⟩
      rw [hfinal, hcur₁]
      by_cases hp : p = target.1
      · by_cases hc : c = column
        · subst hc
          simp [hp]
        · simp [hp, hc]
      · simp [hp]

/-- The targets one after the other. -/
theorem changeRows_following (htargets : db.TargetsOf u) :
    ∀ {rest : List (Nat × Row)} {cur : Nat → String → String} {sim sim' : CascadeSim},
      (∀ target ∈ rest, target ∈ u.targets) → (rest.map Prod.fst).Nodup →
      (∀ target ∈ rest, ∀ c, cur target.1 c = db.foundValue u.table target.1 c) →
      db.Following u cur [] sim →
      (db.targetPairs u.table rest).foldlM (fun sim pair => u.changedCols.foldlM
        (fun sim column => db.changeColumn u.table pair column sim) sim) sim = .ok sim' →
      ∃ cur', db.Following u cur' [] sim' ∧ ∀ p c, cur' p c =
        match rest.find? fun target => target.1 == p with
        | some target => if c ∈ u.changedCols then cellOrNull target.2 c else cur p c
        | none => cur p c
  | [], cur, sim, sim', _, _, _, hsim, h => by
      cases h
      exact ⟨cur, hsim, fun p c => rfl⟩
  | target :: rest, cur, sim, sim', hmem, hnodup, hcur, hsim, h => by
      rw [targetPairs, List.map_cons, List.foldlM_cons] at h
      obtain ⟨mid, hmid, hrest⟩ := bind_eq_ok_iff.mp h
      have htarget := hmem target List.mem_cons_self
      obtain ⟨hfresh, hnodup'⟩ := List.nodup_cons.mp (List.map_cons ▸ hnodup)
      obtain ⟨cur₁, hnext, hcur₁⟩ := changeColumns_following habsent hdefaults hothers htarget
        (htargets.live target htarget) (fun _ hc => hc)
        (fun c => .inr (hcur target List.mem_cons_self c)) hsim hmid
      have hother : ∀ target' ∈ rest, target'.1 ≠ target.1 := fun target' hin he =>
        hfresh (List.mem_map.mpr ⟨target', hin, he⟩)
      obtain ⟨cur', hcur', hfinal⟩ := changeRows_following htargets
        (fun t ht => hmem t (.tail _ ht)) hnodup' (fun t ht c => by
          rw [hcur₁, if_neg (fun hc => hother t ht hc.1)]
          exact hcur t (.tail _ ht) c) hnext hrest
      refine ⟨cur', hcur', fun p c => ?_⟩
      rw [hfinal, List.find?_cons]
      by_cases hp : target.1 = p
      · have hnone : rest.find? (fun target => target.1 == p) = none := by
          rw [List.find?_eq_none]
          exact fun t ht => by simpa [← hp] using hother t ht
        rw [hnone]
        simp [hp, hcur₁]
      · have hp' : ¬ p = target.1 := fun he => hp he.symm
        have hbeq : (target.1 == p) = false := by simpa using hp
        simp [hbeq, hp', hcur₁]

/-- An UPDATE that reaches no default but NULL, gives new values to columns whose other parents have
them and stay, and to its own foreign keys values with a parent, keeps every foreign key. -/
theorem planCascadeUpdate_fkIntact (hfound : db.FkIntact db.liveRows)
    (htargets : db.TargetsOf u) (hown : db.OwnKeysHeld u)
    (h : db.planCascadeUpdate u.table (db.targetPairs u.table u.targets) u.changedCols = .ok sim) :
    db.FkIntact (db.rowsAfterUpdate u sim) := by
  obtain ⟨cur, hsim, hcur⟩ := changeRows_following habsent hdefaults hothers htargets
    (fun _ ht => ht) htargets.nodup (fun _ _ _ => rfl) (start_following hfound) h
  intro e he row hrow hvalue
  obtain ⟨kid, hkid, rfl⟩ := List.mem_map.mp hrow
  have hlive := (mem_staying_iff.mp hkid).1
  rw [cellOrNull_imageAfterUpdate htargets hsim hcur he (.inl ⟨rfl, rfl⟩) kid] at hvalue ⊢
  by_cases hsets : db.SetsKey u e kid
  · obtain ⟨htable, target, htarget, rfl, hcolumn, hne⟩ := hsets
    rw [SetsKey.view_eq htargets hcur htarget htable hcolumn] at hvalue ⊢
    rcases hown target htarget e he ⟨htable, target, htarget, rfl, hcolumn, hne⟩ hvalue with
      hanchored | ⟨hparent, pos, hpos, hsame⟩
    · exact exists_parent_of_anchored htargets hsim hcur he hanchored
    · refine ⟨_, hparent ▸ mem_rowsAfterUpdate hpos, ?_⟩
      rw [hparent, hsim.image_own]
      exact hsame
  · rcases hsim.held e he List.not_mem_nil kid hlive hsets with
      (hnull | hanchored) | ⟨pos, hpos, hsame, -⟩
    · exact absurd hnull hvalue
    · exact exists_parent_of_anchored htargets hsim hcur he hanchored
    · refine ⟨_, mem_rowsAfterUpdate hpos, ?_⟩
      rw [cellOrNull_imageAfterUpdate htargets hsim hcur he (.inr ⟨rfl, rfl⟩)]
      exact hsame

end

end RusqlEngine.CascadeDb
