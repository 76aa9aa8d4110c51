import RusqlEngine.SessionInvariant

/-!
# What one step does to the row versions

`StoreMove` says once what a step may do to the stored versions: nothing, append one,
end a live one, undo a transaction, or remove some for good. The invariant `StoreInv`
ties the stamps of the stored versions to the sessions that own the ids.
-/

namespace RusqlEngine

open Session

/-- Every stamp was written by the engine, and one with an id that a session still owns is recorded,
in a table that its transaction has logged. -/
structure Fits (s : Db) (v : Version) : Prop where
  stamped : Stamped s.nextId v.row
  vid_lt : v.vid < s.nextVid
  stamp : ∀ i, ∀ x ∈ (s.sessions i).owned, v.row.xmin = x ∨ v.row.xmax = x →
    (v.vid, x) ∈ s.writes ∧ (s.sessions i).phase ≠ .entering ∧
      ((s.sessions i).phase = .inTxn → v.table ∈ (s.sessions i).txn.dirtyTables)

structure StoreInv (s : Db) : Prop where
  fits : ∀ v ∈ s.store, Fits s v
  nodup : (s.store.map (·.vid)).Nodup

/-- The session that owns `x` may write under it, and has logged the tables. -/
def MayWrite (s : Db) (x : Nat) (tables : List String) : Prop :=
  ∀ i, x ∈ (s.sessions i).owned → (s.sessions i).phase ≠ .entering ∧
    ((s.sessions i).phase = .inTxn → tables ⊆ (s.sessions i).txn.dirtyTables)

inductive StoreMove (s : Db) (a : Step) (s' : Db) : Prop
  | keep (hstore : s'.store = s.store) (hremoved : s'.removed = s.removed)
      (hvid : s'.nextVid = s.nextVid) (hwrites : s'.writes = s.writes)
  | append (i x : Nat) (table : String) (row : Row) (hx : x ∈ (s.sessions i).owned)
      (hwrite : MayWrite s' x [table]) (hcommit : x ∈ s'.committed ∨ x ∈ s'.activeTxnIds)
      (hstore : s'.store = (s.appendVersion x table row).store)
      (hremoved : s'.removed = s.removed) (hvid : s'.nextVid = s.nextVid + 1)
      (hwrites : s'.writes = (s.nextVid, x) :: s.writes)
  | ended (i x : Nat) (w : Version) (hx : x ∈ (s.sessions i).owned) (hw : w ∈ s.store)
      (hlive : isVisible w.row) (hwrite : MayWrite s' x [w.table])
      (hcommit : x ∈ s'.committed ∨ x ∈ s'.activeTxnIds)
      (hstore : s'.store = (s.endVersion x w.vid).store)
      (hremoved : s'.removed = s.removed) (hvid : s'.nextVid = s.nextVid)
      (hwrites : s'.writes = (w.vid, x) :: s.writes)
  | undone (i : Nat) (hp : (s.sessions i).phase = .inTxn)
      (hend : s'.sessions = (s.leaveTxn i).sessions) (hcommitted : s'.committed = s.committed)
      (hstore : s'.store = s.store.filterMap
        (Db.undoVersion (s.sessions i).txn.txnId (s.sessions i).txn.dirtyTables))
      (hremoved : s'.removed = s.removed) (hvid : s'.nextVid = s.nextVid)
      (hwrites : s'.writes = s.writes)
  | vacuum (table : String) (ha : a = .vacuum table)
      (hs : s' = s.removeWhere (s.vacuumed table))
  | erase (i vid : Nat) (ha : a = .autoErase i vid)
      (hs : s' = s.removeWhere fun v => v.vid == vid)

variable {s : Db} {x vid : Nat} {dirty : List String} {v : Version}

namespace Db

theorem mem_store_endVersion {v' : Version} :
    v' ∈ (s.endVersion x vid).store ↔ ∃ v ∈ s.store,
      v' = if v.vid = vid then { v with row := v.row.set "_xmax" (stdToString x) } else v := by
  simp only [endVersion, List.mem_map]
  exact ⟨fun ⟨v, hv, e⟩ => ⟨v, hv, e.symm⟩, fun ⟨v, hv, e⟩ => ⟨v, hv, e.symm⟩⟩

theorem undoVersion_eq_some {v' : Version} (h : undoVersion x dirty v = some v') :
    (v' = v ∧ (v.table ∈ dirty → v.row.find "_xmin" ≠ some (stdToString x) ∧
      v.row.find "_xmax" ≠ some (stdToString x))) ∨
    (v.table ∈ dirty ∧ v.row.find "_xmin" ≠ some (stdToString x) ∧
      v.row.find "_xmax" = some (stdToString x) ∧
      v' = { v with row := v.row.set "_xmax" "0" }) := by
  unfold undoVersion at h
  split at h
  · rename_i hd
    obtain ⟨row, hrow, rfl⟩ := Option.map_eq_some_iff.mp h
    unfold undoRow at hrow
    split at hrow
    · cases hrow
    · rename_i hmin
      split at hrow
      · rename_i hmax
        cases hrow
        exact .inr ⟨hd, hmin, hmax, rfl⟩
      · rename_i hmax
        cases hrow
        exact .inl ⟨rfl, fun _ => ⟨hmin, hmax⟩⟩
  · rename_i hd
    cases h
    exact .inl ⟨rfl, fun hd' => absurd hd' hd⟩

theorem xmin_of_undoVersion_none (h : undoVersion x dirty v = none) (hx : x ≤ uint64Max) :
    v.row.xmin = x := by
  unfold undoVersion undoRow at h
  split at h
  · split at h
    · rename_i hmin
      exact parseTxnId_of_find hmin hx
    · split at h <;> simp at h
  · cases h

theorem undoVersion_vid {v' : Version} (h : undoVersion x dirty v = some v') : v'.vid = v.vid := by
  rcases undoVersion_eq_some h with ⟨rfl, -⟩ | ⟨-, -, -, rfl⟩ <;> rfl

end Db

variable {s' : Db} {a : Step} {i : Nat}

theorem Fits.move (h : Fits s v) (hinv : SessionInv s) (hm : SessionMove s a s' i)
    (hvid : s.nextVid ≤ s'.nextVid) (hwrites : s.writes ⊆ s'.writes) : Fits s' v where
  stamped := h.stamped.mono hm.nextId_le
  vid_lt := lt_of_lt_of_le h.vid_lt hvid
  stamp := by
    intro j x hx hstamp
    have hlt : x < s.nextId := by
      rcases hstamp with rfl | rfl
      · exact parseTxnId_lt hinv.nextId_pos hinv.nextId_max h.stamped.xminCell
      · exact parseTxnId_lt hinv.nextId_pos hinv.nextId_max h.stamped.xmaxCell
    by_cases hj : j = i
    · subst hj
      have ho : x ∈ (s.sessions j).owned := by
        rcases hm.owned x hx with ho | ⟨hle, -⟩
        · exact ho
        · exact absurd hlt (not_lt.mpr hle)
      obtain ⟨hw, hne, hdirty⟩ := h.stamp j x ho hstamp
      rcases hm.phase x hx ho with hp | ⟨he, -⟩
      · refine ⟨hwrites hw, by rw [hp]; exact hne, fun hp' => ?_⟩
        exact hm.dirty hp' (hdirty (hp ▸ hp'))
      · exact absurd he hne
    · rw [hm.others j hj] at hx ⊢
      obtain ⟨hw, hne, hdirty⟩ := h.stamp j x hx hstamp
      exact ⟨hwrites hw, hne, hdirty⟩

theorem StoreInv.eq_of_vid (h : StoreInv s) {w : Version} (hv : v ∈ s.store) (hw : w ∈ s.store)
    (he : v.vid = w.vid) : v = w :=
  List.inj_on_of_nodup_map h.nodup hv hw he

variable {table : String}

namespace StoreInv

theorem append {j : Nat} {row : Row} (h : StoreInv s) (hinv : SessionInv s)
    (hm : SessionMove s a s' j) (hx : x ∈ (s.sessions i).owned) (hwrite : MayWrite s' x [table])
    (hstore : s'.store = (s.appendVersion x table row).store) (hvid : s'.nextVid = s.nextVid + 1)
    (hwrites : s'.writes = (s.nextVid, x) :: s.writes) : StoreInv s' := by
  have hxlt := hinv.owned_lt i x hx
  have hmin : (row.tag x).xmin = x := row.xmin_tag (by have := hinv.nextId_max; omega)
  refine ⟨?_, ?_⟩
  · intro v hv
    rw [hstore] at hv
    simp only [Db.appendVersion, List.mem_append, List.mem_singleton] at hv
    rcases hv with hv | rfl
    · exact (h.fits v hv).move hinv hm (by omega) (by rw [hwrites]; exact List.subset_cons_self _ _)
    · refine ⟨(Stamped.tag row hxlt.2).mono hm.nextId_le, by simp [hvid], ?_⟩
      intro k y hy hstamp
      have hyx : y = x := by
        have := ((hinv.move hm).owned_lt k y hy).1
        simp only [hmin, row.xmax_tag] at hstamp
        omega
      subst hyx
      obtain ⟨hne, hdirty⟩ := hwrite k hy
      exact ⟨by simp [hwrites], hne, fun hp => hdirty hp (List.mem_singleton.mpr rfl)⟩
  · rw [hstore]
    simp only [Db.appendVersion, List.map_append, List.map_cons, List.map_nil]
    refine List.Nodup.append h.nodup (List.nodup_singleton _) ?_
    intro vid hin hnew
    obtain ⟨v, hv, rfl⟩ := List.mem_map.mp hin
    have := (h.fits v hv).vid_lt
    have := List.mem_singleton.mp hnew
    omega

theorem ended {j : Nat} {w : Version} (h : StoreInv s) (hinv : SessionInv s)
    (hm : SessionMove s a s' j) (hx : x ∈ (s.sessions i).owned) (hw : w ∈ s.store)
    (hwrite : MayWrite s' x [w.table]) (hstore : s'.store = (s.endVersion x w.vid).store)
    (hvid : s'.nextVid = s.nextVid) (hwrites : s'.writes = (w.vid, x) :: s.writes) :
    StoreInv s' := by
  have hxlt := hinv.owned_lt i x hx
  have hmove : ∀ v ∈ s.store, Fits s' v := fun v hv =>
    (h.fits v hv).move hinv hm hvid.ge (by rw [hwrites]; exact List.subset_cons_self _ _)
  refine ⟨?_, ?_⟩
  · intro v' hv'
    rw [hstore, Db.mem_store_endVersion] at hv'
    obtain ⟨v, hv, rfl⟩ := hv'
    split
    · rename_i hvw
      obtain rfl := h.eq_of_vid hv hw hvw
      have hfit := hmove v hv
      refine ⟨hfit.stamped.set_xmax (lt_of_lt_of_le hxlt.2 hm.nextId_le), hfit.vid_lt, ?_⟩
      intro k y hy hstamp
      rw [Row.xmin_set_xmax, Row.xmax_set_xmax _ (by have := hinv.nextId_max; omega)] at hstamp
      rcases hstamp with hstamp | rfl
      · exact hfit.stamp k y hy (.inl hstamp)
      · obtain ⟨hne, hdirty⟩ := hwrite k hy
        exact ⟨by simp [hwrites], hne, fun hp => hdirty hp (List.mem_singleton.mpr rfl)⟩
    · exact hmove v hv
  · rw [hstore]
    have : (s.endVersion x w.vid).store.map (·.vid) = s.store.map (·.vid) := by
      simp only [Db.endVersion, List.map_map]
      apply List.map_congr_left
      intro v _
      simp only [Function.comp_apply]
      split <;> rfl
    rw [this]
    exact h.nodup

theorem undone {j : Nat} (h : StoreInv s) (hinv : SessionInv s) (hm : SessionMove s a s' j)
    (hstore : s'.store = s.store.filterMap (Db.undoVersion x dirty)) (hvid : s'.nextVid = s.nextVid)
    (hwrites : s'.writes = s.writes) : StoreInv s' := by
  have hmove : ∀ v ∈ s.store, Fits s' v := fun v hv =>
    (h.fits v hv).move hinv hm hvid.ge (by rw [hwrites]; exact List.Subset.refl _)
  refine ⟨?_, ?_⟩
  · intro v' hv'
    rw [hstore] at hv'
    obtain ⟨v, hv, hu⟩ := List.mem_filterMap.mp hv'
    rcases Db.undoVersion_eq_some hu with ⟨rfl, -⟩ | ⟨-, -, -, rfl⟩
    · exact hmove v' hv
    · have hfit := hmove v hv
      refine ⟨hfit.stamped.set_xmax (hinv.move hm).nextId_pos, hfit.vid_lt, ?_⟩
      intro k y hy hstamp
      rw [Row.xmin_set_xmax, Row.xmax_revived] at hstamp
      rcases hstamp with hstamp | rfl
      · exact hfit.stamp k y hy (.inl hstamp)
      · exact absurd ((hinv.move hm).owned_lt k 0 hy).1 (lt_irrefl 0)
  · rw [hstore]
    refine h.nodup.sublist ?_
    have hvids : ∀ l : List Version, List.Sublist
        ((l.filterMap (Db.undoVersion x dirty)).map (·.vid)) (l.map (·.vid)) := by
      intro l
      induction l with
      | nil => exact List.Sublist.refl _
      | cons v l ih =>
        cases hu : Db.undoVersion x dirty v with
        | none =>
          rw [List.filterMap_cons_none hu]
          exact ih.cons _
        | some v' =>
          rw [List.filterMap_cons_some hu, List.map_cons, List.map_cons, Db.undoVersion_vid hu]
          exact ih.cons_cons _
    exact hvids s.store

theorem removeWhere (h : StoreInv s) (p : Version → Bool) : StoreInv (s.removeWhere p) := by
  refine ⟨?_, ?_⟩
  · intro v hv
    have hfit := h.fits v (List.mem_of_mem_filter hv)
    exact ⟨hfit.stamped, hfit.vid_lt, hfit.stamp⟩
  · exact h.nodup.sublist (List.filter_sublist.map _)

theorem move (h : StoreInv s) (hinv : SessionInv s) (hm : SessionMove s a s' i)
    (hst : StoreMove s a s') : StoreInv s' := by
  cases hst with
  | keep hstore hremoved hvid hwrites =>
    refine ⟨?_, by rw [hstore]; exact h.nodup⟩
    intro v hv
    rw [hstore] at hv
    exact (h.fits v hv).move hinv hm hvid.ge (by rw [hwrites]; exact List.Subset.refl _)
  | append j x table row hx hwrite hcommit hstore hremoved hvid hwrites =>
    exact h.append hinv hm hx hwrite hstore hvid hwrites
  | ended j x w hx hw hlive hwrite hcommit hstore hremoved hvid hwrites =>
    exact h.ended hinv hm hx hw hwrite hstore hvid hwrites
  | undone j hp hend hcommitted hstore hremoved hvid hwrites =>
    exact h.undone hinv hm hstore hvid hwrites
  | vacuum table ha hs | erase j vid ha hs =>
    subst hs
    exact h.removeWhere _

end StoreInv

theorem MayWrite.of_owner {tables : List String} (h : SessionInv s) (hx : x ∈ (s.sessions i).owned)
    (hp : (s.sessions i).phase ≠ .entering)
    (hd : (s.sessions i).phase = .inTxn → tables ⊆ (s.sessions i).txn.dirtyTables) :
    MayWrite s x tables := by
  intro j hj
  obtain rfl := h.owned_inj i j x hx hj
  exact ⟨hp, hd⟩

theorem StoreMove.of_autoAppend {id : Nat} {row : Row} (h' : SessionInv s')
    (hs : step s (.autoAppend i id table row) = some s') :
    StoreMove s (.autoAppend i id table row) s' := by
  simp only [step, Option.ite_none_right_eq_some, Option.some.injEq] at hs
  obtain ⟨⟨hp, hid⟩, rfl⟩ := hs
  have ho : id ∈ (s.sessions i).owned := by
    rw [owned_of_auto hp]
    exact hid
  refine .append i id table row ho (MayWrite.of_owner h' ho ?_ ?_)
    (.inl (Finset.mem_insert_self _ _)) rfl rfl rfl rfl
  · simp [Db.appendVersion, hp]
  · simp [Db.appendVersion, hp]

theorem StoreMove.of_autoEnd {id : Nat} (h' : SessionInv s')
    (hs : step s (.autoEnd i id vid) = some s') : StoreMove s (.autoEnd i id vid) s' := by
  simp only [step, Option.ite_none_right_eq_some, Option.some.injEq] at hs
  obtain ⟨⟨hp, hid, hlive⟩, rfl⟩ := hs
  have ho : id ∈ (s.sessions i).owned := by
    rw [owned_of_auto hp]
    exact hid
  obtain ⟨w, hw, hwl⟩ := List.any_eq_true.mp hlive
  obtain ⟨hvid, hvis⟩ := Bool.and_eq_true_iff.mp hwl
  obtain rfl : w.vid = vid := beq_iff_eq.mp hvid
  refine .ended i id w ho hw hvis (MayWrite.of_owner h' ho ?_ ?_)
    (.inl (Finset.mem_insert_self _ _)) rfl rfl rfl rfl
  · simp [Db.endVersion, hp]
  · simp [Db.endVersion, hp]

theorem StoreMove.of_append {key : String} {row : Row} (h : SessionInv s) (h' : SessionInv s')
    (hs : step s (.append i table key row) = some s') :
    StoreMove s (.append i table key row) s' := by
  simp only [step, Option.ite_none_right_eq_some, Option.some.injEq] at hs
  obtain ⟨hp, rfl⟩ := hs
  have ho : (s.sessions i).txn.txnId ∈ (s.sessions i).owned := by
    simp [owned_of_inTxn hp]
  have hactive : (s.sessions i).txn.active := (h.ok i).active_iff.mpr (.inr hp)
  have hopen : (s.sessions i).txn.txnId ∈ s.activeTxnIds :=
    (h.active_iff _).mpr ⟨i, hp, rfl⟩
  refine .append i (s.sessions i).txn.txnId table row ho
    (MayWrite.of_owner (i := i) h' ?_ ?_ ?_) (.inr hopen) rfl rfl rfl rfl
  · simp [Db.setSession, owned, hp, TxnManager.logInsert, TxnManager.pushLog_fields]
  · simp [Db.setSession, hp]
  · intro _ t ht
    obtain rfl := List.mem_singleton.mp ht
    simp only [Db.setSession, Function.update_self, TxnManager.logInsert]
    exact (TxnManager.dirtyTables_pushLog _ _ hactive).mpr (.inr rfl)

theorem StoreMove.of_endVersion {key : String} (h : SessionInv s) (h' : SessionInv s')
    (hs : step s (.endVersion i vid key) = some s') : StoreMove s (.endVersion i vid key) s' := by
  simp only [step, Option.ite_none_right_eq_some] at hs
  obtain ⟨hp, hs⟩ := hs
  split at hs
  · rename_i w hfind
    cases hs
    have hw := List.mem_of_find?_eq_some hfind
    have hwl := List.find?_some hfind
    obtain ⟨hvid, hvis⟩ := Bool.and_eq_true_iff.mp hwl
    obtain rfl : w.vid = vid := beq_iff_eq.mp hvid
    have ho : (s.sessions i).txn.txnId ∈ (s.sessions i).owned := by
      simp [owned_of_inTxn hp]
    have hactive : (s.sessions i).txn.active := (h.ok i).active_iff.mpr (.inr hp)
    have hopen : (s.sessions i).txn.txnId ∈ s.activeTxnIds :=
      (h.active_iff _).mpr ⟨i, hp, rfl⟩
    refine .ended i (s.sessions i).txn.txnId w ho hw hvis
      (MayWrite.of_owner (i := i) h' ?_ ?_ ?_) (.inr hopen) rfl rfl rfl rfl
    · simp [Db.setSession, owned, hp, TxnManager.logDelete, TxnManager.pushLog_fields]
    · simp [Db.setSession, hp]
    · intro _ t ht
      obtain rfl := List.mem_singleton.mp ht
      simp only [Db.setSession, Function.update_self, TxnManager.logDelete]
      exact (TxnManager.dirtyTables_pushLog _ _ hactive).mpr (.inr rfl)
  · cases hs

theorem StoreMove.of_commit (hs : step s (.commit i) = some s') : StoreMove s (.commit i) s' := by
  simp only [step, Option.ite_none_right_eq_some, Option.some.injEq] at hs
  obtain ⟨hp, rfl⟩ := hs
  unfold Db.execCommit
  simp only
  split
  · exact .undone i hp rfl rfl rfl rfl rfl rfl
  · exact .keep rfl rfl rfl rfl

theorem StoreMove.of_recordRead {pkCol : String} (hs : step s (.recordRead i vid pkCol) = some s') :
    StoreMove s (.recordRead i vid pkCol) s' := by
  simp only [step, Option.ite_none_right_eq_some] at hs
  obtain ⟨-, hs⟩ := hs
  split at hs
  · split at hs
    · cases hs
    · split at hs
      · cases hs
        exact .keep rfl rfl rfl rfl
      · cases hs
  · cases hs

theorem StoreMove.of_beginSnapshot (hs : step s (.beginSnapshot i) = some s') :
    StoreMove s (.beginSnapshot i) s' := by
  simp only [step, Option.ite_none_right_eq_some] at hs
  obtain ⟨-, hs⟩ := hs
  split at hs
  · cases hs
    exact .keep rfl rfl rfl rfl
  · cases hs

theorem step_storeMove (h : SessionInv s) (hs : step s a = some s') : StoreMove s a s' := by
  have h' : SessionInv s' := h.step hs
  cases a with
  | setIsolation i level =>
    simp only [step, Option.some.injEq] at hs
    subst hs
    exact .keep rfl rfl rfl rfl
  | beginSnapshot i => exact StoreMove.of_beginSnapshot hs
  | beginActivate i | takeId | startAuto i | tag i | finishAuto i =>
    simp only [step, Option.ite_none_right_eq_some, Option.some.injEq] at hs
    obtain ⟨-, rfl⟩ := hs
    exact .keep rfl rfl rfl rfl
  | autoAppend i id table row => exact StoreMove.of_autoAppend h' hs
  | autoEnd i id vid => exact StoreMove.of_autoEnd h' hs
  | autoErase i vid =>
    simp only [step, Option.ite_none_right_eq_some, Option.some.injEq] at hs
    obtain ⟨-, rfl⟩ := hs
    exact .erase i vid rfl rfl
  | append i table key row => exact StoreMove.of_append h h' hs
  | endVersion i vid key => exact StoreMove.of_endVersion h h' hs
  | recordRead i vid pkCol => exact StoreMove.of_recordRead hs
  | commit i => exact StoreMove.of_commit hs
  | rollback i =>
    simp only [step, Option.ite_none_right_eq_some, Option.some.injEq] at hs
    obtain ⟨hp, rfl⟩ := hs
    exact .undone i hp rfl rfl rfl rfl rfl rfl
  | vacuum table =>
    simp only [step, Option.some.injEq] at hs
    exact .vacuum table rfl hs.symm

/-- The ids and the stored versions of a state are in order. -/
structure Db.Inv (s : Db) : Prop where
  session : SessionInv s
  store : StoreInv s

theorem Db.Inv.step (h : s.Inv) (hs : RusqlEngine.step s a = some s') : s'.Inv := by
  obtain ⟨i, hm⟩ := step_sessionMove h.session hs
  exact ⟨h.session.move hm, h.store.move h.session hm (step_storeMove h.session hs)⟩

/-- A database just loaded: no session has a transaction or a statement, and every stamp is the
engine's, with an id below the counter. -/
structure Db.Loaded (s : Db) : Prop where
  nextId_pos : 0 < s.nextId
  nextId_max : s.nextId ≤ uint64Max
  active_empty : s.activeTxnIds = ∅
  sessions : ∀ i, s.sessions i = fresh
  stamped : ∀ v ∈ s.store, Stamped s.nextId v.row
  vid_lt : ∀ v ∈ s.store, v.vid < s.nextVid
  nodup : (s.store.map (·.vid)).Nodup
  removed_empty : s.removed = []
  committed_eq : s.committed = Finset.range s.nextId

theorem Db.loaded_load {nextId : Nat} {rows : List (String × Row)} (hpos : 0 < nextId)
    (hmax : nextId ≤ uint64Max) (hst : ∀ p ∈ rows, Stamped nextId p.2) :
    (Db.load nextId rows).Loaded := by
  refine ⟨hpos, hmax, rfl, fun _ => rfl, ?_, ?_, ?_, rfl, rfl⟩
  · intro v hv
    obtain ⟨p, hp, rfl⟩ := List.mem_map.mp hv
    exact hst p.1 (List.fst_mem_of_mem_zipIdx hp)
  · intro v hv
    obtain ⟨p, hp, rfl⟩ := List.mem_map.mp hv
    exact List.snd_lt_of_mem_zipIdx hp
  · have : (Db.load nextId rows).store.map (·.vid) = List.range' 0 rows.length := by
      simp [Db.load, List.map_map, Function.comp_def]
    rw [this]
    exact List.nodup_range'

theorem Db.Loaded.inv {s : Db} (h : s.Loaded) : s.Inv where
  session :=
    { nextId_pos := h.nextId_pos
      nextId_max := h.nextId_max
      owned_lt := by
        intro i x hx
        simp [h.sessions i, fresh, owned] at hx
      owned_inj := by
        intro i j x hx
        simp [h.sessions i, fresh, owned] at hx
      active_iff := by
        intro x
        simp [h.active_empty, h.sessions, fresh]
      ok := by
        intro i
        rw [h.sessions i]
        exact ⟨by decide, by simp [fresh, TxnManager.fresh]⟩ }
  store :=
    { fits := by
        intro v hv
        refine ⟨h.stamped v hv, h.vid_lt v hv, ?_⟩
        intro i x hx
        simp [h.sessions i, fresh, owned] at hx
      nodup := h.nodup }

theorem Db.Inv.of_reaches {s₀ : Db} {ok : Db → Step → Prop} (h : s₀.Inv)
    (hr : Transition.Reaches RusqlEngine.step ok s₀ s) : s.Inv :=
  hr.invariant (fun _ _ _ hinv _ hs => hinv.step hs) h

theorem Db.Inv.nextId_le_of_reaches {s₀ : Db} {ok : Db → Step → Prop} (h : s₀.Inv)
    (hr : Transition.Reaches RusqlEngine.step ok s₀ s) : s₀.nextId ≤ s.nextId := by
  have hboth : s₀.nextId ≤ s.nextId ∧ s.Inv := by
    refine hr.invariant (P := fun t => s₀.nextId ≤ t.nextId ∧ t.Inv) ?_ ⟨le_rfl, h⟩
    rintro t a t' ⟨hle, hinv⟩ - hs
    obtain ⟨i, hm⟩ := step_sessionMove hinv.session hs
    exact ⟨le_trans hle hm.nextId_le, hinv.step hs⟩
  exact hboth.1

end RusqlEngine
