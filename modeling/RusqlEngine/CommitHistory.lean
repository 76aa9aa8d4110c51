import RusqlEngine.FrozenSnapshot

/-!
# Who has committed

Two facts about every reachable state: a stamp belongs to a committed writer or to an
open transaction (`CommitInv`), so that a rolled back writer leaves no stamp, and the
labels of removed versions are not used again (`RemovedInv`).
-/

namespace RusqlEngine

/-- What a step may do to the committed ids. -/
structure CommitMove (s s' : Db) : Prop where
  mono : s.committed ⊆ s'.committed
  source : ∀ x ∈ s'.committed, x ∈ s.committed ∨
    ((∃ i, x ∈ (s.sessions i).owned) ∧
      ∀ j, x ∈ (s'.sessions j).owned → (s'.sessions j).phase = .auto)
  left : ∀ x ∈ s.activeTxnIds, x ∈ s'.activeTxnIds ∨ x ∈ s'.committed ∨
    ∃ i, (s.sessions i).phase = .inTxn ∧ x = (s.sessions i).txn.txnId ∧
      s'.store = s.store.filterMap
        (Db.undoVersion (s.sessions i).txn.txnId (s.sessions i).txn.dirtyTables)

/-- Committed ids were handed out and are not open, and every stamp is that of a committed writer or
of an open transaction. -/
structure CommitInv (s : Db) : Prop where
  committed_lt : ∀ x ∈ s.committed, x < s.nextId
  committed_auto : ∀ x ∈ s.committed, ∀ i, x ∈ (s.sessions i).owned →
    (s.sessions i).phase = .auto
  stamp : ∀ v ∈ s.store, ∀ x, v.row.xmin = x ∨ v.row.xmax = x →
    x = 0 ∨ x ∈ s.committed ∨ x ∈ s.activeTxnIds

def RemovedInv (s : Db) : Prop :=
  ∀ v ∈ s.removed, v.vid < s.nextVid ∧ ∀ w ∈ s.store, w.vid ≠ v.vid

variable {s s' : Db}

theorem CommitMove.of_same (hc : s'.committed = s.committed)
    (ha : s.activeTxnIds ⊆ s'.activeTxnIds) : CommitMove s s' :=
  ⟨hc.ge, fun _ hx => .inl (hc ▸ hx), fun _ hx => .inl (ha hx)⟩

variable {i : Nat}

theorem CommitMove.of_auto {id : Nat} (hinv : SessionInv s) (hp : (s.sessions i).phase = .auto)
    (hid : id ∈ (s.sessions i).taken) (hs : s'.sessions = s.sessions)
    (ha : s'.activeTxnIds = s.activeTxnIds) (hc : s'.committed = insert id s.committed) :
    CommitMove s s' := by
  have ho : id ∈ (s.sessions i).owned := by
    rw [Session.owned_of_auto hp]
    exact hid
  refine ⟨hc ▸ Finset.subset_insert _ _, ?_, fun x hx => .inl (ha ▸ hx)⟩
  intro x hx
  rcases Finset.mem_insert.mp (hc ▸ hx) with rfl | hx
  · refine .inr ⟨⟨i, ho⟩, fun j hj => ?_⟩
    rw [hs] at hj ⊢
    rw [hinv.owned_inj j i x hj ho]
    exact hp
  · exact .inl hx

theorem CommitMove.of_rollback (hp : (s.sessions i).phase = .inTxn) :
    CommitMove s (s.applyRollback i) := by
  refine ⟨Finset.Subset.refl _, fun x hx => .inl hx, fun x hx => ?_⟩
  by_cases he : x = (s.sessions i).txn.txnId
  · exact .inr (.inr ⟨i, hp, he, rfl⟩)
  · exact .inl (Finset.mem_erase.mpr ⟨he, hx⟩)

theorem CommitMove.of_commit (hinv : SessionInv s) (hp : (s.sessions i).phase = .inTxn) :
    CommitMove s (s.execCommit i) := by
  unfold Db.execCommit
  simp only
  split
  · exact CommitMove.of_rollback hp
  · have ho : (s.sessions i).txn.txnId ∈ (s.sessions i).owned := by
      simp [Session.owned_of_inTxn hp]
    refine ⟨Finset.subset_insert _ _, ?_, ?_⟩
    · intro x hx
      rcases Finset.mem_insert.mp hx with rfl | hx
      · refine .inr ⟨⟨i, ho⟩, fun j hj => ?_⟩
        by_cases hji : j = i
        · subst hji
          simp [Db.leaveTxn, Db.setSession, Session.owned] at hj
        · simp only [Db.leaveTxn, Db.setSession, Function.update_of_ne hji] at hj
          exact absurd (hinv.owned_inj j i _ hj ho) hji
      · exact .inl hx
    · intro x hx
      by_cases he : x = (s.sessions i).txn.txnId
      · subst he
        exact .inr (.inl (Finset.mem_insert_self _ _))
      · exact .inl (Finset.mem_erase.mpr ⟨he, hx⟩)

theorem CommitMove.of_recordRead {vid : Nat} {pkCol : String}
    (hs : step s (.recordRead i vid pkCol) = some s') : CommitMove s s' := by
  simp only [step, Option.ite_none_right_eq_some] at hs
  obtain ⟨-, hs⟩ := hs
  split at hs
  · split at hs
    · cases hs
    · split at hs
      · cases hs
        exact CommitMove.of_same rfl (Finset.Subset.refl _)
      · cases hs
  · cases hs

theorem step_commitMove {a : Step} (hinv : SessionInv s) (hs : step s a = some s') :
    CommitMove s s' := by
  cases a with
  | setIsolation i level | vacuum table =>
    simp only [step, Option.some.injEq] at hs
    subst hs
    exact CommitMove.of_same rfl (Finset.Subset.refl _)
  | beginSnapshot i | endVersion i vid key =>
    simp only [step, Option.ite_none_right_eq_some] at hs
    obtain ⟨-, hs⟩ := hs
    split at hs
    · cases hs
      exact CommitMove.of_same rfl (Finset.Subset.refl _)
    · cases hs
  | beginActivate i =>
    simp only [step, Option.ite_none_right_eq_some, Option.some.injEq] at hs
    obtain ⟨-, rfl⟩ := hs
    exact CommitMove.of_same rfl (Finset.subset_insert _ _)
  | takeId | startAuto i | tag i | autoErase i vid | finishAuto i | append i table key row =>
    simp only [step, Option.ite_none_right_eq_some, Option.some.injEq] at hs
    obtain ⟨-, rfl⟩ := hs
    exact CommitMove.of_same rfl (Finset.Subset.refl _)
  | autoAppend i id table row =>
    simp only [step, Option.ite_none_right_eq_some, Option.some.injEq] at hs
    obtain ⟨⟨hp, hid⟩, rfl⟩ := hs
    exact CommitMove.of_auto hinv hp hid rfl rfl rfl
  | autoEnd i id vid =>
    simp only [step, Option.ite_none_right_eq_some, Option.some.injEq] at hs
    obtain ⟨⟨hp, hid, -⟩, rfl⟩ := hs
    exact CommitMove.of_auto hinv hp hid rfl rfl rfl
  | recordRead i vid pkCol => exact CommitMove.of_recordRead hs
  | commit i =>
    simp only [step, Option.ite_none_right_eq_some, Option.some.injEq] at hs
    obtain ⟨hp, rfl⟩ := hs
    exact CommitMove.of_commit hinv hp
  | rollback i =>
    simp only [step, Option.ite_none_right_eq_some, Option.some.injEq] at hs
    obtain ⟨hp, rfl⟩ := hs
    exact CommitMove.of_rollback hp

theorem find_of_parseTxnId {n x : Nat} {row : Row} {col : String} (hn : n ≤ uint64Max)
    (hst : StampCell n (row.find col)) (hx : parseTxnId row col = x) (h0 : x ≠ 0) :
    row.find col = some (stdToString x) := by
  cases hc : row.find col with
  | none =>
    simp only [parseTxnId, hc] at hx
    exact absurd hx.symm h0
  | some text =>
    obtain ⟨id, hid, rfl⟩ := hst text hc
    rw [parseTxnId_of_find hc (by omega)] at hx
    rw [hx]

theorem no_stamp_of_undone (h : s.Inv) (hp : (s.sessions i).phase = .inTxn)
    (hstore : s'.store = s.store.filterMap
      (Db.undoVersion (s.sessions i).txn.txnId (s.sessions i).txn.dirtyTables))
    {v' : Version} (hv' : v' ∈ s'.store) :
    v'.row.xmin ≠ (s.sessions i).txn.txnId ∧ v'.row.xmax ≠ (s.sessions i).txn.txnId := by
  rw [hstore] at hv'
  obtain ⟨v, hv, hu⟩ := List.mem_filterMap.mp hv'
  have hmax := h.session.nextId_max
  have ho : (s.sessions i).txn.txnId ∈ (s.sessions i).owned := by
    simp [Session.owned_of_inTxn hp]
  have h0 : (s.sessions i).txn.txnId ≠ 0 := (h.session.owned_lt i _ ho).1.ne'
  have hfit := h.store.fits v hv
  have hdirty : v.row.xmin = (s.sessions i).txn.txnId ∨ v.row.xmax = (s.sessions i).txn.txnId →
      v.table ∈ (s.sessions i).txn.dirtyTables := fun hst => (hfit.stamp i _ ho hst).2.2 hp
  rcases Db.undoVersion_eq_some hu with ⟨rfl, hclean⟩ | ⟨-, hmin, -, rfl⟩
  · refine ⟨fun he => ?_, fun he => ?_⟩
    · exact (hclean (hdirty (.inl he))).1
        (find_of_parseTxnId hmax hfit.stamped.xminCell he h0)
    · exact (hclean (hdirty (.inr he))).2
        (find_of_parseTxnId hmax hfit.stamped.xmaxCell he h0)
  · refine ⟨fun he => ?_, fun he => ?_⟩
    · rw [Row.xmin_set_xmax] at he
      exact hmin (find_of_parseTxnId hmax hfit.stamped.xminCell he h0)
    · rw [Row.xmax_revived] at he
      exact h0 he.symm

theorem CommitMove.accounted (h : s.Inv) (hc : CommitMove s s') {x : Nat}
    (hx : x = 0 ∨ x ∈ s.committed ∨ x ∈ s.activeTxnIds) {v : Version} (hv : v ∈ s'.store)
    (hstamp : v.row.xmin = x ∨ v.row.xmax = x) :
    x = 0 ∨ x ∈ s'.committed ∨ x ∈ s'.activeTxnIds := by
  rcases hx with hx | hx | hx
  · exact .inl hx
  · exact .inr (.inl (hc.mono hx))
  · rcases hc.left x hx with hx | hx | ⟨i, hp, rfl, hstore⟩
    · exact .inr (.inr hx)
    · exact .inr (.inl hx)
    · obtain ⟨hmin, hmax⟩ := no_stamp_of_undone h hp hstore hv
      exact absurd hstamp (not_or.mpr ⟨hmin, hmax⟩)

theorem stamp_source {a : Step} (h : s.Inv) (hst : StoreMove s a s') {v : Version}
    (hv : v ∈ s'.store) {x : Nat} (hstamp : v.row.xmin = x ∨ v.row.xmax = x) :
    (∃ w ∈ s.store, w.row.xmin = x ∨ w.row.xmax = x) ∨ x = 0 ∨ x ∈ s'.committed ∨
      x ∈ s'.activeTxnIds := by
  have hmax := h.session.nextId_max
  cases hst with
  | keep hstore hremoved hvid hwrites => exact .inl ⟨v, hstore ▸ hv, hstamp⟩
  | append j y table row hy hwrite hcommit hstore hremoved hvid hwrites =>
    rw [hstore] at hv
    rcases List.mem_append.mp hv with hv | hv
    · exact .inl ⟨v, hv, hstamp⟩
    · obtain rfl := List.mem_singleton.mp hv
      have hlt := (h.session.owned_lt j y hy).2
      rw [Row.xmin_tag row (by omega), Row.xmax_tag] at hstamp
      rcases hstamp with rfl | rfl
      · exact .inr (.inr hcommit)
      · exact .inr (.inl rfl)
  | ended j y w hy hw hlive hwrite hcommit hstore hremoved hvid hwrites =>
    rw [hstore] at hv
    obtain ⟨u, hu, rfl⟩ := Db.mem_store_endVersion.mp hv
    split at hstamp
    · have hlt := (h.session.owned_lt j y hy).2
      rw [Row.xmin_set_xmax, Row.xmax_set_xmax _ (by omega)] at hstamp
      rcases hstamp with hmin | rfl
      · exact .inl ⟨u, hu, .inl hmin⟩
      · exact .inr (.inr hcommit)
    · exact .inl ⟨u, hu, hstamp⟩
  | undone j hp hend hcommitted hstore hremoved hvid hwrites =>
    rw [hstore] at hv
    obtain ⟨u, hu, huv⟩ := List.mem_filterMap.mp hv
    rcases Db.undoVersion_eq_some huv with ⟨rfl, -⟩ | ⟨-, -, -, rfl⟩
    · exact .inl ⟨v, hu, hstamp⟩
    · rw [Row.xmin_set_xmax, Row.xmax_revived] at hstamp
      rcases hstamp with hmin | rfl
      · exact .inl ⟨u, hu, .inl hmin⟩
      · exact .inr (.inl rfl)
  | vacuum table ha hrem | erase j vid ha hrem =>
    subst hrem
    exact .inl ⟨v, List.mem_of_mem_filter hv, hstamp⟩

theorem CommitInv.step {a : Step} (hc : CommitInv s) (h : s.Inv)
    (hs : RusqlEngine.step s a = some s') : CommitInv s' := by
  obtain ⟨i, hm⟩ := step_sessionMove h.session hs
  have hmove := step_commitMove h.session hs
  refine ⟨?_, ?_, ?_⟩
  · intro x hx
    rcases hmove.source x hx with hx | ⟨⟨j, hj⟩, -⟩
    · exact lt_of_lt_of_le (hc.committed_lt x hx) hm.nextId_le
    · exact lt_of_lt_of_le (h.session.owned_lt j x hj).2 hm.nextId_le
  · intro x hx j hj
    rcases hmove.source x hx with hx | ⟨-, hauto⟩
    · obtain ⟨hold, -⟩ := owned_before h.session hs (hc.committed_lt x hx) hj
      have hp := hc.committed_auto x hx j hold
      by_cases hji : j = i
      · subst hji
        rcases hm.phase x hj hold with he | ⟨he, -⟩
        · rw [he, hp]
        · simp [hp] at he
      · rw [hm.others j hji]
        exact hp
    · exact hauto j hj
  · intro v hv x hstamp
    rcases stamp_source h (step_storeMove h.session hs) hv hstamp with ⟨w, hw, hws⟩ | hx
    · exact hmove.accounted h (hc.stamp w hw x hws) hv hstamp
    · exact hx

theorem RemovedInv.step {a : Step} (hr : RemovedInv s) (h : s.Inv)
    (hs : RusqlEngine.step s a = some s') : RemovedInv s' := by
  have hfilter : ∀ p : Version → Bool, RemovedInv (s.removeWhere p) := by
    intro p v hv
    rcases List.mem_append.mp hv with hv | hv
    · exact ⟨(hr v hv).1, fun w hw => (hr v hv).2 w (List.mem_of_mem_filter hw)⟩
    · obtain ⟨hvs, hpv⟩ := List.mem_filter.mp hv
      refine ⟨(h.store.fits v hvs).vid_lt, fun w hw he => ?_⟩
      obtain ⟨hws, hpw⟩ := List.mem_filter.mp hw
      obtain rfl := h.store.eq_of_vid hws hvs he
      simp [hpv] at hpw
  cases step_storeMove h.session hs with
  | keep hstore hremoved hvid hwrites =>
    intro v hv
    rw [hremoved] at hv
    rw [hvid, hstore]
    exact hr v hv
  | append j x table row hx hwrite hcommit hstore hremoved hvid hwrites =>
    intro v hv
    rw [hremoved] at hv
    rw [hvid, hstore]
    refine ⟨Nat.lt_succ_of_lt (hr v hv).1, fun w hw => ?_⟩
    rcases List.mem_append.mp hw with hw | hw
    · exact (hr v hv).2 w hw
    · obtain rfl := List.mem_singleton.mp hw
      exact (hr v hv).1.ne'
  | ended j x w hx hw hlive hwrite hcommit hstore hremoved hvid hwrites =>
    intro v hv
    rw [hremoved] at hv
    rw [hvid, hstore]
    refine ⟨(hr v hv).1, fun u' hu' => ?_⟩
    obtain ⟨u, hu, rfl⟩ := Db.mem_store_endVersion.mp hu'
    split <;> exact (hr v hv).2 u hu
  | undone j hp hend hcommitted hstore hremoved hvid hwrites =>
    intro v hv
    rw [hremoved] at hv
    rw [hvid, hstore]
    refine ⟨(hr v hv).1, fun u' hu' => ?_⟩
    obtain ⟨u, hu, huv⟩ := List.mem_filterMap.mp hu'
    rw [Db.undoVersion_vid huv]
    exact (hr v hv).2 u hu
  | vacuum table ha hrem | erase j vid ha hrem => exact hrem ▸ hfilter _

end RusqlEngine
