import RusqlEngine.Vacuum

/-!
# Frozen snapshots

A transaction at REPEATABLE READ or SERIALIZABLE keeps the snapshot its `BEGIN` took, which counts
every id below its cutoff outside `active_txn_ids` as committed: also an autocommit id with rows to
be written, and that of a `BEGIN` between its halves. `Guarded` rules out these windows; then what
it shows of the others' work stays the same.
-/

namespace RusqlEngine

open Transition

def Db.visibleVersions (s : Db) (ctx : SnapshotCtx) : Set Nat :=
  {vid | ∃ v ∈ s.store, v.vid = vid ∧ isVisibleForRead v.row ctx = true}

def Db.writtenBy (s : Db) (t : Nat) : Set Nat :=
  {vid | (vid, t) ∈ s.writes}

/-- Every id that a session may still write under is listed in `active_txn_ids`: no autocommit
statement holds an id for unfinished rows, no other `BEGIN` is between its two halves. -/
def AllListed (s : Db) : Prop :=
  ∀ j, ∀ x ∈ (s.sessions j).owned, x ∈ s.activeTxnIds

/-- A snapshot is taken when every id in use is listed, a `VACUUM` is safe, and a `DELETE` erases
rows for good only while no snapshot is open. -/
def Guarded (s : Db) : Step → Prop
  | .beginSnapshot _ => AllListed s
  | .vacuum table => VacuumSafe s table
  | .autoErase _ _ => ∀ j, (s.sessions j).txn.frozenCtx = none
  | _ => True

def Apart (s : Db) (i : Nat) (ctx : SnapshotCtx) : Prop :=
  ∀ j, j ≠ i → ∀ x ∈ (s.sessions j).owned, committedAsOf ctx x = false

def AllApart (s : Db) : Prop :=
  ∀ i ctx, (s.sessions i).txn.frozenCtx = some ctx → Apart s i ctx

variable {s s' : Db} {a : Step} {i : Nat}

theorem AllApart.move (hinv : SessionInv s) (h : AllApart s) (hg : Guarded s a)
    (hm : SessionMove s a s' i) : AllApart s' := by
  intro k ctx hctx j hjk x hx
  have hx0 : x ≠ 0 := ((hinv.move hm).owned_lt j x hx).1.ne'
  have hold : x ∈ (s.sessions j).owned ∨ s.nextId ≤ x := by
    by_cases hji : j = i
    · subst hji
      exact (hm.owned x hx).imp_right And.left
    · rw [hm.others j hji] at hx
      exact .inl hx
  have hold_ctx : (s.sessions k).txn.frozenCtx = some ctx ∨
      (a = .beginSnapshot k ∧ ctx = ⟨s.nextId, s.nextId + 1, s.activeTxnIds⟩) := by
    by_cases hki : k = i
    · subst hki
      exact hm.froze ctx hctx
    · rw [hm.others k hki] at hctx
      exact .inl hctx
  rcases hold_ctx with hctx | ⟨rfl, rfl⟩
  · rcases hold with ho | hle
    · exact h k ctx hctx j hjk x ho
    · obtain ⟨-, -, -, hcut⟩ := (hinv.ok k).frozen ctx hctx
      exact committedAsOf_eq_false_iff.mpr ⟨hx0, .inl (le_trans hcut hle)⟩
  · rcases hold with ho | hle
    · exact committedAsOf_eq_false_iff.mpr ⟨hx0, .inr (hg j x ho)⟩
    · have hki : k = i := by
        by_contra hki
        have hcut := ((hinv.ok k).frozen _ (hm.others k hki ▸ hctx)).2.2.2
        exact absurd hcut (Nat.not_succ_le_self _)
      subst hki
      rw [hm.others j hjk] at hx
      exact absurd (hinv.owned_lt j x hx).2 (not_lt.mpr hle)

theorem AllApart.of_reaches {s₀ : Db} (h₀ : s₀.Inv) (h : AllApart s₀)
    (hr : Reaches step Guarded s₀ s) : s.Inv ∧ AllApart s := by
  refine hr.invariant (P := fun s => s.Inv ∧ AllApart s) ?_ ⟨h₀, h⟩
  rintro t a t' ⟨hinv, h⟩ hg hs
  obtain ⟨i, hm⟩ := step_sessionMove hinv.session hs
  exact ⟨hinv.step hs, h.move hinv.session hg hm⟩

/-- An id still owned after a step and handed out before it was owned before it; the session has
kept its snapshot and its reads. -/
theorem owned_before {t : Nat} (hinv : SessionInv s) (hs : step s a = some s') (hlt : t < s.nextId)
    (ho : t ∈ (s'.sessions i).owned) :
    t ∈ (s.sessions i).owned ∧ (s'.sessions i).txn.frozenCtx = (s.sessions i).txn.frozenCtx ∧
      (s.sessions i).txn.readSet ⊆ (s'.sessions i).txn.readSet := by
  obtain ⟨j, hm⟩ := step_sessionMove hinv hs
  by_cases hij : i = j
  · subst hij
    have hold : t ∈ (s.sessions i).owned := by
      rcases hm.owned t ho with hold | ⟨hle, -⟩
      · exact hold
      · exact absurd hlt (not_lt.mpr hle)
    exact ⟨hold, hm.frozen t ho hold, hm.reads t ho hold⟩
  · rw [hm.others i hij] at ho ⊢
    exact ⟨ho, rfl, List.Subset.refl _⟩

variable {ctx : SnapshotCtx} {x : Nat}

theorem seen_xmax_congr {xmin : Nat} (hself : x ≠ ctx.selfTxnId)
    (hx : committedAsOf ctx x = false) : Seen ctx xmin x ↔ Seen ctx xmin 0 := by
  simp [Seen, hself, hx]

theorem not_seen_xmin {xmax : Nat} (hself : x ≠ ctx.selfTxnId) (hx : committedAsOf ctx x = false) :
    ¬ Seen ctx x xmax := by
  simp [Seen, hself, hx]

variable {vid : Nat}

namespace Db

theorem mem_visibleVersions_iff (h : s.Inv) :
    vid ∈ s.visibleVersions ctx ↔
      ∃ v ∈ s.store, v.vid = vid ∧ Seen ctx v.row.xmin v.row.xmax := by
  constructor
  · rintro ⟨v, hv, rfl, hvis⟩
    exact ⟨v, hv, rfl,
      (isVisibleForRead_iff_seen h.session.nextId_max (h.store.fits v hv).stamped).mp hvis⟩
  · rintro ⟨v, hv, rfl, hseen⟩
    exact ⟨v, hv, rfl,
      (isVisibleForRead_iff_seen h.session.nextId_max (h.store.fits v hv).stamped).mpr hseen⟩

end Db

variable {j : Nat}

theorem writer_hidden (h : SessionInv s) (hctx : (s.sessions i).txn.frozenCtx = some ctx)
    (hapart : Apart s i ctx) (hx : x ∈ (s.sessions j).owned) (hself : x ≠ ctx.selfTxnId) :
    committedAsOf ctx x = false := by
  by_cases hji : j = i
  · subst hji
    obtain ⟨hactive, hid, -, -⟩ := (h.ok j).frozen ctx hctx
    refine absurd ?_ hself
    rcases (h.ok j).active_iff.mp hactive with hp | hp
    · rw [Session.owned_of_entering hp, Finset.mem_singleton] at hx
      rw [hx, hid]
    · rw [Session.owned_of_inTxn hp, Finset.mem_singleton] at hx
      rw [hx, hid]
  · exact hapart j hji x hx

theorem visibleVersions_append {table : String} {row : Row} (h : s.Inv) (h' : s'.Inv)
    (hctx : (s.sessions i).txn.frozenCtx = some ctx) (hapart : Apart s i ctx)
    (hx : x ∈ (s.sessions j).owned) (hstore : s'.store = (s.appendVersion x table row).store)
    (hnew : vid = s.nextVid → x ≠ ctx.selfTxnId) :
    vid ∈ s.visibleVersions ctx ↔ vid ∈ s'.visibleVersions ctx := by
  rw [Db.mem_visibleVersions_iff h, Db.mem_visibleVersions_iff h', hstore]
  simp only [Db.appendVersion, List.mem_append, List.mem_singleton]
  constructor
  · rintro ⟨v, hv, he, hseen⟩
    exact ⟨v, .inl hv, he, hseen⟩
  · rintro ⟨v, hv | rfl, he, hseen⟩
    · exact ⟨v, hv, he, hseen⟩
    · have hself := hnew he.symm
      have hlt := (h.session.owned_lt j x hx).2
      have hmax := h.session.nextId_max
      rw [Row.xmin_tag row (by omega)] at hseen
      exact absurd hseen
        (not_seen_xmin hself (writer_hidden h.session hctx hapart hx hself))

theorem visibleVersions_ended {w : Version} (h : s.Inv) (h' : s'.Inv)
    (hctx : (s.sessions i).txn.frozenCtx = some ctx) (hapart : Apart s i ctx)
    (hx : x ∈ (s.sessions j).owned) (hw : w ∈ s.store) (hlive : isVisible w.row)
    (hstore : s'.store = (s.endVersion x w.vid).store) (hnew : vid = w.vid → x ≠ ctx.selfTxnId) :
    vid ∈ s.visibleVersions ctx ↔ vid ∈ s'.visibleVersions ctx := by
  have hmax := h.session.nextId_max
  have hlt := (h.session.owned_lt j x hx).2
  have hw0 : w.row.xmax = 0 :=
    (isVisible_iff_xmax_eq_zero hmax (h.store.fits w hw).stamped).mp hlive
  have hend : vid = w.vid → (Seen ctx (w.row.set "_xmax" (stdToString x)).xmin
      (w.row.set "_xmax" (stdToString x)).xmax ↔ Seen ctx w.row.xmin w.row.xmax) := by
    intro he
    have hself := hnew he
    rw [Row.xmin_set_xmax, Row.xmax_set_xmax _ (by omega), hw0]
    exact seen_xmax_congr hself (writer_hidden h.session hctx hapart hx hself)
  rw [Db.mem_visibleVersions_iff h, Db.mem_visibleVersions_iff h', hstore]
  constructor
  · rintro ⟨v, hv, he, hseen⟩
    refine ⟨_, Db.mem_store_endVersion.mpr ⟨v, hv, rfl⟩, ?_⟩
    split
    · rename_i hvw
      obtain rfl := h.store.eq_of_vid hv hw hvw
      exact ⟨he, (hend he.symm).mpr hseen⟩
    · exact ⟨he, hseen⟩
  · rintro ⟨v', hv', he, hseen⟩
    obtain ⟨v, hv, rfl⟩ := Db.mem_store_endVersion.mp hv'
    refine ⟨v, hv, ?_⟩
    split at he
    · rename_i hvw
      obtain rfl := h.store.eq_of_vid hv hw hvw
      rw [if_pos rfl] at hseen
      exact ⟨he, (hend he.symm).mp hseen⟩
    · rename_i hvw
      rw [if_neg hvw] at hseen
      exact ⟨he, hseen⟩

theorem visibleVersions_undone (h : s.Inv) (h' : s'.Inv) (hapart : Apart s i ctx) (hji : j ≠ i)
    (hself : (s.sessions j).txn.txnId ≠ ctx.selfTxnId) (hp : (s.sessions j).phase = .inTxn)
    (hstore : s'.store = s.store.filterMap
      (Db.undoVersion (s.sessions j).txn.txnId (s.sessions j).txn.dirtyTables)) :
    vid ∈ s.visibleVersions ctx ↔ vid ∈ s'.visibleVersions ctx := by
  have hmax := h.session.nextId_max
  have hx : (s.sessions j).txn.txnId ∈ (s.sessions j).owned := by
    simp [Session.owned_of_inTxn hp]
  have hlt := (h.session.owned_lt j _ hx).2
  have hhidden := hapart j hji _ hx
  rw [Db.mem_visibleVersions_iff h, Db.mem_visibleVersions_iff h', hstore]
  constructor
  · rintro ⟨v, hv, he, hseen⟩
    cases hu : Db.undoVersion (s.sessions j).txn.txnId (s.sessions j).txn.dirtyTables v with
    | none =>
      rw [Db.xmin_of_undoVersion_none hu (by omega)] at hseen
      exact absurd hseen (not_seen_xmin hself hhidden)
    | some v' =>
      refine ⟨v', List.mem_filterMap.mpr ⟨v, hv, hu⟩, by rw [Db.undoVersion_vid hu, he], ?_⟩
      rcases Db.undoVersion_eq_some hu with ⟨rfl, -⟩ | ⟨-, -, hxm, rfl⟩
      · exact hseen
      · have hxmax : v.row.xmax = (s.sessions j).txn.txnId :=
          parseTxnId_of_find hxm (by omega)
        rw [hxmax] at hseen
        simpa only [Row.xmin_set_xmax, Row.xmax_revived] using
          (seen_xmax_congr hself hhidden).mp hseen
  · rintro ⟨v', hv', he, hseen⟩
    obtain ⟨v, hv, hu⟩ := List.mem_filterMap.mp hv'
    refine ⟨v, hv, by rw [← Db.undoVersion_vid hu, he], ?_⟩
    rcases Db.undoVersion_eq_some hu with ⟨rfl, -⟩ | ⟨-, -, hxm, rfl⟩
    · exact hseen
    · have hxmax : v.row.xmax = (s.sessions j).txn.txnId := parseTxnId_of_find hxm (by omega)
      rw [hxmax]
      exact (seen_xmax_congr hself hhidden).mpr
        (by simpa only [Row.xmin_set_xmax, Row.xmax_revived] using hseen)

theorem visibleVersions_removeWhere {p : Version → Bool}
    (hp : ∀ v ∈ s.store, p v → isVisibleForRead v.row ctx = false) :
    vid ∈ s.visibleVersions ctx ↔ vid ∈ (s.removeWhere p).visibleVersions ctx := by
  constructor
  · rintro ⟨v, hv, he, hvis⟩
    refine ⟨v, List.mem_filter.mpr ⟨hv, ?_⟩, he, hvis⟩
    by_contra hc
    have := hp v hv (by simpa using hc)
    simp [this] at hvis
  · rintro ⟨v, hv, he, hvis⟩
    exact ⟨v, List.mem_of_mem_filter hv, he, hvis⟩

theorem other_undone (h : s.Inv) (hs : step s a = some s')
    (hctx : (s.sessions i).txn.frozenCtx = some ctx) (hopen : ctx.selfTxnId ∈ (s'.sessions i).owned)
    (hp : (s.sessions j).phase = .inTxn) (hend : s'.sessions = (s.leaveTxn j).sessions) :
    j ≠ i ∧ (s.sessions j).txn.txnId ≠ ctx.selfTxnId := by
  have hji : j ≠ i := by
    rintro rfl
    rw [hend] at hopen
    simp [Db.leaveTxn, Db.setSession, Session.owned] at hopen
  have hselfOwned : ctx.selfTxnId ∈ (s.sessions i).owned := by
    obtain ⟨-, hid, hcut, hle⟩ := (h.session.ok i).frozen ctx hctx
    exact (owned_before h.session hs (by omega) hopen).1
  refine ⟨hji, fun he => hji (h.session.owned_inj j i ctx.selfTxnId ?_ hselfOwned)⟩
  rw [Session.owned_of_inTxn hp, he, Finset.mem_singleton]

theorem visibleVersions_step (h : s.Inv) (hg : Guarded s a) (hs : step s a = some s')
    (hctx : (s.sessions i).txn.frozenCtx = some ctx) (hapart : Apart s i ctx)
    (hopen : ctx.selfTxnId ∈ (s'.sessions i).owned)
    (hunwritten : vid ∉ s'.writtenBy ctx.selfTxnId) :
    vid ∈ s.visibleVersions ctx ↔ vid ∈ s'.visibleVersions ctx := by
  have h' : s'.Inv := h.step hs
  cases step_storeMove h.session hs with
  | keep hstore hremoved hvid hwrites =>
    simp only [Db.visibleVersions, hstore]
  | append j x table row hx hwrite hcommit hstore hremoved hvid hwrites =>
    refine visibleVersions_append h h' hctx hapart hx hstore ?_
    rintro rfl rfl
    exact hunwritten (by simp [Db.writtenBy, hwrites])
  | ended j x w hx hw hlive hwrite hcommit hstore hremoved hvid hwrites =>
    refine visibleVersions_ended h h' hctx hapart hx hw hlive hstore ?_
    rintro rfl rfl
    exact hunwritten (by simp [Db.writtenBy, hwrites])
  | undone j hp hend hcommitted hstore hremoved hvid hwrites =>
    obtain ⟨hji, hself⟩ := other_undone h hs hctx hopen hp hend
    exact visibleVersions_undone h h' hapart hji hself hp hstore
  | vacuum table ha hrem =>
    subst ha hrem
    exact visibleVersions_removeWhere fun v hv hvac => VacuumSafe.not_seen h hg hv hvac hctx
  | erase j vid' ha hrem =>
    subst ha
    have := hg i
    simp [hctx] at this

theorem writtenBy_subset_step {t : Nat} (h : s.Inv) (hs : step s a = some s') :
    s.writtenBy t ⊆ s'.writtenBy t := by
  intro vid hvid
  have hsub : s.writes ⊆ s'.writes := by
    cases step_storeMove h.session hs with
    | keep hstore hremoved hvid hwrites => exact hwrites ▸ List.Subset.refl _
    | append j x table row hx hwrite hcommit hstore hremoved hvid hwrites
    | ended j x w hx hw hlive hwrite hcommit hstore hremoved hvid hwrites =>
      exact hwrites ▸ List.subset_cons_self _ _
    | undone j hp hend hcommitted hstore hremoved hvid hwrites =>
      exact hwrites ▸ List.Subset.refl _
    | vacuum table ha hrem | erase j vid' ha hrem => exact hrem ▸ List.Subset.refl _
  exact hsub hvid

theorem visibleVersions_reaches {s₁ s₂ : Db} (h : s₁.Inv) (hapart : AllApart s₁)
    (hctx : (s₁.sessions i).txn.frozenCtx = some ctx) (hr : Reaches step Guarded s₁ s₂)
    (hopen : ctx.selfTxnId ∈ (s₂.sessions i).owned) :
    (s₂.sessions i).txn.frozenCtx = some ctx ∧
      ∀ vid, vid ∉ s₂.writtenBy ctx.selfTxnId →
        (vid ∈ s₁.visibleVersions ctx ↔ vid ∈ s₂.visibleVersions ctx) := by
  have hself : ctx.selfTxnId < s₁.nextId := by
    obtain ⟨-, hid, hcut, hle⟩ := (h.session.ok i).frozen ctx hctx
    omega
  induction hr with
  | refl => exact ⟨hctx, fun vid _ => Iff.rfl⟩
  | @tail t t' hr hmove ih =>
    obtain ⟨a, hg, hs⟩ := hmove
    obtain ⟨hinv, hapart'⟩ := AllApart.of_reaches h hapart hr
    have hlt : ctx.selfTxnId < t.nextId := lt_of_lt_of_le hself (h.nextId_le_of_reaches hr)
    obtain ⟨hopen', hfrozen, -⟩ := owned_before hinv.session hs hlt hopen
    obtain ⟨hctx', ih⟩ := ih hopen'
    refine ⟨by rw [hfrozen, hctx'], fun vid hvid => ?_⟩
    have hvid' : vid ∉ t.writtenBy ctx.selfTxnId := fun hm =>
      hvid (writtenBy_subset_step hinv hs hm)
    exact (ih vid hvid').trans
      (visibleVersions_step hinv hg hs hctx' (hapart' i ctx hctx') hopen hvid)

/-- In a run of guarded steps the versions not written by the transaction that its frozen
snapshot shows are the same at every moment up to its end. -/
theorem frozen_snapshot_stable {s₀ s₁ s₂ : Db} {i : Nat} {ctx : SnapshotCtx}
    (h₀ : s₀.Loaded) (h₁ : Reaches step Guarded s₀ s₁) (h₂ : Reaches step Guarded s₁ s₂)
    (hctx : (s₁.sessions i).txn.frozenCtx = some ctx)
    (hopen : ctx.selfTxnId ∈ (s₂.sessions i).owned) :
    (s₂.sessions i).txn.frozenCtx = some ctx ∧
      s₁.visibleVersions ctx \ s₂.writtenBy ctx.selfTxnId =
        s₂.visibleVersions ctx \ s₂.writtenBy ctx.selfTxnId := by
  have hfresh : AllApart s₀ := by
    intro j ctx' hctx'
    simp [h₀.sessions j, Session.fresh, TxnManager.fresh] at hctx'
  obtain ⟨hinv, hapart⟩ := AllApart.of_reaches h₀.inv hfresh h₁
  obtain ⟨hfrozen, hstable⟩ := visibleVersions_reaches hinv hapart hctx h₂ hopen
  refine ⟨hfrozen, Set.ext fun vid => ?_⟩
  simp only [Set.mem_sdiff]
  exact and_congr_left fun hvid => hstable vid hvid

theorem allListed_of_idle (h : ∀ j, (s.sessions j).phase = .idle) : AllListed s := by
  intro j x hx
  simp [Session.owned_of_idle (h j)] at hx

def deleteLater : List Step :=
  [.startAuto 0, .tag 0, .autoEnd 0 3 0, .finishAuto 0]

theorem beginAlone_guarded : execOk step Guarded oneRow beginAlone := by
  refine ⟨trivial, fun s hs => ⟨?_, fun s' _ => ⟨trivial, fun _ _ => trivial⟩⟩⟩
  cases hs
  refine allListed_of_idle fun j => ?_
  by_cases hj : j = 1
  · subst hj
    rfl
  · simp [Db.setSession, hj, oneRow, Db.load, Session.fresh]

theorem deleteLater_guarded (s : Db) : execOk step Guarded s deleteLater :=
  ⟨trivial, fun _ _ => ⟨trivial, fun _ _ => ⟨trivial, fun _ _ => ⟨trivial, fun _ _ => trivial⟩⟩⟩⟩

/-- The row that is deleted behind the back of the open snapshot stays visible to it. -/
theorem frozen_snapshot_stable_deleteLater :
    ∃ s₁ s₂ ctx, exec step oneRow beginAlone = some s₁ ∧ exec step s₁ deleteLater = some s₂ ∧
      0 ∈ s₁.visibleVersions ctx ∧ s₂.isLive 0 = false ∧
      s₁.visibleVersions ctx \ s₂.writtenBy ctx.selfTxnId =
        s₂.visibleVersions ctx \ s₂.writtenBy ctx.selfTxnId := by
  have hrun : (exec step oneRow beginAlone).any (fun s₁ =>
      (s₁.sessions 1).txn.frozenCtx.any fun ctx =>
        (s₁.store.any fun v => v.vid == 0 && isVisibleForRead v.row ctx) &&
        (exec step s₁ deleteLater).any fun s₂ =>
          decide (ctx.selfTxnId ∈ (s₂.sessions 1).owned) && !s₂.isLive 0) := by
    decide
  obtain ⟨s₁, h₁, hrun⟩ := (Option.any_eq_true _ _).mp hrun
  obtain ⟨ctx, hctx, hrun⟩ := (Option.any_eq_true _ _).mp hrun
  obtain ⟨hvis, hrun⟩ := Bool.and_eq_true_iff.mp hrun
  obtain ⟨s₂, h₂, hrun⟩ := (Option.any_eq_true _ _).mp hrun
  obtain ⟨hopen, hdead⟩ := Bool.and_eq_true_iff.mp hrun
  obtain ⟨v, hv, hvis⟩ := List.any_eq_true.mp hvis
  obtain ⟨hvid, hvis⟩ := Bool.and_eq_true_iff.mp hvis
  refine ⟨s₁, s₂, ctx, h₁, h₂, ⟨v, hv, beq_iff_eq.mp hvid, hvis⟩, by simpa using hdead, ?_⟩
  exact (frozen_snapshot_stable oneRow_loaded (Reaches.of_exec _ beginAlone_guarded h₁)
    (Reaches.of_exec _ (deleteLater_guarded s₁) h₂) hctx (of_decide_eq_true hopen)).2

/-- Session 0 has taken the id of a row it inserts when session 1 takes its snapshot, and
appends the row afterwards. -/
def insertAcrossBegin : List Step × List Step :=
  ([.startAuto 0, .tag 0, .setIsolation 1 .repeatableRead, .beginSnapshot 1, .beginActivate 1],
    [.autoAppend 0 2 "t" (Row.ofCells [("id", "2"), ("v", "20")])])

/-- A row of another session appears in a frozen snapshot after its `BEGIN`. -/
theorem row_appears_in_frozen_snapshot :
    oneRow.Loaded ∧ ∃ s₁ s₂ ctx vid, Reaches step anyStep oneRow s₁ ∧
      Reaches step anyStep s₁ s₂ ∧ (s₁.sessions 1).txn.isolationLevel = .repeatableRead ∧
      (s₁.sessions 1).phase = .inTxn ∧ (s₁.sessions 1).txn.frozenCtx = some ctx ∧
      ctx.selfTxnId ∈ (s₂.sessions 1).owned ∧ vid ∉ s₂.writtenBy ctx.selfTxnId ∧
      vid ∉ s₁.visibleVersions ctx ∧ vid ∈ s₂.visibleVersions ctx := by
  have hrun : (exec step oneRow insertAcrossBegin.1).any (fun s₁ =>
      decide ((s₁.sessions 1).txn.isolationLevel = .repeatableRead) &&
      (decide ((s₁.sessions 1).phase = .inTxn) &&
      (s₁.sessions 1).txn.frozenCtx.any fun ctx =>
        (exec step s₁ insertAcrossBegin.2).any fun s₂ =>
          decide (ctx.selfTxnId ∈ (s₂.sessions 1).owned) &&
          (decide ((1, ctx.selfTxnId) ∉ s₂.writes) &&
          ((s₁.store.all fun v => v.vid != 1) &&
          s₂.store.any fun v => v.vid == 1 && isVisibleForRead v.row ctx)))) := by
    decide
  obtain ⟨s₁, h₁, hrun⟩ := (Option.any_eq_true _ _).mp hrun
  obtain ⟨hlevel, hrun⟩ := Bool.and_eq_true_iff.mp hrun
  obtain ⟨hphase, hrun⟩ := Bool.and_eq_true_iff.mp hrun
  obtain ⟨ctx, hctx, hrun⟩ := (Option.any_eq_true _ _).mp hrun
  obtain ⟨s₂, h₂, hrun⟩ := (Option.any_eq_true _ _).mp hrun
  obtain ⟨hopen, hrun⟩ := Bool.and_eq_true_iff.mp hrun
  obtain ⟨hwritten, hrun⟩ := Bool.and_eq_true_iff.mp hrun
  have hwritten : (1, ctx.selfTxnId) ∉ s₂.writes := of_decide_eq_true hwritten
  obtain ⟨habsent, hpresent⟩ := Bool.and_eq_true_iff.mp hrun
  obtain ⟨v, hv, hvis⟩ := List.any_eq_true.mp hpresent
  obtain ⟨hvid, hvis⟩ := Bool.and_eq_true_iff.mp hvis
  refine ⟨oneRow_loaded, s₁, s₂, ctx, 1, Reaches.of_exec _ (execOk_anyStep step _ _) h₁,
    Reaches.of_exec _ (execOk_anyStep step _ _) h₂, of_decide_eq_true hlevel,
    of_decide_eq_true hphase, hctx, of_decide_eq_true hopen, hwritten, ?_,
    ⟨v, hv, beq_iff_eq.mp hvid, hvis⟩⟩
  rintro ⟨w, hw, hwvid, -⟩
  have := List.all_eq_true.mp habsent w hw
  simp [hwvid] at this

end RusqlEngine
