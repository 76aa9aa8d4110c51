import RusqlEngine.CommitHistory

/-!
# SERIALIZABLE validation

At `COMMIT` a transaction at SERIALIZABLE compares, for every key it has read, the
stored versions under its frozen snapshot and under a context of the present moment.
A version that the snapshot shows is stored to the end of the transaction (`Kept`), so
that the comparison finds it if someone else has ended it.
-/

namespace RusqlEngine

open Transition TxnManager

/-- The version `w` is still stored, up to its `_xmax`, and visible under the snapshot unless its
own transaction ended it. -/
def Kept (s : Db) (ctx : SnapshotCtx) (w : Version) : Prop :=
  ∃ v ∈ s.store, v.vid = w.vid ∧ v.table = w.table ∧
    (∀ col, col ≠ "_xmax" → v.row.find col = w.row.find col) ∧
    (v.row.xmin = ctx.selfTxnId ∨ committedAsOf ctx v.row.xmin) ∧
    (Seen ctx v.row.xmin v.row.xmax ∨ v.row.xmax = ctx.selfTxnId)

variable {s : Db} {ctx : SnapshotCtx} {w : Version}

theorem Kept.of_visible (h : s.Inv) (hw : w ∈ s.store) (hvis : isVisibleForRead w.row ctx) :
    Kept s ctx w := by
  have hseen := (isVisibleForRead_iff_seen h.session.nextId_max
    (h.store.fits w hw).stamped).mp hvis
  exact ⟨w, hw, rfl, rfl, fun _ _ => rfl, hseen.1, .inl hseen⟩

variable {s' : Db} {i : Nat}

theorem Kept.ended {j x : Nat} {u : Version} (h : s.Inv)
    (hctx : (s.sessions i).txn.frozenCtx = some ctx) (hapart : Apart s i ctx)
    (hx : x ∈ (s.sessions j).owned) (hu : u ∈ s.store)
    (hstore : s'.store = (s.endVersion x u.vid).store) (hk : Kept s ctx w) : Kept s' ctx w := by
  obtain ⟨v, hv, hvid, htable, hcells, hmin, hend⟩ := hk
  have hmax := h.session.nextId_max
  have hlt := (h.session.owned_lt j x hx).2
  by_cases hvu : v.vid = u.vid
  · obtain rfl := h.store.eq_of_vid hv hu hvu
    have hmem : { v with row := v.row.set "_xmax" (stdToString x) } ∈ s'.store := by
      rw [hstore]
      exact Db.mem_store_endVersion.mpr ⟨v, hv, (if_pos rfl).symm⟩
    refine ⟨_, hmem, hvid, htable, ?_, ?_, ?_⟩
    · intro col hcol
      simp only [Row.find_set_of_ne _ _ hcol]
      exact hcells col hcol
    · rw [Row.xmin_set_xmax]
      exact hmin
    · rw [Row.xmin_set_xmax, Row.xmax_set_xmax _ (by omega)]
      by_cases hself : x = ctx.selfTxnId
      · exact .inr hself
      · have hhidden := writer_hidden h.session hctx hapart hx hself
        exact .inl ⟨hmin, .inr ⟨hself, hhidden⟩⟩
  · refine ⟨v, ?_, hvid, htable, hcells, hmin, hend⟩
    rw [hstore]
    exact Db.mem_store_endVersion.mpr ⟨v, hv, (if_neg hvu).symm⟩

theorem Kept.undone {j : Nat} (h : s.Inv) (hapart : Apart s i ctx) (hji : j ≠ i)
    (hp : (s.sessions j).phase = .inTxn) (hself : (s.sessions j).txn.txnId ≠ ctx.selfTxnId)
    (hstore : s'.store = s.store.filterMap
      (Db.undoVersion (s.sessions j).txn.txnId (s.sessions j).txn.dirtyTables))
    (hk : Kept s ctx w) : Kept s' ctx w := by
  obtain ⟨v, hv, hvid, htable, hcells, hmin, hend⟩ := hk
  have hx : (s.sessions j).txn.txnId ∈ (s.sessions j).owned := by
    simp [Session.owned_of_inTxn hp]
  have hlt := (h.session.owned_lt j _ hx).2
  have hmax := h.session.nextId_max
  have hhidden := hapart j hji _ hx
  cases hu : Db.undoVersion (s.sessions j).txn.txnId (s.sessions j).txn.dirtyTables v with
  | none =>
    have hxmin : v.row.xmin = (s.sessions j).txn.txnId :=
      Db.xmin_of_undoVersion_none hu (by omega)
    rw [hxmin] at hmin
    simp [hself, hhidden] at hmin
  | some v' =>
    have hmem : v' ∈ s'.store := by
      rw [hstore]
      exact List.mem_filterMap.mpr ⟨v, hv, hu⟩
    rcases Db.undoVersion_eq_some hu with ⟨rfl, -⟩ | ⟨-, -, -, rfl⟩
    · exact ⟨v', hmem, hvid, htable, hcells, hmin, hend⟩
    · refine ⟨_, hmem, hvid, htable, ?_, ?_, .inl ⟨?_, .inl ?_⟩⟩
      · intro col hcol
        simp only [Row.find_set_of_ne _ _ hcol]
        exact hcells col hcol
      · rw [Row.xmin_set_xmax]
        exact hmin
      · rw [Row.xmin_set_xmax]
        exact hmin
      · exact Row.xmax_revived _

theorem Kept.vacuum {table : String} (h : s.Inv) (hsafe : VacuumSafe s table)
    (hctx : (s.sessions i).txn.frozenCtx = some ctx) (hk : Kept s ctx w) :
    Kept (s.removeWhere (s.vacuumed table)) ctx w := by
  obtain ⟨v, hv, hvid, htable, hcells, hmin, hend⟩ := hk
  refine ⟨v, List.mem_filter.mpr ⟨hv, ?_⟩, hvid, htable, hcells, hmin, hend⟩
  by_contra hvac
  simp only [Bool.not_eq_true, Bool.not_eq_false'] at hvac
  rcases hend with hseen | hself
  · have hunseen := hsafe.not_seen h hv hvac hctx
    rw [Bool.eq_false_iff, ne_eq,
      isVisibleForRead_iff_seen h.session.nextId_max (h.store.fits v hv).stamped] at hunseen
    exact hunseen hseen
  · obtain ⟨-, -, hlt⟩ := (vacuumed_iff h hv).mp hvac
    obtain ⟨hactive, hid, -, -⟩ := (h.session.ok i).frozen ctx hctx
    have hsettled := (Settled.of_xmax h hv hlt).2 i
    rcases (h.session.ok i).active_iff.mp hactive with hp | hp
    · simp [Session.owned_of_entering hp, hp, hself, hid] at hsettled
    · simp [Session.owned_of_inTxn hp, hp, hself, hid] at hsettled

theorem Kept.step {a : Step} (h : s.Inv) (hg : Guarded s a) (hs : RusqlEngine.step s a = some s')
    (hctx : (s.sessions i).txn.frozenCtx = some ctx) (hapart : Apart s i ctx)
    (hopen : ctx.selfTxnId ∈ (s'.sessions i).owned) (hk : Kept s ctx w) : Kept s' ctx w := by
  cases step_storeMove h.session hs with
  | keep hstore hremoved hvid hwrites =>
    obtain ⟨v, hv, hrest⟩ := hk
    exact ⟨v, hstore ▸ hv, hrest⟩
  | append j x table row hx hwrite hcommit hstore hremoved hvid hwrites =>
    obtain ⟨v, hv, hrest⟩ := hk
    exact ⟨v, hstore ▸ List.mem_append_left _ hv, hrest⟩
  | ended j x u hx hu hlive hwrite hcommit hstore hremoved hvid hwrites =>
    exact hk.ended h hctx hapart hx hu hstore
  | undone j hp hend hcommitted hstore hremoved hvid hwrites =>
    obtain ⟨hji, hself⟩ := other_undone h hs hctx hopen hp hend
    exact hk.undone h hapart hji hp hself hstore
  | vacuum table ha hrem =>
    subst ha hrem
    exact hk.vacuum h hg hctx
  | erase j vid ha hrem =>
    subst ha
    have := hg i
    simp [hctx] at this

/-- All the invariants of a guarded run. -/
structure RunInv (s : Db) : Prop where
  inv : s.Inv
  apart : AllApart s
  commit : CommitInv s
  removed : RemovedInv s

theorem Db.Loaded.runInv {s : Db} (h : s.Loaded) : RunInv s where
  inv := h.inv
  apart := by
    intro j ctx hctx
    simp [h.sessions j, Session.fresh, fresh] at hctx
  commit := by
    refine ⟨?_, ?_, ?_⟩
    · intro x hx
      rw [h.committed_eq] at hx
      exact Finset.mem_range.mp hx
    · intro x _ i hi
      simp [h.sessions i, Session.fresh, Session.owned] at hi
    · intro v hv x hstamp
      have hst := h.stamped v hv
      refine .inr (.inl ?_)
      rw [h.committed_eq, Finset.mem_range]
      rcases hstamp with rfl | rfl
      · exact parseTxnId_lt h.nextId_pos h.nextId_max hst.xminCell
      · exact parseTxnId_lt h.nextId_pos h.nextId_max hst.xmaxCell
  removed := by
    intro v hv
    simp [h.removed_empty] at hv

theorem RunInv.step {a : Step} (h : RunInv s) (hg : Guarded s a)
    (hs : RusqlEngine.step s a = some s') : RunInv s' := by
  obtain ⟨i, hm⟩ := step_sessionMove h.inv.session hs
  exact ⟨h.inv.step hs, h.apart.move h.inv.session hg hm, h.commit.step h.inv hs,
    h.removed.step h.inv hs⟩

theorem RunInv.of_reaches (h : RunInv s) (hr : Reaches RusqlEngine.step Guarded s s') : RunInv s' :=
  hr.invariant (fun _ _ _ hinv hg hs => hinv.step hg hs) h

/-- The ids in use and the committed ids of `t`, seen from an earlier state `s`. -/
structure IdsSince (s t : Db) : Prop where
  inv : t.Inv
  nextId_le : s.nextId ≤ t.nextId
  mono : s.committed ⊆ t.committed
  committed : ∀ x ∈ t.committed, x ∈ s.committed ∨ s.nextId ≤ x ∨
    ∃ j, x ∈ (s.sessions j).owned
  owned : ∀ j, ∀ x ∈ (t.sessions j).owned, s.nextId ≤ x ∨ ∃ k, x ∈ (s.sessions k).owned

theorem idsSince_of_reaches (h : s.Inv) {ok : Db → Step → Prop} (hr : Reaches step ok s s') :
    IdsSince s s' := by
  refine hr.invariant (P := fun t => IdsSince s t) ?_
    ⟨h, le_rfl, Finset.Subset.refl _, fun _ hx => .inl hx, fun j _ hx => .inr ⟨j, hx⟩⟩
  intro t a t' ht _ hs
  have hmove := step_commitMove ht.inv.session hs
  obtain ⟨i, hm⟩ := step_sessionMove ht.inv.session hs
  refine ⟨ht.inv.step hs, le_trans ht.nextId_le hm.nextId_le, ht.mono.trans hmove.mono, ?_, ?_⟩
  · intro x hx
    rcases hmove.source x hx with hx | ⟨⟨j, hj⟩, -⟩
    · exact ht.committed x hx
    · exact .inr (ht.owned j x hj)
  · intro j x hx
    by_cases hji : j = i
    · subst hji
      rcases hm.owned x hx with hx | ⟨hle, -⟩
      · exact ht.owned j x hx
      · exact .inl (le_trans ht.nextId_le hle)
    · rw [hm.others j hji] at hx
      exact ht.owned j x hx

theorem Kept.of_reaches (h : RunInv s) (hctx : (s.sessions i).txn.frozenCtx = some ctx)
    (hr : Reaches RusqlEngine.step Guarded s s') (hopen : ctx.selfTxnId ∈ (s'.sessions i).owned)
    (hk : Kept s ctx w) :
    Kept s' ctx w ∧ (s.sessions i).txn.readSet ⊆ (s'.sessions i).txn.readSet := by
  have hself : ctx.selfTxnId < s.nextId := by
    obtain ⟨-, hid, hcut, hle⟩ := (h.inv.session.ok i).frozen ctx hctx
    omega
  induction hr with
  | refl => exact ⟨hk, List.Subset.refl _⟩
  | @tail t t' hr hmove ih =>
    obtain ⟨a, hg, hs⟩ := hmove
    have ht : RunInv t := h.of_reaches hr
    have hlt : ctx.selfTxnId < t.nextId := lt_of_lt_of_le hself (h.inv.nextId_le_of_reaches hr)
    obtain ⟨hopen', -, hreads⟩ := owned_before ht.inv.session hs hlt hopen
    obtain ⟨hk', hsub⟩ := ih hopen'
    have hctx' := (visibleVersions_reaches h.inv h.apart hctx hr hopen').1
    exact ⟨hk'.step ht.inv hg hs hctx' (ht.apart i ctx hctx') hopen, List.Subset.trans hsub hreads⟩

/-- A run in which session `i` begins a transaction at SERIALIZABLE in state `sb`, with the id
`sb.nextId`, and still has it open in state `s`. -/
structure SerializableRun (s₀ sb s : Db) (i : Nat) : Prop where
  loaded : s₀.Loaded
  before : Reaches step Guarded s₀ sb
  guard : Guarded sb (.beginSnapshot i)
  level : (sb.sessions i).txn.isolationLevel = .serializable
  began : ∃ sb', step sb (.beginSnapshot i) = some sb' ∧ Reaches step Guarded sb' s
  opened : sb.nextId ∈ (s.sessions i).owned
  levelNow : (s.sessions i).txn.isolationLevel = .serializable

/-- In that run the transaction has read the version `vid` and recorded its key. -/
def HasRead (sb s : Db) (i vid : Nat) (pkCol : String) : Prop :=
  ∃ sb' s₁ s₁', step sb (.beginSnapshot i) = some sb' ∧ Reaches step Guarded sb' s₁ ∧
    (s₁.sessions i).txn.isolationLevel = .serializable ∧
    step s₁ (.recordRead i vid pkCol) = some s₁' ∧ Reaches step Guarded s₁' s

/-- The version was ended under the id `x`; it may have been removed since. -/
def EndedBy (s : Db) (vid x : Nat) : Prop :=
  ∃ v ∈ s.store ++ s.removed, v.vid = vid ∧ v.row.xmax = x

def CommittedBetween (sb s : Db) (x : Nat) : Prop :=
  x ∈ s.committed ∧ x ∉ sb.committed

/-- `validate_serializable` at the `COMMIT` of session `i`. -/
def Db.validate (s : Db) (i : Nat) : Except String Unit :=
  (s.sessions i).txn.validateSerializable s.tableRows s.activeTxnIds

variable {sb : Db}

theorem frozen_of_begin {sb' : Db} (hlevel : (sb.sessions i).txn.isolationLevel = .serializable)
    (hs : step sb (.beginSnapshot i) = some sb') :
    (sb'.sessions i).txn.frozenCtx = some ⟨sb.nextId, sb.nextId + 1, sb.activeTxnIds⟩ := by
  simp only [step, Option.ite_none_right_eq_some] at hs
  obtain ⟨-, hs⟩ := hs
  split at hs
  · rename_i txn n' hb
    cases hs
    simp only [Db.setSession, Function.update_self]
    unfold beginWithSnapshot at hb
    split at hb
    · cases hb
    · cases hb
      simp [hlevel]
  · cases hs

variable {s₀ : Db}

namespace SerializableRun

theorem runInv (h : SerializableRun s₀ sb s i) : RunInv sb ∧ RunInv s := by
  have hb := h.loaded.runInv.of_reaches h.before
  obtain ⟨sb', hbegin, hr⟩ := h.began
  exact ⟨hb, (hb.step h.guard hbegin).of_reaches hr⟩

theorem frozen (h : SerializableRun s₀ sb s i) :
    (s.sessions i).txn.frozenCtx = some ⟨sb.nextId, sb.nextId + 1, sb.activeTxnIds⟩ := by
  obtain ⟨sb', hbegin, hr⟩ := h.began
  have hb' := h.runInv.1.step h.guard hbegin
  exact (visibleVersions_reaches hb'.inv hb'.apart (frozen_of_begin h.level hbegin) hr
    h.opened).1

theorem idsSince (h : SerializableRun s₀ sb s i) : IdsSince sb s := by
  obtain ⟨sb', hbegin, hr⟩ := h.began
  exact idsSince_of_reaches h.runInv.1.inv
    ((Reaches.single _ h.guard hbegin).trans hr)

theorem hidden {x : Nat} (h : SerializableRun s₀ sb s i) (hx : CommittedBetween sb s x)
    (hself : x ≠ sb.nextId) :
    committedAsOf ⟨sb.nextId, sb.nextId + 1, sb.activeTxnIds⟩ x = false := by
  have h0 : x ≠ 0 := by
    rintro rfl
    have hzero : 0 ∈ sb.committed := by
      apply (idsSince_of_reaches h.loaded.inv h.before).mono
      rw [h.loaded.committed_eq]
      exact Finset.mem_range.mpr h.loaded.nextId_pos
    exact hx.2 hzero
  rw [committedAsOf_eq_false_iff]
  refine ⟨h0, ?_⟩
  rcases h.idsSince.committed x hx.1 with hc | hle | ⟨j, hj⟩
  · exact absurd hc hx.2
  · exact .inl (by simp only; omega)
  · exact .inr (h.guard j x hj)

/-- A writer that the snapshot does not count and that is not open now has committed
after the `BEGIN`. -/
theorem committedBetween {x : Nat} (h : SerializableRun s₀ sb s i) {v : Version} (hv : v ∈ s.store)
    (hstamp : v.row.xmin = x ∨ v.row.xmax = x)
    (hfrozen : committedAsOf ⟨sb.nextId, sb.nextId + 1, sb.activeTxnIds⟩ x = false)
    (hnow : x ∉ s.activeTxnIds) : CommittedBetween sb s x := by
  obtain ⟨h0, hout⟩ := committedAsOf_eq_false_iff.mp hfrozen
  obtain ⟨hb, hs⟩ := h.runInv
  refine ⟨?_, fun hc => ?_⟩
  · rcases hs.commit.stamp v hv x hstamp with hx | hx | hx
    · exact absurd hx h0
    · exact hx
    · exact absurd hx hnow
  · have hlt := hb.commit.committed_lt x hc
    rcases hout with hle | hin
    · simp only at hle
      omega
    · obtain ⟨j, hp, hj⟩ := (hb.inv.session.active_iff x).mp hin
      have := hb.commit.committed_auto x hc j (by simp [Session.owned_of_inTxn hp, hj])
      simp [hp] at this

end SerializableRun

theorem owned_before_reaches {t : Nat} {ok : Db → Step → Prop} (h : s.Inv)
    (hr : Reaches step ok s s') (hlt : t < s.nextId) (ho : t ∈ (s'.sessions i).owned) :
    t ∈ (s.sessions i).owned := by
  induction hr with
  | refl => exact ho
  | @tail u u' hr hmove ih =>
    obtain ⟨a, -, hs⟩ := hmove
    have hlt' := lt_of_lt_of_le hlt (h.nextId_le_of_reaches hr)
    exact ih (owned_before (h.of_reaches hr).session hs hlt' ho).1

variable {pkCol : String}

theorem recordRead_cases {vid : Nat} (hs : step s (.recordRead i vid pkCol) = some s') :
    ∃ v key, v ∈ s.store ∧ v.vid = vid ∧ isVisibleForRead v.row (s.currentReadCtx i) ∧
      v.row.find pkCol = some key ∧ (s.sessions i).phase = .inTxn ∧ pkCol ≠ "_xmax" ∧
      '\x00' ∉ v.table.toList ∧ '\x00' ∉ pkCol.toList ∧
      (s'.sessions i).txn.readSet = ((s.sessions i).txn.recordRead v.table pkCol key).readSet := by
  simp only [step, Option.ite_none_right_eq_some] at hs
  obtain ⟨⟨hp, hnul, hcol⟩, hs⟩ := hs
  split at hs
  · rename_i v hfind
    have hmem := List.mem_of_find?_eq_some hfind
    have hfound := List.find?_some hfind
    obtain ⟨hvid, hvis⟩ := Bool.and_eq_true_iff.mp hfound
    split at hs
    · cases hs
    · rename_i htable
      split at hs
      · rename_i key hkey
        cases hs
        refine ⟨v, key, hmem, beq_iff_eq.mp hvid, hvis, hkey, hp, hcol, htable, hnul, ?_⟩
        simp [Db.setSession]
      · cases hs
  · cases hs

theorem currentReadCtx_of_frozen (h : SessionInv s)
    (hlevel : (s.sessions i).txn.isolationLevel = .serializable)
    (hctx : (s.sessions i).txn.frozenCtx = some ctx) : s.currentReadCtx i = ctx := by
  have hactive := ((h.ok i).frozen ctx hctx).1
  simp [Db.currentReadCtx, hlevel, hactive, hctx]

/-- What the transaction read is kept, and its key is in the read set. -/
theorem HasRead.kept {vid : Nat} (h : SerializableRun s₀ sb s i)
    (hread : HasRead sb s i vid pkCol) :
    ∃ v key, v.vid = vid ∧ v.row.find pkCol = some key ∧ pkCol ≠ "_xmax" ∧
      Kept s ⟨sb.nextId, sb.nextId + 1, sb.activeTxnIds⟩ v ∧
      decodeRead (encodeRead v.table pkCol key) = (v.table, pkCol, key) ∧
      encodeRead v.table pkCol key ∈ (s.sessions i).txn.readSet := by
  obtain ⟨sb', s₁, s₁', hbegin, hr₁, hlevel, hs₁, hr₂⟩ := hread
  have hb' := h.runInv.1.step h.guard hbegin
  have h₁ := hb'.of_reaches hr₁
  have hguard : Guarded s₁ (.recordRead i vid pkCol) := trivial
  have h₁' := h₁.step hguard hs₁
  obtain ⟨v, key, hmem, hvid, hvis, hkey, hp, hcol, htable, hnul, hset⟩ := recordRead_cases hs₁
  have hctx₀ := frozen_of_begin h.level hbegin
  have hself : sb.nextId < sb'.nextId := by
    obtain ⟨-, -, hcut, hle⟩ := (hb'.inv.session.ok i).frozen _ hctx₀
    simp only at hcut hle
    omega
  have hself₁ := lt_of_lt_of_le hself (hb'.inv.nextId_le_of_reaches hr₁)
  have hopen₁' : sb.nextId ∈ (s₁'.sessions i).owned := by
    refine owned_before_reaches h₁'.inv hr₂ (lt_of_lt_of_le hself₁ ?_) h.opened
    exact h₁.inv.nextId_le_of_reaches
      (Reaches.single _ hguard hs₁)
  obtain ⟨hopen₁, hfrozen₁, -⟩ := owned_before h₁.inv.session hs₁ hself₁ hopen₁'
  have hctx₁ := (visibleVersions_reaches hb'.inv hb'.apart hctx₀ hr₁ hopen₁).1
  rw [currentReadCtx_of_frozen h₁.inv.session hlevel hctx₁] at hvis
  have hk₁' := (Kept.of_visible h₁.inv hmem hvis).step h₁.inv hguard hs₁ hctx₁
    (h₁.apart i _ hctx₁) hopen₁'
  obtain ⟨hk, hsub⟩ := Kept.of_reaches h₁' (hfrozen₁.trans hctx₁) hr₂ h.opened hk₁'
  refine ⟨v, key, hvid, hkey, hcol, hk, decodeRead_encodeRead key htable hnul, ?_⟩
  apply hsub
  have hactive : (s₁.sessions i).txn.active :=
    (h₁.inv.session.ok i).active_iff.mpr (.inr hp)
  rw [hset]
  simp [recordRead, hactive, hlevel]

theorem validate_error_iff (hlevel : (s.sessions i).txn.isolationLevel = .serializable)
    (hctx : (s.sessions i).txn.frozenCtx = some ctx) :
    (∃ e, s.validate i = .error e) ↔ ∃ encoded ∈ (s.sessions i).txn.readSet,
      ∃ v ∈ s.store, v.table = (decodeRead encoded).1 ∧
        v.row.find (decodeRead encoded).2.1 = some (decodeRead encoded).2.2 ∧
        isVisibleForRead v.row ctx ≠
          isVisibleForRead v.row ⟨(s.sessions i).txn.txnId, uint64Max, s.activeTxnIds⟩ := by
  have hconf : ∀ encoded, readConflicts ctx
      ⟨(s.sessions i).txn.txnId, uint64Max, s.activeTxnIds⟩
      (s.tableRows (decodeRead encoded).1) (decodeRead encoded).2.1
      (decodeRead encoded).2.2 ↔
      ∃ v ∈ s.store, v.table = (decodeRead encoded).1 ∧
        v.row.find (decodeRead encoded).2.1 = some (decodeRead encoded).2.2 ∧
        isVisibleForRead v.row ctx ≠
          isVisibleForRead v.row ⟨(s.sessions i).txn.txnId, uint64Max, s.activeTxnIds⟩ := by
    intro encoded
    simp only [readConflicts, Db.tableRows, visibleUnder, List.any_map,
      List.any_eq_true, List.mem_filter, Function.comp_apply, Bool.and_eq_true,
      decide_eq_true_eq, bne_iff_ne, and_assoc]
  simp only [Db.validate, validateSerializable, hlevel, ne_eq, not_true_eq_false, if_false, hctx]
  split
  · rename_i encoded hfind
    simp only [Except.error.injEq, exists_eq', true_iff]
    have hfound := List.find?_some hfind
    exact ⟨encoded, List.mem_of_find?_eq_some hfind, (hconf encoded).mp hfound⟩
  · rename_i hfind
    simp only [reduceCtorEq, exists_false, false_iff]
    rintro ⟨encoded, hmem, hv⟩
    exact List.find?_eq_none.mp hfind encoded hmem ((hconf encoded).mpr hv)

theorem seen_congr {c₁ c₂ : SnapshotCtx} {xmin xmax : Nat} (hself : c₁.selfTxnId = c₂.selfTxnId)
    (hmin : xmin ≠ c₂.selfTxnId → committedAsOf c₁ xmin = committedAsOf c₂ xmin)
    (hmax : xmax ≠ 0 → xmax ≠ c₂.selfTxnId → committedAsOf c₁ xmax = committedAsOf c₂ xmax) :
    Seen c₁ xmin xmax ↔ Seen c₂ xmin xmax := by
  unfold Seen
  rw [hself]
  refine and_congr ?_ ?_
  · by_cases h : xmin = c₂.selfTxnId
    · simp [h]
    · simp [h, hmin h]
  · by_cases h0 : xmax = 0
    · simp [h0]
    · by_cases h : xmax = c₂.selfTxnId
      · simp [h]
      · simp [h, h0, hmax h0 h]

namespace SerializableRun

theorem txnId_eq (h : SerializableRun s₀ sb s i) : (s.sessions i).txn.txnId = sb.nextId :=
  ((h.runInv.2.inv.session.ok i).frozen _ h.frozen).2.1.symm

theorem error_of_overwritten {vid x : Nat} (h : SerializableRun s₀ sb s i)
    (hread : HasRead sb s i vid pkCol) (hended : EndedBy s vid x) (hself : x ≠ sb.nextId)
    (hx : CommittedBetween sb s x) : ∃ e, s.validate i = .error e := by
  obtain ⟨-, hs⟩ := h.runInv
  have hmax := hs.inv.session.nextId_max
  obtain ⟨w, key, hvid, hkey, hcol, ⟨v, hv, hvw, htable, hcells, hmin, hend⟩, hdecode, hset⟩ :=
    HasRead.kept h hread
  have hst := (hs.inv.store.fits v hv).stamped
  have hxmax : v.row.xmax = x := by
    obtain ⟨u, hu, huv, hux⟩ := hended
    rcases List.mem_append.mp hu with hu | hu
    · obtain rfl := hs.inv.store.eq_of_vid hu hv (by rw [huv, hvw, hvid])
      exact hux
    · exact absurd (by rw [hvw, hvid, huv]) ((hs.removed u hu).2 v hv)
  have hseen : Seen ⟨sb.nextId, sb.nextId + 1, sb.activeTxnIds⟩ v.row.xmin v.row.xmax := by
    rcases hend with hseen | hown
    · exact hseen
    · exact absurd (hxmax.symm.trans hown) hself
  have h0 : v.row.xmax ≠ 0 := by
    rw [hxmax]
    exact (committedAsOf_eq_false_iff.mp (h.hidden hx hself)).1
  have hnow : x ∉ s.activeTxnIds := by
    intro hactive
    obtain ⟨j, hp, hj⟩ := (hs.inv.session.active_iff x).mp hactive
    have := hs.commit.committed_auto x hx.1 j (by simp [Session.owned_of_inTxn hp, hj])
    simp [hp] at this
  rw [validate_error_iff h.levelNow h.frozen]
  refine ⟨_, hset, v, hv, ?_, ?_, ?_⟩
  · rw [hdecode, htable]
  · rw [hdecode, hcells pkCol hcol]
    exact hkey
  · rw [(isVisibleForRead_iff_seen hmax hst).mpr hseen,
      not_seen_of_committed hmax hst h0 (committedAsOf_of_lt ?_ (hxmax ▸ hnow))]
    · exact Bool.noConfusion
    · rw [hxmax]
      exact lt_of_lt_of_le (hs.commit.committed_lt x hx.1) hmax

theorem overwritten_of_error (h : SerializableRun s₀ sb s i) (herr : ∃ e, s.validate i = .error e) :
    ∃ encoded ∈ (s.sessions i).txn.readSet, ∃ v ∈ s.store, ∃ x, v.table = (decodeRead encoded).1 ∧
      v.row.find (decodeRead encoded).2.1 = some (decodeRead encoded).2.2 ∧
      (v.row.xmin = x ∨ v.row.xmax = x) ∧ x ≠ sb.nextId ∧ CommittedBetween sb s x := by
  obtain ⟨-, hs⟩ := h.runInv
  have hmax := hs.inv.session.nextId_max
  obtain ⟨encoded, hset, v, hv, htable, hkey, hdiff⟩ :=
    (validate_error_iff h.levelNow h.frozen).mp herr
  have hst := (hs.inv.store.fits v hv).stamped
  have hagree : ∀ x, x ≠ sb.nextId → v.row.xmin = x ∨ v.row.xmax = x → ¬ CommittedBetween sb s x →
      committedAsOf ⟨sb.nextId, sb.nextId + 1, sb.activeTxnIds⟩ x =
        committedAsOf ⟨sb.nextId, uint64Max, s.activeTxnIds⟩ x := by
    intro x hself hstamp hnot
    have hlt : x < s.nextId := by
      rcases hstamp with rfl | rfl
      · exact parseTxnId_lt hs.inv.session.nextId_pos hmax hst.xminCell
      · exact parseTxnId_lt hs.inv.session.nextId_pos hmax hst.xmaxCell
    by_cases hactive : x ∈ s.activeTxnIds
    · obtain ⟨j, hp, hj⟩ := (hs.inv.session.active_iff x).mp hactive
      have ho : x ∈ (s.sessions j).owned := by
        simp [Session.owned_of_inTxn hp, hj]
      have hhidden := writer_hidden hs.inv.session h.frozen (hs.apart i _ h.frozen) ho hself
      have h0 := (hs.inv.session.owned_lt j x ho).1.ne'
      rw [hhidden, Eq.comm, committedAsOf_eq_false_iff]
      exact ⟨h0, .inr hactive⟩
    · have hnow : committedAsOf ⟨sb.nextId, uint64Max, s.activeTxnIds⟩ x :=
        committedAsOf_of_lt (lt_of_lt_of_le hlt hmax) hactive
      rw [hnow]
      by_contra hc
      exact hnot (h.committedBetween hv hstamp (by simpa using hc) hactive)
  by_contra hnone
  push Not at hnone
  have hnot : ∀ x, x ≠ sb.nextId → v.row.xmin = x ∨ v.row.xmax = x →
      ¬ CommittedBetween sb s x := fun x hself hstamp =>
    hnone encoded hset v hv x htable hkey hstamp hself
  rw [h.txnId_eq] at hdiff
  refine hdiff (Bool.eq_iff_iff.mpr ?_)
  rw [isVisibleForRead_iff_seen hmax hst, isVisibleForRead_iff_seen hmax hst]
  refine seen_congr rfl (fun hne => ?_) (fun _ hne => ?_)
  · exact hagree _ hne (.inl rfl) (hnot _ hne (.inl rfl))
  · exact hagree _ hne (.inr rfl) (hnot _ hne (.inr rfl))

end SerializableRun

/-- In a run of guarded steps SERIALIZABLE validation fails when a version the transaction
read was ended by another one that committed after its `BEGIN`, and only because of such
writers: never because of its own writes, of writes committed before its `BEGIN`, or of
uncommitted ones. -/
theorem serializable_validation_exact {s₀ sb s : Db} {i : Nat} (h : SerializableRun s₀ sb s i) :
    (∀ vid pkCol x, HasRead sb s i vid pkCol → EndedBy s vid x → x ≠ sb.nextId →
      CommittedBetween sb s x → ∃ e, s.validate i = .error e) ∧
    ((∃ e, s.validate i = .error e) →
      ∃ encoded ∈ (s.sessions i).txn.readSet, ∃ v ∈ s.store, ∃ x,
        v.table = (TxnManager.decodeRead encoded).1 ∧
        v.row.find (TxnManager.decodeRead encoded).2.1 =
          some (TxnManager.decodeRead encoded).2.2 ∧
        (v.row.xmin = x ∨ v.row.xmax = x) ∧ x ≠ sb.nextId ∧ CommittedBetween sb s x) :=
  ⟨fun _ _ _ hread hended hself hx => h.error_of_overwritten hread hended hself hx,
    fun herr => h.overwritten_of_error herr⟩

theorem execOk_guarded_of_trivial {s : Db} : ∀ {as : List Step},
    (∀ a ∈ as, ∀ t, Guarded t a) → execOk step Guarded s as
  | [], _ => trivial
  | a :: _, h => ⟨h a List.mem_cons_self s, fun _ _ =>
    execOk_guarded_of_trivial fun b hb => h b (.tail _ hb)⟩

def serializableIdle : Db :=
  oneRow.setSession 1
    { Session.fresh with txn := { fresh with isolationLevel := .serializable } }

theorem serializableIdle_guarded : Guarded serializableIdle (.beginSnapshot 1) := by
  refine allListed_of_idle fun j => ?_
  by_cases hj : j = 1
  · subst hj
    rfl
  · simp [serializableIdle, Db.setSession, hj, oneRow, Db.load, Session.fresh]

/-- An autocommit `DELETE` of session 0, after session 1 has read the row. -/
def deletedByAuto : List Step :=
  [.startAuto 0, .tag 0, .autoEnd 0 3 0, .finishAuto 0]

theorem deletedByAuto_guarded (t : Db) : execOk step Guarded t deletedByAuto := by
  refine execOk_guarded_of_trivial fun a ha t' => ?_
  simp only [deletedByAuto, List.mem_cons, List.not_mem_nil, or_false] at ha
  rcases ha with rfl | rfl | rfl | rfl <;> trivial

/-- Session 1 reads the row, the row is deleted, and the `COMMIT` of session 1 fails. -/
theorem serializable_validation_exact_deletedByAuto :
    ∃ sb' s₁ s₁' s, step serializableIdle (.beginSnapshot 1) = some sb' ∧
      step sb' (.beginActivate 1) = some s₁ ∧ step s₁ (.recordRead 1 0 "id") = some s₁' ∧
      exec step s₁' deletedByAuto = some s ∧ ∃ e, s.validate 1 = .error e := by
  have hrun : (step serializableIdle (.beginSnapshot 1)).any (fun sb' =>
      (step sb' (.beginActivate 1)).any fun s₁ =>
        decide ((s₁.sessions 1).txn.isolationLevel = .serializable) &&
        (step s₁ (.recordRead 1 0 "id")).any fun s₁' =>
          (exec step s₁' deletedByAuto).any fun s =>
            decide (2 ∈ (s.sessions 1).owned) &&
            (decide ((s.sessions 1).txn.isolationLevel = .serializable) &&
            ((s.store.any fun v => v.vid == 0 && v.row.xmax == 3) &&
            decide (3 ∈ s.committed)))) := by
    decide
  obtain ⟨sb', hb, hrun⟩ := (Option.any_eq_true _ _).mp hrun
  obtain ⟨s₁, h₁, hrun⟩ := (Option.any_eq_true _ _).mp hrun
  obtain ⟨hl₁, hrun⟩ := Bool.and_eq_true_iff.mp hrun
  obtain ⟨s₁', h₁', hrun⟩ := (Option.any_eq_true _ _).mp hrun
  obtain ⟨s, hs, hrun⟩ := (Option.any_eq_true _ _).mp hrun
  obtain ⟨hopen, hrun⟩ := Bool.and_eq_true_iff.mp hrun
  obtain ⟨hlevel, hrun⟩ := Bool.and_eq_true_iff.mp hrun
  obtain ⟨hend, hcomm⟩ := Bool.and_eq_true_iff.mp hrun
  obtain ⟨v, hv, hend⟩ := List.any_eq_true.mp hend
  obtain ⟨hvid, hxmax⟩ := Bool.and_eq_true_iff.mp hend
  have hguard₀ : Guarded oneRow (.setIsolation 1 .serializable) := trivial
  have hguard₁ : Guarded sb' (.beginActivate 1) := trivial
  have hguard₂ : Guarded s₁ (.recordRead 1 0 "id") := trivial
  have hr₁ : Reaches step Guarded sb' s₁ := Reaches.single _ hguard₁ h₁
  have hr₂ : Reaches step Guarded s₁' s := Reaches.of_exec _ (deletedByAuto_guarded s₁') hs
  have hrun : SerializableRun oneRow serializableIdle s 1 :=
    { loaded := oneRow_loaded
      before := Reaches.single _ hguard₀ rfl
      guard := serializableIdle_guarded
      level := rfl
      began := ⟨sb', hb, (hr₁.trans (Reaches.single _ hguard₂ h₁')).trans hr₂⟩
      opened := of_decide_eq_true hopen
      levelNow := of_decide_eq_true hlevel }
  refine ⟨sb', s₁, s₁', s, hb, h₁, h₁', hs, (serializable_validation_exact hrun).1 0 "id" 3
    ⟨sb', s₁, s₁', hb, hr₁, of_decide_eq_true hl₁, h₁', hr₂⟩
    ⟨v, List.mem_append_left _ hv, beq_iff_eq.mp hvid, beq_iff_eq.mp hxmax⟩ (by decide)
    ⟨of_decide_eq_true hcomm, by decide⟩⟩

/-- Session 0 opens transaction 2; session 1 begins transaction 3 at SERIALIZABLE and reads
the row; session 0 deletes it and commits; a `VACUUM` follows. -/
def vacuumBetween : List Step × List Step :=
  ([.beginSnapshot 0, .beginActivate 0, .setIsolation 1 .serializable],
    [.beginSnapshot 1, .beginActivate 1, .recordRead 1 0 "id", .endVersion 0 0 "1", .commit 0,
      .vacuum "t"])

/-- The deleted row is gone from the table, and validation misses the conflict. -/
theorem serializable_validation_misses_vacuumed_read :
    oneRow.Loaded ∧ ∃ sb s, exec step oneRow vacuumBetween.1 = some sb ∧
      exec step sb vacuumBetween.2 = some s ∧ sb.nextId ∈ (s.sessions 1).owned ∧
      (s.sessions 1).txn.isolationLevel = .serializable ∧ EndedBy s 0 2 ∧ 2 ≠ sb.nextId ∧
      CommittedBetween sb s 2 ∧
      TxnManager.encodeRead "t" "id" "1" ∈ (s.sessions 1).txn.readSet ∧
      s.validate 1 = .ok () := by
  have hrun : (exec step oneRow vacuumBetween.1).any (fun sb =>
      (exec step sb vacuumBetween.2).any fun s =>
        decide (sb.nextId ∈ (s.sessions 1).owned) &&
        (decide ((s.sessions 1).txn.isolationLevel = .serializable) &&
        (((s.store ++ s.removed).any fun v => v.vid == 0 && v.row.xmax == 2) &&
        (decide (2 ≠ sb.nextId) && (decide (2 ∈ s.committed ∧ 2 ∉ sb.committed) &&
        (decide (TxnManager.encodeRead "t" "id" "1" ∈ (s.sessions 1).txn.readSet) &&
        match s.validate 1 with
        | .ok () => true
        | .error _ => false)))))) := by
    decide
  obtain ⟨sb, hb, hrun⟩ := (Option.any_eq_true _ _).mp hrun
  obtain ⟨s, hs, hrun⟩ := (Option.any_eq_true _ _).mp hrun
  obtain ⟨hopen, hrun⟩ := Bool.and_eq_true_iff.mp hrun
  obtain ⟨hlevel, hrun⟩ := Bool.and_eq_true_iff.mp hrun
  obtain ⟨hend, hrun⟩ := Bool.and_eq_true_iff.mp hrun
  obtain ⟨hself, hrun⟩ := Bool.and_eq_true_iff.mp hrun
  obtain ⟨hcomm, hrun⟩ := Bool.and_eq_true_iff.mp hrun
  have hcomm : 2 ∈ s.committed ∧ 2 ∉ sb.committed := of_decide_eq_true hcomm
  obtain ⟨hread, hvalid⟩ := Bool.and_eq_true_iff.mp hrun
  obtain ⟨v, hv, hend⟩ := List.any_eq_true.mp hend
  obtain ⟨hvid, hxmax⟩ := Bool.and_eq_true_iff.mp hend
  refine ⟨oneRow_loaded, sb, s, hb, hs, of_decide_eq_true hopen, of_decide_eq_true hlevel,
    ⟨v, hv, beq_iff_eq.mp hvid, beq_iff_eq.mp hxmax⟩, of_decide_eq_true hself,
    hcomm, of_decide_eq_true hread, ?_⟩
  cases hval : s.validate 1 with
  | ok u => rfl
  | error e => simp [hval] at hvalid

end RusqlEngine
