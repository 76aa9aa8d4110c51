import RusqlEngine.VersionStore

/-!
# VACUUM and the readers

`exec_vacuum` and `maybe_auto_vacuum` remove the versions that were ended below the
smallest id that is open now. A snapshot may list as in progress an id below that
horizon which has committed since, and a `BEGIN` between its two halves is not yet
counted. `VacuumSafe` says exactly when neither happens.
-/

namespace RusqlEngine

open Transition

/-- No open snapshot counts the creator of a version as committed and the id that ended it, below
the horizon, as running: that id is not listed, and it is below the cutoff of a snapshot whose
`BEGIN` is not through. -/
def VacuumSafe (s : Db) (table : String) : Prop :=
  ∀ i ctx, (s.sessions i).txn.frozenCtx = some ctx → ∀ v ∈ s.store, v.table = table →
    v.row.xmax ≠ 0 → v.row.xmax < s.oldestActiveTxnId →
    committedAsOf ctx v.row.xmin ∨ v.row.xmin = ctx.selfTxnId →
    v.row.xmax ∉ ctx.inProgress ∧
      ((s.sessions i).phase = .entering → v.row.xmax < ctx.cutoff)

/-- No reader has a use for what a `VACUUM` of the table removes: no open snapshot, and no statement
of a later state. -/
def VacuumSpares (s : Db) (table : String) : Prop :=
  ∀ v ∈ s.store, s.vacuumed table v →
    (∀ i ctx, (s.sessions i).txn.frozenCtx = some ctx → isVisibleForRead v.row ctx = false) ∧
    ∀ s', Reaches step anyStep s s' →
      (∀ i, isVisibleForRead v.row (s'.currentReadCtx i) = false) ∧
      ∀ id, isVisibleForRead v.row (s'.writeCtx id) = false

def Settled (s : Db) (x : Nat) : Prop :=
  x < s.nextId ∧ ∀ i, x ∈ (s.sessions i).owned → (s.sessions i).phase = .auto

variable {s : Db}

theorem oldestActiveTxnId_le {x : Nat} (h : x ∈ s.activeTxnIds) : s.oldestActiveTxnId ≤ x := by
  have hne : s.activeTxnIds.Nonempty := ⟨x, h⟩
  simp only [Db.oldestActiveTxnId, hne, dif_pos]
  exact Finset.min'_le _ _ h

theorem oldestActiveTxnId_le_nextId (h : SessionInv s) : s.oldestActiveTxnId ≤ s.nextId := by
  unfold Db.oldestActiveTxnId
  split
  · rename_i hne
    obtain ⟨i, hp, hx⟩ := (h.active_iff _).mp (Finset.min'_mem _ hne)
    exact (h.owned_lt i _ (by simp [Session.owned_of_inTxn hp, hx])).2.le
  · exact le_rfl

theorem vacuumed_iff (h : s.Inv) {table : String} {v : Version} (hv : v ∈ s.store) :
    s.vacuumed table v ↔
      v.table = table ∧ v.row.xmax ≠ 0 ∧ v.row.xmax < s.oldestActiveTxnId := by
  simp only [Db.vacuumed, Bool.and_eq_true, decide_eq_true_eq,
    isVacuumable_iff h.session.nextId_max (h.store.fits v hv).stamped]

variable {row : Row} {ctx : SnapshotCtx}

theorem not_seen_of_committed {n : Nat} (hn : n ≤ uint64Max) (hst : Stamped n row)
    (h0 : row.xmax ≠ 0) (hc : committedAsOf ctx row.xmax) : isVisibleForRead row ctx = false := by
  rw [Bool.eq_false_iff, ne_eq, isVisibleForRead_iff_seen hn hst]
  rintro ⟨-, hseen⟩
  simp [h0, hc] at hseen

theorem committedAsOf_of_lt {x : Nat} (hlt : x < ctx.cutoff) (hnot : x ∉ ctx.inProgress) :
    committedAsOf ctx x := by
  simp [committedAsOf, hlt, hnot]

namespace Settled

theorem not_mem_active {x : Nat} (h : Settled s x) (hinv : SessionInv s) : x ∉ s.activeTxnIds := by
  intro hx
  obtain ⟨i, hp, rfl⟩ := (hinv.active_iff x).mp hx
  have := h.2 i (by simp [Session.owned_of_inTxn hp])
  simp [hp] at this

theorem move {s' : Db} {a : Step} {i x : Nat} (h : Settled s x) (hm : SessionMove s a s' i) :
    Settled s' x := by
  refine ⟨lt_of_lt_of_le h.1 hm.nextId_le, ?_⟩
  intro j hj
  by_cases hji : j = i
  · subst hji
    have ho : x ∈ (s.sessions j).owned := by
      rcases hm.owned x hj with ho | ⟨hle, -⟩
      · exact ho
      · exact absurd h.1 (not_lt.mpr hle)
    rcases hm.phase x hj ho with hp | ⟨hp, -⟩
    · rw [hp]
      exact h.2 j ho
    · have := h.2 j ho
      simp [hp] at this
  · rw [hm.others j hji] at hj ⊢
    exact h.2 j hj

theorem of_xmax (h : s.Inv) {v : Version} (hv : v ∈ s.store)
    (hlt : v.row.xmax < s.oldestActiveTxnId) : Settled s v.row.xmax := by
  refine ⟨lt_of_lt_of_le hlt (oldestActiveTxnId_le_nextId h.session), ?_⟩
  intro i hi
  obtain ⟨-, hne, -⟩ := (h.store.fits v hv).stamp i _ hi (.inr rfl)
  cases hp : (s.sessions i).phase with
  | idle => simp [Session.owned_of_idle hp] at hi
  | auto => rfl
  | entering => exact absurd hp hne
  | inTxn =>
    have hactive : v.row.xmax ∈ s.activeTxnIds := by
      rw [Session.owned_of_inTxn hp, Finset.mem_singleton] at hi
      exact (h.session.active_iff _).mpr ⟨i, hp, hi⟩
    exact absurd (oldestActiveTxnId_le hactive) (not_le.mpr hlt)

theorem not_seen_of_reaches {s' : Db} (hinv : s.Inv) (hst : Stamped s.nextId row)
    (h0 : row.xmax ≠ 0) (h : Settled s row.xmax)
    (hctx : ∀ i ctx, (s.sessions i).txn.frozenCtx = some ctx → isVisibleForRead row ctx = false)
    (hr : Reaches step anyStep s s') :
    s'.Inv ∧ Settled s' row.xmax ∧
      ∀ i ctx, (s'.sessions i).txn.frozenCtx = some ctx → isVisibleForRead row ctx = false := by
  have hmax := hinv.session.nextId_max
  refine hr.invariant (P := fun s => s.Inv ∧ Settled s row.xmax ∧
    ∀ i ctx, (s.sessions i).txn.frozenCtx = some ctx → isVisibleForRead row ctx = false) ?_
    ⟨hinv, h, hctx⟩
  rintro t a t' ⟨hinv, h, hctx⟩ - hs
  obtain ⟨i, hm⟩ := step_sessionMove hinv.session hs
  refine ⟨hinv.step hs, h.move hm, fun j ctx hj => ?_⟩
  by_cases hji : j = i
  · subst hji
    rcases hm.froze ctx hj with hj | ⟨-, rfl⟩
    · exact hctx j ctx hj
    · exact not_seen_of_committed hmax hst h0
        (committedAsOf_of_lt (Nat.lt_succ_of_lt h.1) (h.not_mem_active hinv.session))
  · rw [hm.others j hji] at hj
    exact hctx j ctx hj

theorem not_seen_of_statement {n : Nat} (hinv : SessionInv s) (hn : n ≤ uint64Max)
    (hst : Stamped n row) (h0 : row.xmax ≠ 0) (h : Settled s row.xmax) (self : Nat) :
    isVisibleForRead row ⟨self, s.nextId, s.activeTxnIds⟩ = false ∧
      isVisibleForRead row ⟨self, uint64Max, ∅⟩ = false := by
  refine ⟨not_seen_of_committed hn hst h0 (committedAsOf_of_lt h.1 (h.not_mem_active hinv)),
    not_seen_of_committed hn hst h0 (committedAsOf_of_lt ?_ (Finset.notMem_empty _))⟩
  exact lt_of_lt_of_le h.1 hinv.nextId_max

theorem not_seen_of_currentReadCtx {n : Nat} (hinv : SessionInv s) (hn : n ≤ uint64Max)
    (hst : Stamped n row) (h0 : row.xmax ≠ 0) (h : Settled s row.xmax)
    (hctx : ∀ i ctx, (s.sessions i).txn.frozenCtx = some ctx → isVisibleForRead row ctx = false)
    (i : Nat) : isVisibleForRead row (s.currentReadCtx i) = false := by
  obtain ⟨hfresh, hdirty⟩ :=
    not_seen_of_statement hinv hn hst h0 h (s.sessions i).txn.currentTxnId
  unfold Db.currentReadCtx
  simp only
  split
  · exact hdirty
  · split
    · rename_i frozen hf
      split at hf
      · exact hctx i frozen hf
      · cases hf
    · exact hfresh

end Settled

theorem VacuumSafe.not_seen (h : s.Inv) {table : String} (hsafe : VacuumSafe s table) {v : Version}
    (hv : v ∈ s.store) (hvac : s.vacuumed table v) {i : Nat}
    (hctx : (s.sessions i).txn.frozenCtx = some ctx) : isVisibleForRead v.row ctx = false := by
  obtain ⟨htable, h0, hlt⟩ := (vacuumed_iff h hv).mp hvac
  by_cases hmin : committedAsOf ctx v.row.xmin ∨ v.row.xmin = ctx.selfTxnId
  · obtain ⟨hprog, hcut⟩ := hsafe i ctx hctx v hv htable h0 hlt hmin
    obtain ⟨hactive, -, hself, -⟩ := (h.session.ok i).frozen ctx hctx
    refine not_seen_of_committed h.session.nextId_max (h.store.fits v hv).stamped h0
      (committedAsOf_of_lt ?_ hprog)
    rcases (h.session.ok i).active_iff.mp hactive with hp | hp
    · exact hcut hp
    · have := oldestActiveTxnId_le ((h.session.active_iff _).mpr ⟨i, hp, rfl⟩)
      omega
  · rw [Bool.eq_false_iff, ne_eq,
      isVisibleForRead_iff_seen h.session.nextId_max (h.store.fits v hv).stamped]
    rintro ⟨hxmin, -⟩
    exact hmin hxmin.symm

/-- In every state of every run, a `VACUUM` of the table spares the readers exactly when
`VacuumSafe` holds. -/
theorem vacuumSpares_iff {s₀ s : Db} (h₀ : s₀.Loaded) (hr : Reaches step anyStep s₀ s)
    (table : String) : VacuumSpares s table ↔ VacuumSafe s table := by
  have h : s.Inv := h₀.inv.of_reaches hr
  constructor
  · intro hspare i ctx hctx v hv htable h0 hlt hmin
    have hvac : s.vacuumed table v := (vacuumed_iff h hv).mpr ⟨htable, h0, hlt⟩
    have hst := (h.store.fits v hv).stamped
    have hunseen := (hspare v hv hvac).1 i ctx hctx
    rw [Bool.eq_false_iff, ne_eq, isVisibleForRead_iff_seen h.session.nextId_max hst] at hunseen
    obtain ⟨hactive, hself, hcut, -⟩ := (h.session.ok i).frozen ctx hctx
    have howned : ctx.selfTxnId ∈ (s.sessions i).owned := by
      rcases (h.session.ok i).active_iff.mp hactive with hp | hp
      · simp [Session.owned_of_entering hp, hself]
      · simp [Session.owned_of_inTxn hp, hself]
    have hne : v.row.xmax ≠ ctx.selfTxnId := by
      intro he
      have hauto := (Settled.of_xmax h hv hlt).2 i (he ▸ howned)
      rcases (h.session.ok i).active_iff.mp hactive with hp | hp <;> simp [hp] at hauto
    have hcomm : committedAsOf ctx v.row.xmax := by
      by_contra hc
      exact hunseen ⟨hmin.symm, .inr ⟨hne, by simpa using hc⟩⟩
    by_contra hbad
    rw [committedAsOf, Bool.or_eq_true, Bool.and_eq_true] at hcomm
    simp [h0] at hcomm
    exact hbad ⟨hcomm.2, fun _ => hcomm.1⟩
  · intro hsafe v hv hvac
    obtain ⟨-, h0, hlt⟩ := (vacuumed_iff h hv).mp hvac
    have hst := (h.store.fits v hv).stamped
    have hmax := h.session.nextId_max
    have hfrozen : ∀ i ctx, (s.sessions i).txn.frozenCtx = some ctx →
        isVisibleForRead v.row ctx = false := fun i ctx hctx => hsafe.not_seen h hv hvac hctx
    refine ⟨hfrozen, fun s' hs' => ?_⟩
    obtain ⟨h', hset, hctx⟩ :=
      Settled.not_seen_of_reaches h hst h0 (Settled.of_xmax h hv hlt) hfrozen hs'
    exact ⟨Settled.not_seen_of_currentReadCtx h'.session hmax hst h0 hset hctx,
      fun id => (Settled.not_seen_of_statement h'.session hmax hst h0 hset id).1⟩

/-- One row of a table `t`, created by transaction 1. -/
def oneRow : Db :=
  Db.load 2 [("t", (Row.ofCells [("id", "1"), ("v", "10")]).tag 1)]

theorem oneRow_loaded : oneRow.Loaded := by
  have hst : Stamped 2 ((Row.ofCells [("id", "1"), ("v", "10")]).tag 1) :=
    Stamped.tag _ (by decide)
  refine Db.loaded_load (by decide) (by decide) ?_
  intro p hp
  obtain rfl := List.mem_singleton.mp hp
  exact hst

/-- A row of a table `t` that transaction 2 has ended. -/
def oneDeadRow : Db :=
  Db.load 3 [("t", ((Row.ofCells [("id", "1")]).tag 1).set "_xmax" (stdToString 2))]

theorem oneDeadRow_loaded : oneDeadRow.Loaded := by
  have hst : Stamped 3 (((Row.ofCells [("id", "1")]).tag 1).set "_xmax" (stdToString 2)) :=
    Stamped.set_xmax (Stamped.tag _ (by decide)) (by decide)
  refine Db.loaded_load (by decide) (by decide) ?_
  intro p hp
  obtain rfl := List.mem_singleton.mp hp
  exact hst

def beginAlone : List Step :=
  [.setIsolation 1 .repeatableRead, .beginSnapshot 1, .beginActivate 1]

/-- The snapshot open at the `VACUUM` does not see the dead row, which goes. -/
theorem vacuumSpares_beginAlone : ∃ s, exec step oneDeadRow beginAlone = some s ∧
    (s.sessions 1).txn.frozenCtx.isSome ∧ s.store.any (s.vacuumed "t") ∧ VacuumSpares s "t" := by
  have hrun : (exec step oneDeadRow beginAlone).any (fun s =>
      (s.sessions 1).txn.frozenCtx.isSome && s.store.any (s.vacuumed "t")) := by
    decide
  obtain ⟨s, hs, hc⟩ := (Option.any_eq_true _ _).mp hrun
  obtain ⟨hsome, hvac⟩ := Bool.and_eq_true_iff.mp hc
  have hreach := Reaches.of_exec _ (execOk_anyStep step _ _) hs
  refine ⟨s, hs, hsome, hvac, (vacuumSpares_iff oneDeadRow_loaded hreach "t").mpr ?_⟩
  obtain rfl := Option.some.inj hs
  intro i ctx hctx v hv
  by_cases hi : i = 1
  · subst hi
    obtain rfl := Option.some.inj hctx
    obtain rfl := List.mem_singleton.mp hv
    intro _ _ _ _
    exact ⟨Finset.notMem_empty _, fun _ => by decide⟩
  · simp [Db.setSession, hi, oneDeadRow, Db.load] at hctx
    cases hctx

/-- Session 0 opens transaction 2, session 1 takes a snapshot that lists it as in
progress, session 0 deletes the row and commits. -/
def deleteUnderSnapshot : List Step :=
  [.beginSnapshot 0, .beginActivate 0, .setIsolation 1 .repeatableRead, .beginSnapshot 1,
    .beginActivate 1, .endVersion 0 0 "1", .commit 0]

/-- The `VACUUM` that follows removes a version which the open snapshot still sees. -/
theorem vacuum_removes_version_of_open_snapshot :
    oneRow.Loaded ∧ ∃ s v ctx, Reaches step anyStep oneRow s ∧ v ∈ s.store ∧
      s.vacuumed "t" v ∧ (s.sessions 1).phase = .inTxn ∧ (s.sessions 1).txn.frozenCtx = some ctx ∧
      isVisibleForRead v.row ctx := by
  have hrun : (exec step oneRow deleteUnderSnapshot).any (fun s =>
      decide ((s.sessions 1).phase = .inTxn) &&
        (s.sessions 1).txn.frozenCtx.any fun ctx =>
          s.store.any fun v => s.vacuumed "t" v && isVisibleForRead v.row ctx) := by
    decide
  obtain ⟨s, hs, hc⟩ := (Option.any_eq_true _ _).mp hrun
  obtain ⟨hp, hctx⟩ := Bool.and_eq_true_iff.mp hc
  obtain ⟨ctx, hf, hv⟩ := (Option.any_eq_true _ _).mp hctx
  obtain ⟨v, hmem, hv⟩ := List.any_eq_true.mp hv
  obtain ⟨hvac, hvis⟩ := Bool.and_eq_true_iff.mp hv
  exact ⟨oneRow_loaded, s, v, ctx, Reaches.of_exec _ (execOk_anyStep step _ _) hs, hmem, hvac,
    of_decide_eq_true hp, hf, hvis⟩

end RusqlEngine
