import RusqlEngine.Session

/-!
# What one step does to the ids of the sessions

Every step changes at most one session. `SessionMove` says once what it may change
there: the ids the session owns, its phase, its frozen snapshot and the set
`active_txn_ids`. The invariant `SessionInv` of the ids follows from it, and the
later modules use `SessionMove` without looking at the step function again.
-/

namespace RusqlEngine

open TxnManager Function

/-- The manager of a session agrees with its phase, and a frozen snapshot was taken
under the session's own id. -/
structure SessionOk (n : Nat) (se : Session) : Prop where
  active_iff : se.txn.active ↔ se.phase = .entering ∨ se.phase = .inTxn
  frozen : ∀ ctx, se.txn.frozenCtx = some ctx →
    se.txn.active ∧ ctx.selfTxnId = se.txn.txnId ∧ se.txn.txnId < ctx.cutoff ∧
      ctx.cutoff ≤ n

/-- An id is owned by at most one session, and `active_txn_ids` are the ids of the open
transactions. -/
structure SessionInv (s : Db) : Prop where
  nextId_pos : 0 < s.nextId
  nextId_max : s.nextId ≤ uint64Max
  owned_lt : ∀ i, ∀ x ∈ (s.sessions i).owned, 0 < x ∧ x < s.nextId
  owned_inj : ∀ i j x, x ∈ (s.sessions i).owned → x ∈ (s.sessions j).owned → i = j
  active_iff : ∀ x, x ∈ s.activeTxnIds ↔
    ∃ i, (s.sessions i).phase = .inTxn ∧ x = (s.sessions i).txn.txnId
  ok : ∀ i, SessionOk s.nextId (s.sessions i)

/-- What a step may do to the sessions; `i` is the session that takes it. -/
structure SessionMove (s : Db) (a : Step) (s' : Db) (i : Nat) : Prop where
  others : ∀ j, j ≠ i → s'.sessions j = s.sessions j
  nextId_le : s.nextId ≤ s'.nextId
  nextId_max : s'.nextId ≤ uint64Max
  owned : ∀ x ∈ (s'.sessions i).owned,
    x ∈ (s.sessions i).owned ∨ (s.nextId ≤ x ∧ x < s'.nextId)
  active : ∀ x, x ∈ s'.activeTxnIds ↔ (x ∈ s.activeTxnIds ∧ x ∉ (s.sessions i).owned) ∨
    ((s'.sessions i).phase = .inTxn ∧ x = (s'.sessions i).txn.txnId)
  ok : SessionOk s'.nextId (s'.sessions i)
  phase : ∀ x ∈ (s'.sessions i).owned, x ∈ (s.sessions i).owned →
    (s'.sessions i).phase = (s.sessions i).phase ∨
      ((s.sessions i).phase = .entering ∧ (s'.sessions i).phase = .inTxn)
  dirty : (s'.sessions i).phase = .inTxn →
    (s.sessions i).txn.dirtyTables ⊆ (s'.sessions i).txn.dirtyTables
  frozen : ∀ x ∈ (s'.sessions i).owned, x ∈ (s.sessions i).owned →
    (s'.sessions i).txn.frozenCtx = (s.sessions i).txn.frozenCtx
  reads : ∀ x ∈ (s'.sessions i).owned, x ∈ (s.sessions i).owned →
    (s.sessions i).txn.readSet ⊆ (s'.sessions i).txn.readSet
  froze : ∀ ctx, (s'.sessions i).txn.frozenCtx = some ctx →
    (s.sessions i).txn.frozenCtx = some ctx ∨
      (a = .beginSnapshot i ∧ ctx = ⟨s.nextId, s.nextId + 1, s.activeTxnIds⟩)

variable {se : Session}

namespace Session

theorem owned_of_inTxn (h : se.phase = .inTxn) : se.owned = {se.txn.txnId} := by
  simp [owned, h]

theorem owned_of_entering (h : se.phase = .entering) : se.owned = {se.txn.txnId} := by
  simp [owned, h]

theorem owned_of_auto (h : se.phase = .auto) : se.owned = se.taken := by
  simp [owned, h]

theorem owned_of_idle (h : se.phase = .idle) : se.owned = ∅ := by
  simp [owned, h]

theorem owned_congr {se' : Session} (hp : se'.phase = se.phase) (ht : se'.txn.txnId = se.txn.txnId)
    (hk : se'.taken = se.taken) : se'.owned = se.owned := by
  simp only [owned, hp, ht, hk]

end Session

variable {s s' : Db} {a : Step} {i : Nat}

namespace SessionInv

/-- The ids of the open transactions are those of the other sessions and that of session `i`, if it
has one. -/
theorem active_split (h : SessionInv s) (i x : Nat) :
    x ∈ s.activeTxnIds ↔ (x ∈ s.activeTxnIds ∧ x ∉ (s.sessions i).owned) ∨
      ((s.sessions i).phase = .inTxn ∧ x = (s.sessions i).txn.txnId) := by
  constructor
  · intro hx
    by_cases ho : x ∈ (s.sessions i).owned
    · obtain ⟨j, hj, rfl⟩ := (h.active_iff x).mp hx
      have hij : i = j := h.owned_inj i j _ ho (by simp [Session.owned_of_inTxn hj])
      subst hij
      exact .inr ⟨hj, rfl⟩
    · exact .inl ⟨hx, ho⟩
  · rintro (⟨hx, -⟩ | ⟨hp, rfl⟩)
    · exact hx
    · exact (h.active_iff _).mpr ⟨i, hp, rfl⟩

theorem move (h : SessionInv s) (hm : SessionMove s a s' i) : SessionInv s' where
  nextId_pos := lt_of_lt_of_le h.nextId_pos hm.nextId_le
  nextId_max := hm.nextId_max
  owned_lt := by
    intro j x hx
    by_cases hj : j = i
    · subst hj
      rcases hm.owned x hx with ho | ⟨h₁, h₂⟩
      · have := h.owned_lt j x ho
        exact ⟨this.1, lt_of_lt_of_le this.2 hm.nextId_le⟩
      · exact ⟨lt_of_lt_of_le h.nextId_pos h₁, h₂⟩
    · rw [hm.others j hj] at hx
      have := h.owned_lt j x hx
      exact ⟨this.1, lt_of_lt_of_le this.2 hm.nextId_le⟩
  owned_inj := by
    have key : ∀ j x, j ≠ i → x ∈ (s'.sessions i).owned → x ∉ (s'.sessions j).owned := by
      intro j x hj hi hx
      rw [hm.others j hj] at hx
      rcases hm.owned x hi with ho | ⟨h₁, -⟩
      · exact hj (h.owned_inj j i x hx ho)
      · exact absurd (h.owned_lt j x hx).2 (not_lt.mpr h₁)
    intro j k x hj hk
    by_cases hji : j = i
    · by_cases hki : k = i
      · rw [hji, hki]
      · exact absurd hk (key k x hki (hji ▸ hj))
    · by_cases hki : k = i
      · exact absurd hj (key j x hji (hki ▸ hk))
      · rw [hm.others j hji] at hj
        rw [hm.others k hki] at hk
        exact h.owned_inj j k x hj hk
  active_iff := by
    intro x
    rw [hm.active x]
    constructor
    · rintro (⟨hx, ho⟩ | ⟨hp, hx⟩)
      · obtain ⟨j, hj, rfl⟩ := (h.active_iff x).mp hx
        have hji : j ≠ i := by
          rintro rfl
          exact ho (by simp [Session.owned_of_inTxn hj])
        exact ⟨j, by rw [hm.others j hji]; exact hj, by rw [hm.others j hji]⟩
      · exact ⟨i, hp, hx⟩
    · rintro ⟨j, hj, hx⟩
      by_cases hji : j = i
      · subst hji
        exact .inr ⟨hj, hx⟩
      · rw [hm.others j hji] at hj hx
        refine .inl ⟨(h.active_iff x).mpr ⟨j, hj, hx⟩, fun ho => hji ?_⟩
        exact h.owned_inj j i x (by simp [Session.owned_of_inTxn hj, hx]) ho
  ok := by
    intro j
    by_cases hj : j = i
    · subst hj
      exact hm.ok
    · rw [hm.others j hj]
      refine ⟨(h.ok j).active_iff, fun ctx hctx => ?_⟩
      obtain ⟨h₁, h₂, h₃, h₄⟩ := (h.ok j).frozen ctx hctx
      exact ⟨h₁, h₂, h₃, le_trans h₄ hm.nextId_le⟩

end SessionInv

theorem SessionOk.mono {n m : Nat} (h : SessionOk n se) (hnm : n ≤ m) : SessionOk m se := by
  refine ⟨h.active_iff, fun ctx hctx => ?_⟩
  obtain ⟨h₁, h₂, h₃, h₄⟩ := h.frozen ctx hctx
  exact ⟨h₁, h₂, h₃, le_trans h₄ hnm⟩

/-- A step that leaves the ids of its session alone. -/
theorem SessionMove.of_same (h : SessionInv s) (hothers : ∀ j, j ≠ i → s'.sessions j = s.sessions j)
    (hn : s.nextId ≤ s'.nextId) (hmax : s'.nextId ≤ uint64Max)
    (hact : s'.activeTxnIds = s.activeTxnIds)
    (hphase : (s'.sessions i).phase = (s.sessions i).phase)
    (htaken : (s'.sessions i).taken = (s.sessions i).taken)
    (hid : (s'.sessions i).txn.txnId = (s.sessions i).txn.txnId)
    (hactive : (s'.sessions i).txn.active = (s.sessions i).txn.active)
    (hfrozen : (s'.sessions i).txn.frozenCtx = (s.sessions i).txn.frozenCtx)
    (hreads : (s.sessions i).txn.readSet ⊆ (s'.sessions i).txn.readSet)
    (hdirty : (s.sessions i).phase = .inTxn →
      (s.sessions i).txn.dirtyTables ⊆ (s'.sessions i).txn.dirtyTables) :
    SessionMove s a s' i where
  others := hothers
  nextId_le := hn
  nextId_max := hmax
  owned := by
    intro x hx
    rw [Session.owned_congr hphase hid htaken] at hx
    exact .inl hx
  active := by
    intro x
    rw [hact, hphase, hid]
    exact h.active_split i x
  ok := by
    refine ⟨?_, fun ctx hctx => ?_⟩
    · rw [hactive, hphase]
      exact (h.ok i).active_iff
    · rw [hfrozen] at hctx
      rw [hactive, hid]
      exact ((h.ok i).mono hn).frozen ctx hctx
  phase := fun _ _ _ => .inl hphase
  dirty := fun hp => hdirty (hphase ▸ hp)
  frozen := fun _ _ _ => hfrozen
  reads := fun _ _ _ => hreads
  froze := fun ctx hctx => .inl (hfrozen ▸ hctx)

theorem SessionMove.of_leaveTxn (h : SessionInv s) (hp : (s.sessions i).phase = .inTxn)
    (hs : s'.sessions = (s.leaveTxn i).sessions) (hn : s'.nextId = s.nextId)
    (hact : s'.activeTxnIds = (s.leaveTxn i).activeTxnIds) : SessionMove s a s' i := by
  have hi : s'.sessions i =
      { s.sessions i with txn := (s.sessions i).txn.finish, phase := .idle } := by
    simp [hs, Db.leaveTxn, Db.setSession]
  refine ⟨?_, hn.ge, hn ▸ h.nextId_max, ?_, ?_, ?_, ?_, ?_, ?_, ?_, ?_⟩
  · intro j hj
    simp [hs, Db.leaveTxn, Db.setSession, hj]
  · intro x hx
    simp [hi, Session.owned] at hx
  · intro x
    rw [hact, hi]
    simp [Db.leaveTxn, Session.owned_of_inTxn hp, and_comm]
  · rw [hi]
    exact ⟨by simp [finish], by simp [finish]⟩
  · intro x hx
    simp [hi, Session.owned] at hx
  · intro hp'
    simp [hi] at hp'
  · intro x hx
    simp [hi, Session.owned] at hx
  · intro x hx
    simp [hi, Session.owned] at hx
  · intro ctx hctx
    simp [hi, finish] at hctx

theorem SessionMove.of_sessions_eq (h : SessionInv s) (hs : s'.sessions = s.sessions)
    (hn : s.nextId ≤ s'.nextId) (hmax : s'.nextId ≤ uint64Max)
    (hact : s'.activeTxnIds = s.activeTxnIds) : ∃ i, SessionMove s a s' i :=
  ⟨0, SessionMove.of_same h (fun j _ => by rw [hs]) hn hmax hact (by rw [hs]) (by rw [hs])
    (by rw [hs]) (by rw [hs]) (by rw [hs]) (by rw [hs]; exact List.Subset.refl _)
    (fun _ => by rw [hs]; exact List.Subset.refl _)⟩

/-- A step that changes only the manager of its session, and there neither the id nor
the snapshot. -/
theorem SessionMove.of_txn {txn : TxnManager} (h : SessionInv s)
    (hs : s'.sessions = update s.sessions i { s.sessions i with txn := txn })
    (hn : s'.nextId = s.nextId) (hact : s'.activeTxnIds = s.activeTxnIds)
    (hid : txn.txnId = (s.sessions i).txn.txnId) (hactive : txn.active = (s.sessions i).txn.active)
    (hfrozen : txn.frozenCtx = (s.sessions i).txn.frozenCtx)
    (hreads : (s.sessions i).txn.readSet ⊆ txn.readSet)
    (hdirty : (s.sessions i).phase = .inTxn → (s.sessions i).txn.dirtyTables ⊆ txn.dirtyTables) :
    SessionMove s a s' i := by
  have hi : s'.sessions i = { s.sessions i with txn := txn } := by
    simp [hs]
  refine SessionMove.of_same h (fun j hj => by simp [hs, hj]) hn.ge (hn ▸ h.nextId_max) hact
    ?_ ?_ ?_ ?_ ?_ ?_ ?_
  · simp [hi]
  · simp [hi]
  · simpa [hi] using hid
  · simpa [hi] using hactive
  · simpa [hi] using hfrozen
  · simpa [hi] using hreads
  · simpa [hi] using hdirty

namespace SessionMove

theorem of_pushLog (h : SessionInv s) (ops : List RedoOp) (entry : UndoEntry)
    (hs : s'.sessions = update s.sessions i
      { s.sessions i with txn := (s.sessions i).txn.pushLog ops entry })
    (hn : s'.nextId = s.nextId) (hact : s'.activeTxnIds = s.activeTxnIds) :
    SessionMove s a s' i := by
  obtain ⟨hid, hactive, hfrozen, -, hreads⟩ := (s.sessions i).txn.pushLog_fields ops entry
  exact of_txn h hs hn hact hid hactive hfrozen (by rw [hreads]; exact List.Subset.refl _)
    (fun _ => (s.sessions i).txn.dirtyTables_subset_pushLog ops entry)

theorem of_beginSnapshot (hs : step s (.beginSnapshot i) = some s') :
    SessionMove s (.beginSnapshot i) s' i := by
  simp only [step] at hs
  split at hs
  · rename_i hg
    obtain ⟨hphase, hmax⟩ := hg
    split at hs
    · rename_i txn n' hb
      cases hs
      obtain ⟨rfl, hid, hactive, -, hctx⟩ := beginWithSnapshot_ok hb
      have howned : (s.sessions i).owned = ∅ := Session.owned_of_idle hphase
      refine ⟨?_, Nat.le_succ _, hmax, ?_, ?_, ?_, ?_, ?_, ?_, ?_, ?_⟩
      · intro j hj
        simp [Db.setSession, hj]
      · intro x hx
        simp [Db.setSession, Session.owned, hid] at hx
        subst hx
        exact .inr ⟨le_rfl, Nat.lt_succ_self _⟩
      · intro x
        simp [Db.setSession, howned]
      · refine ⟨by simp [Db.setSession, hactive], fun ctx h' => ?_⟩
        simp only [Db.setSession, update_self] at h' ⊢
        obtain rfl := hctx ctx h'
        exact ⟨hactive, hid.symm, by simp [hid], le_rfl⟩
      · intro x _ hx
        simp [howned] at hx
      · intro hp
        simp [Db.setSession] at hp
      · intro x _ hx
        simp [howned] at hx
      · intro x _ hx
        simp [howned] at hx
      · intro ctx h'
        simp only [Db.setSession, update_self] at h'
        exact .inr ⟨rfl, hctx ctx h'⟩
    · cases hs
  · cases hs

theorem of_beginActivate (h : SessionInv s) (hs : step s (.beginActivate i) = some s') :
    SessionMove s (.beginActivate i) s' i := by
  simp only [step] at hs
  split at hs
  · rename_i hp
    cases hs
    have howned := Session.owned_of_entering hp
    refine ⟨?_, le_rfl, h.nextId_max, ?_, ?_, ?_, ?_, ?_, ?_, ?_, ?_⟩
    · intro j hj
      simp [Db.setSession, hj]
    · intro x hx
      simp [Db.setSession, Session.owned] at hx
      simp [howned, hx]
    · intro x
      simp only [Db.setSession, update_self, Finset.mem_insert, howned,
        Finset.mem_singleton, true_and]
      by_cases hx : x = (s.sessions i).txn.txnId <;> simp [hx]
    · refine ⟨?_, fun ctx h' => ?_⟩
      · have := (h.ok i).active_iff
        simp [hp] at this
        simp [Db.setSession, this]
      · simp only [Db.setSession, update_self] at h' ⊢
        exact (h.ok i).frozen ctx h'
    · intro x _ _
      exact .inr ⟨hp, by simp [Db.setSession]⟩
    · intro _
      simp [Db.setSession]
    · intro x _ _
      simp [Db.setSession]
    · intro x _ _
      simp [Db.setSession]
    · intro ctx h'
      simp only [Db.setSession, update_self] at h'
      exact .inl h'
  · cases hs

/-- The steps of an autocommit statement that move its session between `idle` and
`auto` or take an id. -/
theorem of_autoPhase (h : SessionInv s) (hs : s'.sessions = update s.sessions i se)
    (hn : s.nextId ≤ s'.nextId) (hmax : s'.nextId ≤ uint64Max)
    (hact : s'.activeTxnIds = s.activeTxnIds) (htxn : se.txn = (s.sessions i).txn)
    (hp : (s.sessions i).phase = .idle ∨ (s.sessions i).phase = .auto)
    (hp' : se.phase = .idle ∨ se.phase = .auto)
    (hown : ∀ x ∈ se.owned, ((s.sessions i).phase = se.phase ∧ x ∈ (s.sessions i).owned) ∨
      (s.nextId ≤ x ∧ x < s'.nextId)) :
    SessionMove s a s' i := by
  have hi : s'.sessions i = se := by
    simp [hs]
  have hnotTxn : (s.sessions i).phase ≠ .inTxn := by
    rcases hp with hp | hp <;> simp [hp]
  refine ⟨fun j hj => by simp [hs, hj], hn, hmax, ?_, ?_, ?_, ?_, ?_, ?_, ?_, ?_⟩
  · intro x hx
    rw [hi] at hx
    exact (hown x hx).imp_left And.right
  · intro x
    rw [hact, hi]
    have := h.active_split i x
    simp only [hnotTxn, false_and, or_false] at this
    rcases hp' with hp' | hp' <;> simp [hp', ← this]
  · rw [hi]
    have hinactive : (s.sessions i).txn.active = false := by
      have := (h.ok i).active_iff
      rcases hp with hp | hp <;> simpa [hp] using this
    refine ⟨?_, fun ctx hctx => ?_⟩
    · rcases hp' with hp' | hp' <;> simp [htxn, hinactive, hp']
    · rw [htxn] at hctx
      have := ((h.ok i).frozen ctx hctx).1
      simp [hinactive] at this
  · intro x hx ho
    rw [hi] at hx ⊢
    rcases hown x hx with ⟨he, -⟩ | ⟨hle, -⟩
    · exact .inl he.symm
    · exact absurd (h.owned_lt i x ho).2 (not_lt.mpr hle)
  · intro hp''
    rw [hi] at hp''
    rcases hp' with hp' | hp' <;> simp [hp'] at hp''
  · intro x _ _
    rw [hi, htxn]
  · intro x _ _
    rw [hi, htxn]
    exact List.Subset.refl _
  · intro ctx hctx
    rw [hi, htxn] at hctx
    exact .inl hctx

theorem of_startAuto (h : SessionInv s) (hs : step s (.startAuto i) = some s') :
    SessionMove s (.startAuto i) s' i := by
  simp only [step] at hs
  split at hs
  · rename_i hp
    cases hs
    refine of_autoPhase h rfl le_rfl h.nextId_max rfl rfl (.inl hp) (.inr rfl) ?_
    intro x hx
    simp [Session.owned] at hx
  · cases hs

theorem of_tag (h : SessionInv s) (hs : step s (.tag i) = some s') :
    SessionMove s (.tag i) s' i := by
  simp only [step] at hs
  split at hs
  · rename_i hg
    obtain ⟨hp, hmax⟩ := hg
    cases hs
    refine of_autoPhase h rfl (Nat.le_succ _) hmax rfl rfl (.inr hp) (.inr hp) ?_
    intro x hx
    simp only [Session.owned, hp, Finset.mem_insert] at hx
    rcases hx with rfl | hx
    · exact .inr ⟨le_rfl, Nat.lt_succ_self _⟩
    · exact .inl ⟨rfl, by simpa [Session.owned, hp] using hx⟩
  · cases hs

theorem of_finishAuto (h : SessionInv s) (hs : step s (.finishAuto i) = some s') :
    SessionMove s (.finishAuto i) s' i := by
  simp only [step] at hs
  split at hs
  · rename_i hp
    cases hs
    refine of_autoPhase h rfl le_rfl h.nextId_max rfl rfl (.inr hp) (.inl rfl) ?_
    intro x hx
    simp [Session.owned] at hx
  · cases hs

theorem of_commit (h : SessionInv s) (hs : step s (.commit i) = some s') :
    SessionMove s (.commit i) s' i := by
  simp only [step] at hs
  split at hs
  · rename_i hp
    cases hs
    refine of_leaveTxn h hp ?_ ?_ ?_ <;>
      · unfold Db.execCommit
        simp only
        split <;> rfl
  · cases hs

theorem of_recordRead {vid : Nat} {pkCol : String} (h : SessionInv s)
    (hs : step s (.recordRead i vid pkCol) = some s') :
    SessionMove s (.recordRead i vid pkCol) s' i := by
  simp only [step] at hs
  split at hs
  · split at hs
    · rename_i v hv
      split at hs
      · cases hs
      · split at hs
        · rename_i key hkey
          cases hs
          obtain ⟨hid, hactive, hfrozen, hundo, hreads⟩ :=
            (s.sessions i).txn.recordRead_fields v.table pkCol key
          refine of_txn h rfl rfl rfl hid hactive hfrozen hreads (fun _ => ?_)
          simp [dirtyTables, hundo]
        · cases hs
    · cases hs
  · cases hs

end SessionMove

theorem step_sessionMove (h : SessionInv s) (hs : step s a = some s') :
    ∃ i, SessionMove s a s' i := by
  cases a with
  | setIsolation i level =>
    simp only [step, Option.some.injEq] at hs
    subst hs
    exact ⟨i, SessionMove.of_txn h rfl rfl rfl rfl rfl rfl (List.Subset.refl _)
      (fun _ => List.Subset.refl _)⟩
  | beginSnapshot i => exact ⟨i, SessionMove.of_beginSnapshot hs⟩
  | beginActivate i => exact ⟨i, SessionMove.of_beginActivate h hs⟩
  | takeId =>
    simp only [step] at hs
    split at hs
    · rename_i hmax
      cases hs
      exact SessionMove.of_sessions_eq h rfl (Nat.le_succ _) hmax rfl
    · cases hs
  | startAuto i => exact ⟨i, SessionMove.of_startAuto h hs⟩
  | tag i => exact ⟨i, SessionMove.of_tag h hs⟩
  | autoAppend i id table row | autoEnd i id vid | autoErase i vid =>
    simp only [step, Option.ite_none_right_eq_some, Option.some.injEq] at hs
    obtain ⟨-, rfl⟩ := hs
    exact SessionMove.of_sessions_eq h rfl le_rfl h.nextId_max rfl
  | finishAuto i => exact ⟨i, SessionMove.of_finishAuto h hs⟩
  | append i table key row =>
    simp only [step, Option.ite_none_right_eq_some, Option.some.injEq] at hs
    obtain ⟨-, rfl⟩ := hs
    exact ⟨i, SessionMove.of_pushLog h _ _ rfl rfl rfl⟩
  | endVersion i vid key =>
    simp only [step, Option.ite_none_right_eq_some] at hs
    obtain ⟨-, hs⟩ := hs
    split at hs
    · cases hs
      exact ⟨i, SessionMove.of_pushLog h _ _ rfl rfl rfl⟩
    · cases hs
  | recordRead i vid pkCol => exact ⟨i, SessionMove.of_recordRead h hs⟩
  | commit i => exact ⟨i, SessionMove.of_commit h hs⟩
  | rollback i =>
    simp only [step, Option.ite_none_right_eq_some, Option.some.injEq] at hs
    obtain ⟨hp, rfl⟩ := hs
    exact ⟨i, SessionMove.of_leaveTxn h hp rfl rfl rfl⟩
  | vacuum table =>
    simp only [step, Option.some.injEq] at hs
    subst hs
    exact SessionMove.of_sessions_eq h rfl le_rfl h.nextId_max rfl

theorem SessionInv.step (h : SessionInv s) (hs : RusqlEngine.step s a = some s') :
    SessionInv s' := by
  obtain ⟨i, hm⟩ := step_sessionMove h hs
  exact h.move hm

end RusqlEngine
