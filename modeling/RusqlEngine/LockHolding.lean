import RusqlEngine.GapLocks

/-!
# Who holds a row over a whole run

No request takes a lock from anybody, and a grant gives the requester the row in its mode; a
release takes away what the transaction holds and nothing else. So whoever was granted a row holds
it, in that mode or exclusively, until it is released.
-/

namespace RusqlEngine

open LockManager

/-- The transaction holds the lock, in this mode or exclusively. -/
def LockEntry.Holds : LockEntry → LockMode → ℕ → Prop
  | .exclusive holder, _, txn => holder = txn
  | .shared _, .exclusive, _ => False
  | .shared holders, .shared, txn => txn ∈ holders

namespace LockManager

variable {κ : Type} {m m' : LockManager κ} {key k : κ} {mode mode' : LockMode} {txn t : ℕ}
  {order : List ℕ}

def Holds (m : LockManager κ) (key : κ) (mode : LockMode) (txn : ℕ) : Prop :=
  ∃ entry, m.rowLocks key = some entry ∧ entry.Holds mode txn

def NoEmptyShare (m : LockManager κ) : Prop :=
  ∀ key holders, m.rowLocks key = some (.shared holders) → holders.Nonempty

theorem holds_congr (h : m'.rowLocks = m.rowLocks) : m'.Holds k mode t ↔ m.Holds k mode t := by
  rw [Holds, Holds, h]

theorem noEmptyShare_congr (h : m'.rowLocks = m.rowLocks) (hm : m.NoEmptyShare) :
    m'.NoEmptyShare := by
  rw [NoEmptyShare, h]
  exact hm

section

variable [DecidableEq κ]

/-- What a grant leaves of the locks: nobody loses one, and the requester has the row. -/
structure Grants (m m' : LockManager κ) (key : κ) (mode : LockMode) (txn : ℕ) : Prop where
  keeps : ∀ k mode' t, m.Holds k mode' t → m'.Holds k mode' t
  holds : m'.Holds key mode txn
  noEmptyShare : m'.NoEmptyShare

theorem grants_setLock {entry : LockEntry} (hm : m.NoEmptyShare)
    (hold : ∀ old, m.rowLocks key = some old → ∀ mode' t, old.Holds mode' t → entry.Holds mode' t)
    (hholds : entry.Holds mode txn)
    (hsome : ∀ holders, entry = .shared holders → holders.Nonempty) :
    Grants m (m.setLock key entry) key mode txn where
  keeps k mode' t h := by
    obtain ⟨old, hlock, hheld⟩ := h
    by_cases hk : k = key
    · subst hk
      exact ⟨entry, if_pos rfl, hold old hlock mode' t hheld⟩
    · exact ⟨old, (if_neg hk).trans hlock, hheld⟩
  holds := ⟨entry, if_pos rfl, hholds⟩
  noEmptyShare k holders hlock := by
    dsimp only [setLock] at hlock
    split at hlock
    next => exact hsome holders (Option.some.inj hlock)
    next => exact hm k holders hlock

theorem tryGrantExclusive_grants (hm : m.NoEmptyShare) (horder : m.Enumerates key order)
    (h : m.tryGrantExclusive key txn order = (none, m')) : Grants m m' key .exclusive txn := by
  rw [tryGrantExclusive] at h
  split at h
  next hnone =>
    obtain rfl : m.setLock key (.exclusive txn) = m' := congrArg Prod.snd h
    refine grants_setLock hm (fun old hold => ?_) rfl fun holders hshared => ?_
    · cases hnone.symm.trans hold
    · cases hshared
  next holder hlock =>
    split at h
    next heq =>
      obtain rfl : m = m' := congrArg Prod.snd h
      exact ⟨fun _ _ _ => id, ⟨_, hlock, heq⟩, hm⟩
    next => cases congrArg Prod.fst h
  next holders hlock =>
    split at h
    next hsole =>
      -- the only shared holder becomes the exclusive one
      obtain rfl : m.setLock key (.exclusive txn) = m' := congrArg Prod.snd h
      refine grants_setLock hm (fun old hold mode' t hheld => ?_) rfl fun holders' hshared => ?_
      · obtain rfl := Option.some.inj (hlock.symm.trans hold)
        obtain ⟨only, rfl⟩ := Finset.card_eq_one.mp hsole.1
        cases mode' with
        | exclusive => exact hheld.elim
        | shared =>
          exact (Finset.mem_singleton.mp hsole.2).trans (Finset.mem_singleton.mp hheld).symm
      · cases hshared
    next hmore =>
      -- the branch that the source calls unreachable
      have hfind : order.find? (· ≠ txn) = none := congrArg Prod.fst h
      rw [Enumerates, hlock] at horder
      have hall : ∀ t ∈ holders, t = txn := by
        intro t ht
        rw [← horder, List.mem_toFinset] at ht
        simpa using List.find?_eq_none.mp hfind t ht
      obtain ⟨t, ht⟩ := hm key holders hlock
      have hsingle : holders = {txn} :=
        Finset.eq_singleton_iff_unique_mem.mpr ⟨hall t ht ▸ ht, hall⟩
      exact absurd ⟨by rw [hsingle, Finset.card_singleton], by simp [hsingle]⟩ hmore

theorem tryGrantShared_grants (hm : m.NoEmptyShare)
    (h : m.tryGrantShared key txn = (none, m')) : Grants m m' key .shared txn := by
  rw [tryGrantShared] at h
  split at h
  next hnone =>
    obtain rfl : m.setLock key (.shared {txn}) = m' := congrArg Prod.snd h
    refine grants_setLock hm (fun old hold => ?_) (Finset.mem_singleton_self txn)
      fun holders hshared => ?_
    · cases hnone.symm.trans hold
    · obtain rfl : {txn} = holders := LockEntry.shared.inj hshared
      exact Finset.singleton_nonempty txn
  next holder hlock =>
    split at h
    next heq =>
      obtain rfl : m = m' := congrArg Prod.snd h
      exact ⟨fun _ _ _ => id, ⟨_, hlock, heq⟩, hm⟩
    next => cases congrArg Prod.fst h
  next holders hlock =>
    obtain rfl : m.setLock key (.shared (insert txn holders)) = m' := congrArg Prod.snd h
    refine grants_setLock hm (fun old hold mode' t hheld => ?_) (Finset.mem_insert_self txn holders)
      fun holders' hshared => ?_
    · obtain rfl := Option.some.inj (hlock.symm.trans hold)
      cases mode' with
      | exclusive => exact hheld.elim
      | shared => exact Finset.mem_insert_of_mem hheld
    · obtain rfl : insert txn holders = holders' := LockEntry.shared.inj hshared
      exact Finset.insert_nonempty txn holders

theorem tryGrant_grants (hm : m.NoEmptyShare) (horder : m.Enumerates key order)
    (h : m.tryGrant mode key txn order = (none, m')) : Grants m m' key mode txn := by
  cases mode with
  | exclusive => exact tryGrantExclusive_grants hm horder h
  | shared => exact tryGrantShared_grants hm h

end

theorem holds_releaseEntry {entry : LockEntry} :
    (∃ left, releaseEntry txn entry = some left ∧ left.Holds mode t) ↔
      t ≠ txn ∧ entry.Holds mode t := by
  cases entry with
  | exclusive holder =>
    rw [releaseEntry]
    split
    next heq =>
      constructor
      · rintro ⟨left, hnone, -⟩
        cases hnone
      · rintro ⟨hne, hheld⟩
        exact absurd ((show holder = t from hheld).symm.trans heq) hne
    next hne =>
      constructor
      · rintro ⟨left, hleft, hheld⟩
        obtain rfl := Option.some.inj hleft
        exact ⟨fun heq => hne ((show holder = t from hheld).trans heq), hheld⟩
      · exact fun h => ⟨_, rfl, h.2⟩
  | shared holders =>
    rw [releaseEntry]
    split
    next hempty =>
      constructor
      · rintro ⟨left, hnone, -⟩
        cases hnone
      · rintro ⟨hne, hheld⟩
        cases mode with
        | exclusive => exact hheld.elim
        | shared =>
          exact absurd (hempty ▸ Finset.mem_erase.mpr ⟨hne, hheld⟩) (Finset.notMem_empty t)
    next =>
      cases mode with
      | exclusive =>
        constructor
        · rintro ⟨left, hleft, hheld⟩
          obtain rfl := Option.some.inj hleft
          exact hheld.elim
        · exact fun h => h.2.elim
      | shared =>
        constructor
        · rintro ⟨left, hleft, hheld⟩
          obtain rfl := Option.some.inj hleft
          exact Finset.mem_erase.mp hheld
        · exact fun h => ⟨_, rfl, Finset.mem_erase.mpr h⟩

theorem holds_release : (m.release txn).Holds k mode t ↔ t ≠ txn ∧ m.Holds k mode t := by
  constructor
  · rintro ⟨left, hlock, hheld⟩
    obtain ⟨entry, hentry, hleft⟩ := Option.bind_eq_some_iff.mp hlock
    obtain ⟨hne, hheld⟩ := holds_releaseEntry.mp ⟨left, hleft, hheld⟩
    exact ⟨hne, entry, hentry, hheld⟩
  · rintro ⟨hne, entry, hentry, hheld⟩
    obtain ⟨left, hleft, hheld⟩ := holds_releaseEntry.mpr ⟨hne, hheld⟩
    exact ⟨left, Option.bind_eq_some_iff.mpr ⟨entry, hentry, hleft⟩, hheld⟩

theorem noEmptyShare_release : (m.release txn).NoEmptyShare := by
  intro key holders hlock
  obtain ⟨entry, -, hleft⟩ := Option.bind_eq_some_iff.mp hlock
  cases entry with
  | exclusive holder =>
    rw [releaseEntry] at hleft
    split at hleft
    next => cases hleft
    next => cases Option.some.inj hleft
  | shared holders =>
    rw [releaseEntry] at hleft
    split at hleft
    next => cases hleft
    next hsome =>
      obtain rfl := LockEntry.shared.inj (Option.some.inj hleft)
      exact Finset.nonempty_iff_ne_empty.mpr hsome

section

variable [DecidableEq κ]

/-- An answer to a request for a row: a grant, or the locks are as they were. -/
def Answers (m : LockManager κ) (key : κ) (mode : LockMode) (txn : ℕ)
    (result : LockAnswer × LockManager κ) : Prop :=
  (result.1 = .granted ∧ Grants m result.2 key mode txn) ∨
    result.1 ≠ .granted ∧ result.2.rowLocks = m.rowLocks

omit [DecidableEq κ] in
theorem Answers.keeps {result : LockAnswer × LockManager κ}
    (h : Answers m key mode txn result) (k : κ) (mode' : LockMode) (t : ℕ)
    (hholds : m.Holds k mode' t) : result.2.Holds k mode' t := by
  rcases h with ⟨-, hgrants⟩ | ⟨-, hlocks⟩
  · exact hgrants.keeps k mode' t hholds
  · exact (holds_congr hlocks).mpr hholds

theorem attempt_answers (hm : m.NoEmptyShare) (horder : m.Enumerates key order) (timed : Bool) :
    Answers m key mode txn (m.attempt mode key txn timed order) := by
  rcases attempt_cases timed horder with ⟨m', hgrant, hresult⟩ | ⟨holder, -, hlocks, hanswer⟩
  · rw [hresult]
    exact .inl ⟨rfl, tryGrant_grants hm horder hgrant⟩
  · refine .inr ⟨?_, hlocks⟩
    rw [hanswer]
    split
    · nofun
    · split <;> nofun

theorem retry_answers (hm : m.NoEmptyShare) (horder : m.Enumerates key order) (expired : Bool) :
    Answers m key mode txn (m.retry mode key txn expired order) := by
  rw [retry]
  split
  next m' hgrant =>
    obtain ⟨hkeeps, hholds, hshare⟩ := tryGrant_grants hm horder hgrant
    exact .inl ⟨rfl, hkeeps, hholds, hshare⟩
  next holder m' hrefused =>
    obtain ⟨rfl, -⟩ := inTheWay_of_refused horder hrefused
    refine .inr ⟨fun hgranted => ?_, ?_⟩
    · split at hgranted
      next => cases hgranted
      next => cases hgranted
    · split <;> rfl

end

end LockManager

variable (m : RangeLockManager κ)

namespace RangeLockManager

variable {κ : Type}

/-- What a release leaves: everything of the transaction is gone, and everything else is there. -/
structure Released (m m' : RangeLockManager κ) (txn : ℕ) : Prop where
  rows : ∀ key mode t, m'.rows.Holds key mode t ↔ t ≠ txn ∧ m.rows.Holds key mode t
  gapLocks : ∀ table, m'.gapLocks table = (m.gapLocks table).filter (·.holder ≠ txn)
  predicateReads : ∀ table,
    m'.predicateReads table = (m.predicateReads table).filter (·.holder ≠ txn)
  predicateViolations : ∀ t, t ∈ m'.predicateViolations ↔ t ≠ txn ∧ t ∈ m.predicateViolations

theorem release_released (txn : ℕ) : Released m (m.release txn) txn where
  rows _ _ _ := holds_release
  gapLocks _ := rfl
  predicateReads _ := rfl
  predicateViolations _ := Finset.mem_erase

end RangeLockManager

namespace RangeLockSystem

open Transition

variable {κ : Type} [DecidableEq κ] {s s' : RangeLockSystem κ}

/-- What every step keeps: no share without a holder, and whoever was granted a row holds it. -/
structure Holding (s : RangeLockSystem κ) : Prop where
  noEmptyShare : s.manager.rows.NoEmptyShare
  granted : ∀ g ∈ s.granted, s.manager.rows.Holds g.2.1 g.2.2 g.1

omit [DecidableEq κ] in
theorem init_holding : (init : RangeLockSystem κ).Holding where
  noEmptyShare := nofun
  granted := nofun

omit [DecidableEq κ] in
theorem Holding.of_rowLocks_eq (h : s.Holding)
    (hlocks : s'.manager.rows.rowLocks = s.manager.rows.rowLocks)
    (hgranted : s'.granted = s.granted) : s'.Holding where
  noEmptyShare := noEmptyShare_congr hlocks h.noEmptyShare
  granted g hg := (holds_congr hlocks).mpr (h.granted g (hgranted ▸ hg))

omit [DecidableEq κ] in
theorem answered_row_holding {key : κ} {mode : LockMode} {txn : ℕ}
    {result : LockAnswer × LockManager κ} (h : s.Holding)
    (hresult : Answers s.manager.rows key mode txn result) :
    (s.answered (.row key mode) txn result).Holding := by
  obtain ⟨answer, m'⟩ := result
  rcases hresult with ⟨rfl, hgrants⟩ | ⟨hnot, hlocks⟩
  · refine ⟨hgrants.noEmptyShare, fun g hg => ?_⟩
    rcases List.mem_cons.mp hg with rfl | hg
    · exact hgrants.holds
    · exact hgrants.keeps _ _ _ (h.granted g hg)
  · refine h.of_rowLocks_eq hlocks ?_
    cases answer with
    | granted => exact absurd rfl hnot
    | _ => rfl

theorem request_holding {mode : LockMode} {key : κ} {txn : ℕ} {timed : Bool} {order : List ℕ}
    (h : s.Holding) (hstep : s.request mode key txn timed order = some s') : s'.Holding := by
  obtain ⟨⟨-, horder⟩, hs'⟩ := Option.ite_none_right_eq_some.mp hstep
  obtain rfl := Option.some.inj hs'
  exact answered_row_holding h (attempt_answers h.noEmptyShare horder timed)

theorem registerGapConflict_rowLocks (txn holder : ℕ) (timed : Bool) :
    (m.registerGapConflict txn holder timed).2.rowLocks = m.rows.rowLocks := by
  rw [RangeLockManager.registerGapConflict]
  split <;> rfl

theorem retryGap_rowLocks (table : String) (txn holder : ℕ) (expired : Bool) :
    (m.retryGap table txn holder expired).2.rowLocks = m.rows.rowLocks := by
  rw [RangeLockManager.retryGap]
  split
  · split <;> rfl
  · rfl

theorem release_holding {txn : ℕ} (h : s.Holding) (hstep : s.step (.release txn) = some s') :
    s'.Holding := by
  obtain rfl := Option.some.inj hstep
  refine ⟨noEmptyShare_release, fun g hg => ?_⟩
  obtain ⟨hg, hne⟩ := List.mem_filter.mp hg
  exact holds_release.mpr ⟨of_decide_eq_true hne, h.granted g hg⟩

theorem step_holding {event : RangeLockEvent κ} (h : s.Holding)
    (hstep : s.step event = some s') : s'.Holding := by
  cases event with
  | acquire key txn timed order | acquireShared key txn timed order => exact request_holding h hstep
  | registerGapConflict table txn holder timed =>
    obtain ⟨-, hs'⟩ := Option.ite_none_right_eq_some.mp hstep
    obtain rfl := Option.some.inj hs'
    exact h.of_rowLocks_eq (registerGapConflict_rowLocks ..) rfl
  | wake txn expired order =>
    rw [step] at hstep
    split at hstep
    next => exact nomatch hstep
    next key mode _ =>
      obtain ⟨horder, hs'⟩ := Option.ite_none_right_eq_some.mp hstep
      obtain rfl := Option.some.inj hs'
      exact answered_row_holding h (retry_answers h.noEmptyShare horder expired)
    next table holder _ =>
      obtain rfl := Option.some.inj hstep
      exact h.of_rowLocks_eq (retryGap_rowLocks ..) rfl
  | release txn => exact release_holding h hstep
  | acquireGap table row | registerPredicateRead table row | flagPredicateViolation txn
  | takePredicateViolation txn => exact Option.some.inj hstep ▸ h.of_rowLocks_eq rfl rfl

/-- In every state a row is free, or has one exclusive holder, or is shared by some; whoever was
granted it and not released since holds it in that mode at least; and a release takes away what
its transaction has, and nothing else. -/
theorem reaches_holding (h : Reaches step anyStep init s) :
    (∀ key, s.manager.rows.rowLocks key = none ∨
      (∃ holder, s.manager.rows.rowLocks key = some (.exclusive holder)) ∨
      ∃ holders : Finset ℕ, holders.Nonempty ∧
        s.manager.rows.rowLocks key = some (.shared holders)) ∧
      (∀ txn key mode, (txn, key, mode) ∈ s.granted → s.manager.rows.Holds key mode txn) ∧
      ∀ txn, s.manager.Released (s.manager.release txn) txn := by
  have hholding : s.Holding := h.invariant (fun _ _ _ hs _ => step_holding hs) init_holding
  refine ⟨fun key => ?_, fun txn key mode hg => hholding.granted _ hg,
    s.manager.release_released⟩
  cases hlock : s.manager.rows.rowLocks key with
  | none => exact .inl rfl
  | some entry =>
    cases entry with
    | exclusive holder => exact .inr (.inl ⟨holder, rfl⟩)
    | shared holders =>
      exact .inr (.inr ⟨holders, hholding.noEmptyShare key holders hlock, rfl⟩)

/-- A shared row, upgraded by its only holder; another waits for it. -/
def upgraded : List (RangeLockEvent (String × String)) :=
  [.acquireShared ("t", "a") 1 true [], .acquire ("t", "a") 1 true [1],
    .acquireShared ("t", "a") 2 true []]

theorem reaches_holding_upgraded : ∃ s : RangeLockSystem (String × String),
    Reaches step anyStep init s ∧ s.asleep 2 = some (.row ("t", "a") .shared) ∧
      s.manager.rows.Holds ("t", "a") .exclusive 1 := by
  have hrun := Reaches.of_exec upgraded (execOk_anyStep step init upgraded) rfl
  refine ⟨_, hrun, rfl, ?_⟩
  exact (reaches_holding hrun).2.1 1 ("t", "a") .exclusive List.mem_cons_self

end RangeLockSystem

end RusqlEngine
