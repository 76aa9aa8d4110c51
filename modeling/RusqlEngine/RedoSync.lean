import RusqlEngine.Library.Transition

/-!
# The redo log as a durability barrier

Committers append batches under one mutex and wait for an `fsync` under another, so that the
steps of a `sync` come between appends, failing appends and a `clear`. The handle that a `sync`
takes is the one that a failing append or a `clear` closes.
-/

namespace RusqlEngine

open Transition

/-- How far the `sync` has come that holds `sync_mu_`. -/
inductive SyncPhase
  | entered (seq : ℕ)
  | targeted (seq target : ℕ)
  | captured (seq target handle : ℕ)
  | flushed (seq target : ℕ)

/-- `RedoLog` with its file. Batches are numbered from 1; the file holds those after `cleared`.
`fsyncs` notes what each completed `fsync` found there, `returned` what `sync` has returned for. -/
structure SyncedLog where
  appended : ℕ
  synced : ℕ
  fp : Option ℕ
  handles : ℕ
  syncing : Option SyncPhase
  cleared : ℕ
  fsyncs : List (ℕ × ℕ)
  returned : List ℕ

/-- A step under one of the mutexes. `sync` is called with a number that `append_batch` has
returned. -/
inductive SyncStep
  | append
  | appendFails (opens : Bool)
  | enter (seq : ℕ)
  | loadTarget
  | capture
  | fsync (ok : Bool)
  | store
  | clear

namespace SyncedLog

def start : SyncedLog where
  appended := 0
  synced := 0
  fp := none
  handles := 0
  syncing := none
  cleared := 0
  fsyncs := []
  returned := []

/-- `append_batch`: the file is opened where it is not, and the record is written. -/
def append (s : SyncedLog) : SyncedLog :=
  match s.fp with
  | some _ => { s with appended := s.appended + 1 }
  | none =>
    { s with fp := some s.handles, handles := s.handles + 1, appended := s.appended + 1 }

/-- `append_batch` throws: the file could not be opened, or the record not be written whole. -/
def appendFails (s : SyncedLog) (opens : Bool) : Option SyncedLog :=
  match s.fp with
  | some _ => if opens then some { s with fp := none } else none
  | none => some (if opens then { s with handles := s.handles + 1 } else s)

/-- `sync` takes `sync_mu_`, and returns where another's `fsync` covers the batch. -/
def enter (s : SyncedLog) (seq : ℕ) : Option SyncedLog :=
  if seq ≤ s.appended then
    match s.syncing with
    | some _ => none
    | none =>
      if seq ≤ s.synced then some { s with returned := seq :: s.returned }
      else some { s with syncing := some (.entered seq) }
  else none

/-- `target = appended_.load()`. -/
def loadTarget (s : SyncedLog) : Option SyncedLog :=
  match s.syncing with
  | some (.entered seq) => some { s with syncing := some (.targeted seq s.appended) }
  | _ => none

/-- `fp = fp_`; `sync` returns where there is none. -/
def capture (s : SyncedLog) : Option SyncedLog :=
  match s.syncing with
  | some (.targeted seq target) =>
    match s.fp with
    | none => some { s with syncing := none, returned := seq :: s.returned }
    | some handle => some { s with syncing := some (.captured seq target handle) }
  | _ => none

/-- `fsync` of the handle; one that has been closed in the meantime flushes nothing. -/
def fsync (s : SyncedLog) (ok : Bool) : Option SyncedLog :=
  match s.syncing with
  | some (.captured seq target handle) =>
    if ok then
      let s := if s.fp = some handle then
        { s with fsyncs := (s.cleared, s.appended) :: s.fsyncs } else s
      some { s with syncing := some (.flushed seq target) }
    else some { s with syncing := none }
  | _ => none

/-- `synced_ = target`, and `sync` returns. -/
def store (s : SyncedLog) : Option SyncedLog :=
  match s.syncing with
  | some (.flushed seq target) =>
    some { s with syncing := none, synced := target, returned := seq :: s.returned }
  | _ => none

def clear (s : SyncedLog) : SyncedLog :=
  { s with fp := none, cleared := s.appended, synced := s.appended }

def step (s : SyncedLog) : SyncStep → Option SyncedLog
  | .append => some s.append
  | .appendFails opens => s.appendFails opens
  | .enter seq => s.enter seq
  | .loadTarget => s.loadTarget
  | .capture => s.capture
  | .fsync ok => s.fsync ok
  | .store => s.store
  | .clear => some s.clear

/-- A completed `fsync` found the batch in the file, or a `clear` has removed it. -/
def Settled (s : SyncedLog) (batch : ℕ) : Prop :=
  (∃ found ∈ s.fsyncs, found.1 < batch ∧ batch ≤ found.2) ∨ batch ≤ s.cleared

def SettledUpTo (s : SyncedLog) (last : ℕ) : Prop :=
  ∀ batch, 1 ≤ batch → batch ≤ last → s.Settled batch

/-- What `sync` promises. -/
def Barrier (s : SyncedLog) : Prop :=
  ∀ seq ∈ s.returned, s.SettledUpTo seq

/-- No append fails while the file holds a batch that no `fsync` has found there. -/
def appendsFailSettled (s : SyncedLog) : SyncStep → Prop
  | .appendFails _ => s.SettledUpTo s.appended
  | _ => True

section

/-- What is known while a `sync` is on its way. -/
def PhaseSound (s : SyncedLog) : SyncPhase → Prop
  | .entered seq => seq ≤ s.appended
  | .targeted seq target => seq ≤ target ∧ target ≤ s.appended
  | .captured seq target handle => seq ≤ target ∧ target ≤ s.appended ∧ handle < s.handles ∧
      (s.fp = some handle ∨ s.SettledUpTo target)
  | .flushed seq target => seq ≤ target ∧ s.SettledUpTo target

structure Sound (s : SyncedLog) : Prop where
  cleared_le : s.cleared ≤ s.appended
  synced : s.SettledUpTo s.synced
  closed : s.fp = none → s.SettledUpTo s.appended
  handle_lt : ∀ handle, s.fp = some handle → handle < s.handles
  phase : ∀ p, s.syncing = some p → s.PhaseSound p
  barrier : s.Barrier

variable {s s' : SyncedLog} {last last' : ℕ}

theorem SettledUpTo.mono (h : s.SettledUpTo last) (hle : last' ≤ last) : s.SettledUpTo last' :=
  fun batch hone hbatch => h batch hone (Nat.le_trans hbatch hle)

theorem SettledUpTo.later (h : s.SettledUpTo last) (hfsyncs : ∀ x ∈ s.fsyncs, x ∈ s'.fsyncs)
    (hcleared : s.cleared ≤ s'.cleared) : s'.SettledUpTo last := by
  intro batch hone hbatch
  rcases h batch hone hbatch with ⟨found, hfound, hin⟩ | hgone
  · exact .inl ⟨found, hfsyncs found hfound, hin⟩
  · exact .inr (Nat.le_trans hgone hcleared)

theorem settledUpTo_cleared (s : SyncedLog) : s.SettledUpTo s.cleared :=
  fun _ _ hbatch => .inr hbatch

theorem start_sound : start.Sound where
  cleared_le := Nat.le_refl 0
  synced := start.settledUpTo_cleared
  closed := fun _ => start.settledUpTo_cleared
  handle_lt := fun _ => nofun
  phase := fun _ => nofun
  barrier := nofun

theorem PhaseSound.later {p : SyncPhase} (h : s.PhaseSound p)
    (happended : s.appended ≤ s'.appended) (hhandles : s.handles ≤ s'.handles)
    (hfsyncs : ∀ x ∈ s.fsyncs, x ∈ s'.fsyncs) (hcleared : s.cleared ≤ s'.cleared)
    (hfp : s'.fp = s.fp ∨ s'.SettledUpTo s.appended) : s'.PhaseSound p := by
  cases p with
  | entered seq => exact Nat.le_trans h happended
  | targeted seq target => exact ⟨h.1, Nat.le_trans h.2 happended⟩
  | captured seq target handle =>
    obtain ⟨hseq, htarget, hlt, hlive⟩ := h
    refine ⟨hseq, Nat.le_trans htarget happended, Nat.lt_of_lt_of_le hlt hhandles, ?_⟩
    rcases hfp with hsame | hsettled
    · rw [hsame]
      exact hlive.imp_right fun hsettled => hsettled.later hfsyncs hcleared
    · exact .inr (hsettled.mono htarget)
  | flushed seq target => exact ⟨h.1, h.2.later hfsyncs hcleared⟩

theorem append_sound (h : s.Sound) : s.append.Sound := by
  rw [append]
  split
  next handle hopen =>
    refine { h with
      cleared_le := Nat.le_succ_of_le h.cleared_le
      closed := fun hclosed => ?_
      phase := fun p hp => ?_ }
    · exact nomatch hopen.symm.trans hclosed
    · exact (h.phase p hp).later (Nat.le_succ _) (Nat.le_refl _) (fun _ => id) (Nat.le_refl _)
        (.inl rfl)
  next hclosed =>
    refine { h with
      cleared_le := Nat.le_succ_of_le h.cleared_le
      closed := nofun
      handle_lt := fun handle hhandle => ?_
      phase := fun p hp => ?_ }
    · obtain rfl := Option.some.inj hhandle
      exact Nat.lt_succ_self _
    · exact (h.phase p hp).later (Nat.le_succ _) (Nat.le_succ _) (fun _ => id) (Nat.le_refl _)
        (.inr (h.closed hclosed))

theorem appendFails_sound {opens : Bool} (h : s.Sound) (hsettled : s.SettledUpTo s.appended)
    (hstep : s.appendFails opens = some s') : s'.Sound := by
  rw [appendFails] at hstep
  split at hstep
  next handle hopen =>
    split at hstep
    next =>
      obtain rfl := Option.some.inj hstep
      refine { h with
        closed := fun _ => hsettled
        handle_lt := nofun
        phase := fun p hp => ?_ }
      exact (h.phase p hp).later (Nat.le_refl _) (Nat.le_refl _) (fun _ => id) (Nat.le_refl _)
        (.inr hsettled)
    next => exact nomatch hstep
  next hclosed =>
    obtain rfl := Option.some.inj hstep
    split
    next =>
      refine { h with
        handle_lt := fun handle hhandle => Nat.lt_succ_of_lt (h.handle_lt handle hhandle)
        phase := fun p hp => ?_ }
      exact (h.phase p hp).later (Nat.le_refl _) (Nat.le_succ _) (fun _ => id) (Nat.le_refl _)
        (.inl rfl)
    next => exact h

theorem clear_sound (h : s.Sound) : s.clear.Sound := by
  have hall : s.clear.SettledUpTo s.appended := s.clear.settledUpTo_cleared
  refine {
    cleared_le := Nat.le_refl _
    synced := hall
    closed := fun _ => hall
    handle_lt := nofun
    phase := fun p hp => ?_
    barrier := fun seq hseq => (h.barrier seq hseq).later (fun _ => id) h.cleared_le }
  exact (h.phase p hp).later (Nat.le_refl _) (Nat.le_refl _) (fun _ => id) h.cleared_le
    (.inr hall)

theorem enter_sound {seq : ℕ} (h : s.Sound) (hstep : s.enter seq = some s') : s'.Sound := by
  rw [enter] at hstep
  split at hstep
  next hseq =>
    split at hstep
    next => exact nomatch hstep
    next hfree =>
      split at hstep
      next hcovered =>
        obtain rfl := Option.some.inj hstep
        refine { h with barrier := fun seq' hmem => ?_ }
        rcases List.mem_cons.mp hmem with rfl | hmem
        · exact h.synced.mono hcovered
        · exact h.barrier seq' hmem
      next =>
        obtain rfl := Option.some.inj hstep
        refine { h with phase := fun p hp => ?_ }
        obtain rfl := Option.some.inj hp
        exact hseq
  next => exact nomatch hstep

theorem loadTarget_sound (h : s.Sound) (hstep : s.loadTarget = some s') : s'.Sound := by
  rw [loadTarget] at hstep
  split at hstep
  next seq hphase =>
    obtain rfl := Option.some.inj hstep
    refine { h with phase := fun p hp => ?_ }
    obtain rfl := Option.some.inj hp
    exact ⟨h.phase _ hphase, Nat.le_refl _⟩
  next => exact nomatch hstep

theorem capture_sound (h : s.Sound) (hstep : s.capture = some s') : s'.Sound := by
  rw [capture] at hstep
  split at hstep
  next seq target hphase =>
    obtain ⟨hseq, htarget⟩ := h.phase _ hphase
    split at hstep
    next hclosed =>
      obtain rfl := Option.some.inj hstep
      refine { h with
        phase := nofun
        barrier := fun seq' hmem => ?_ }
      rcases List.mem_cons.mp hmem with rfl | hmem
      · exact (h.closed hclosed).mono (Nat.le_trans hseq htarget)
      · exact h.barrier seq' hmem
    next handle hopen =>
      obtain rfl := Option.some.inj hstep
      refine { h with phase := fun p hp => ?_ }
      obtain rfl := Option.some.inj hp
      exact ⟨hseq, htarget, h.handle_lt handle hopen, .inl hopen⟩
  next => exact nomatch hstep

theorem fsync_sound {ok : Bool} (h : s.Sound) (hstep : s.fsync ok = some s') : s'.Sound := by
  rw [fsync] at hstep
  split at hstep
  next seq target handle hphase =>
    obtain ⟨hseq, htarget, -, hlive⟩ := h.phase _ hphase
    split at hstep
    next =>
      obtain rfl := Option.some.inj hstep
      split
      next hopen =>
        have hfsyncs : ∀ x ∈ s.fsyncs, x ∈ (s.cleared, s.appended) :: s.fsyncs := fun x =>
          List.mem_cons_of_mem _
        refine {
          cleared_le := h.cleared_le
          synced := h.synced.later hfsyncs (Nat.le_refl _)
          closed := fun hclosed => (nomatch hopen.symm.trans hclosed)
          handle_lt := h.handle_lt
          phase := fun p hp => ?_
          barrier := fun seq' hmem => (h.barrier seq' hmem).later hfsyncs (Nat.le_refl _) }
        obtain rfl := Option.some.inj hp
        refine ⟨hseq, fun batch _ hbatch => ?_⟩
        by_cases hgone : batch ≤ s.cleared
        · exact .inr hgone
        · refine .inl ⟨_, List.mem_cons_self, Nat.lt_of_not_le hgone, ?_⟩
          exact Nat.le_trans hbatch htarget
      next hstale =>
        refine { h with phase := fun p hp => ?_ }
        obtain rfl := Option.some.inj hp
        exact ⟨hseq, hlive.resolve_left hstale⟩
    next =>
      obtain rfl := Option.some.inj hstep
      exact { h with phase := nofun }
  next => exact nomatch hstep

theorem store_sound (h : s.Sound) (hstep : s.store = some s') : s'.Sound := by
  rw [store] at hstep
  split at hstep
  next seq target hphase =>
    obtain ⟨hseq, hsettled⟩ := h.phase _ hphase
    obtain rfl := Option.some.inj hstep
    refine { h with
      synced := hsettled
      phase := nofun
      barrier := fun seq' hmem => ?_ }
    rcases List.mem_cons.mp hmem with rfl | hmem
    · exact hsettled.mono hseq
    · exact h.barrier seq' hmem
  next => exact nomatch hstep

/-- A step keeps what the barrier rests on; an append that fails does where it finds everything
settled. -/
theorem step_sound {a : SyncStep} (h : s.Sound) (hok : s.appendsFailSettled a)
    (hstep : s.step a = some s') : s'.Sound := by
  cases a with
  | append => exact Option.some.inj hstep ▸ append_sound h
  | appendFails opens => exact appendFails_sound h hok hstep
  | enter seq => exact enter_sound h hstep
  | loadTarget => exact loadTarget_sound h hstep
  | capture => exact capture_sound h hstep
  | fsync ok => exact fsync_sound h hstep
  | store => exact store_sound h hstep
  | clear => exact Option.some.inj hstep ▸ clear_sound h

end

/-- Where no append fails over a batch that is not settled, every batch up to a number that `sync`
has returned for is settled. -/
theorem sync_barrier {s : SyncedLog} (h : Reaches step appendsFailSettled start s) : s.Barrier :=
  (h.invariant (fun _ _ _ => step_sound) start_sound).barrier

/-- A batch is appended, an append fails, and the committer of the batch calls `sync`. -/
def failedAppend : List SyncStep :=
  [.append, .appendFails true, .enter 1, .loadTarget, .capture]

/-- `sync` returns without an `fsync`. -/
theorem sync_after_failed_append : ¬ ∀ s, Reaches step anyStep start s → s.Barrier := by
  intro hall
  have hrun := Reaches.of_exec failedAppend (execOk_anyStep step start failedAppend) rfl
  rcases hall _ hrun 1 List.mem_cons_self 1 (Nat.le_refl 1) (Nat.le_refl 1) with
    ⟨found, hfound, -⟩ | hcleared
  · exact nomatch hfound
  · exact absurd hcleared (Nat.not_succ_le_zero 0)

/-- An append that fails between the `fsync` and the end of a `sync`. -/
def settledAppend : List SyncStep :=
  [.append, .enter 1, .loadTarget, .capture, .fsync true, .appendFails true, .store]

/-- `sync` returns for a batch that its `fsync` has found. -/
theorem sync_barrier_settled : ∃ s, Reaches step appendsFailSettled start s ∧
    s.returned = [1] ∧ s.Barrier := by
  have hok : execOk step appendsFailSettled start settledAppend := by
    refine execOk_cons trivial rfl (execOk_cons trivial rfl (execOk_cons trivial rfl
      (execOk_cons trivial rfl (execOk_cons trivial rfl (execOk_cons ?_ rfl
        (execOk_cons trivial rfl trivial))))))
    exact fun batch hone hbatch => .inl ⟨(0, 1), List.mem_cons_self, hone, hbatch⟩
  have hrun := Reaches.of_exec settledAppend hok rfl
  exact ⟨_, hrun, rfl, sync_barrier hrun⟩

end SyncedLog

end RusqlEngine
