import Mathlib.Algebra.Ring.Nat
import RusqlEngine.Library.Transition

/-!
# Group commit

A session that has appended its COMMIT record to the log calls `sync_commit`. The first one there
leads: it flushes the file, then ends the generation. A session that comes while the leader is at
it follows, and returns as soon as the generation has changed, whether its record was in the file
at the flush or came after it.
-/

namespace RusqlEngine

open Transition

/-- Where a session is. A record is known by its position in the file. -/
inductive CommitPhase
  | idle
  | appended (record : ℕ)
  | leading (record : ℕ) (flushed : Bool)
  | following (record generation : ℕ)
  | returned (record : ℕ)

/-- `GroupCommitCoordinator`, the COMMIT records in its file and how many of them an `fsync` has
covered, and the sessions. -/
structure GroupCommit where
  records : ℕ
  durable : ℕ
  flushing : Bool
  generation : ℕ
  sessions : ℕ → CommitPhase

/-- A step of a session; `reaches` is whether the file could be opened and the `fsync` went
through. -/
inductive CommitStep
  | append (session : ℕ)
  | enter (session : ℕ)
  | flush (session : ℕ) (reaches : Bool)
  | finish (session : ℕ)
  | wake (session : ℕ)

namespace GroupCommit

def start : GroupCommit where
  records := 0
  durable := 0
  flushing := false
  generation := 0
  sessions := fun _ => .idle

def put (s : GroupCommit) (session : ℕ) (phase : CommitPhase) : GroupCommit :=
  { s with sessions := Function.update s.sessions session phase }

/-- A session between two commits writes the COMMIT record of the next. -/
def append (s : GroupCommit) (session : ℕ) : Option GroupCommit :=
  match s.sessions session with
  | .idle | .returned _ =>
    some { s.put session (.appended s.records) with records := s.records + 1 }
  | _ => none

/-- The first critical section of `sync_commit`. -/
def enter (s : GroupCommit) (session : ℕ) : Option GroupCommit :=
  match s.sessions session with
  | .appended record =>
    if s.flushing then some (s.put session (.following record s.generation))
    else some { s.put session (.leading record false) with flushing := true }
  | _ => none

/-- The leader's `fsync`: whatever is in the file by now. -/
def flush (s : GroupCommit) (session : ℕ) (reaches : Bool) : Option GroupCommit :=
  match s.sessions session with
  | .leading record false =>
    some { s.put session (.leading record true) with
      durable := if reaches then s.records else s.durable }
  | _ => none

/-- The leader's second critical section. -/
def finish (s : GroupCommit) (session : ℕ) : Option GroupCommit :=
  match s.sessions session with
  | .leading record true =>
    some { s.put session (.returned record) with
      flushing := false
      generation := (s.generation + 1) % 2 ^ 64 }
  | _ => none

/-- The follower's wait is over. -/
def wake (s : GroupCommit) (session : ℕ) : Option GroupCommit :=
  match s.sessions session with
  | .following record generation =>
    if s.generation = generation then none else some (s.put session (.returned record))
  | _ => none

def step (s : GroupCommit) : CommitStep → Option GroupCommit
  | .append session => s.append session
  | .enter session => s.enter session
  | .flush session reaches => s.flush session reaches
  | .finish session => s.finish session
  | .wake session => s.wake session

/-- An `fsync` has covered the record since it was appended. -/
def Covered (s : GroupCommit) (record : ℕ) : Prop :=
  record < s.durable

/-- What `sync_commit` promises to whom it returns to. -/
def Promised (s : GroupCommit) : Prop :=
  ∀ session record, s.sessions session = .returned record → s.Covered record

/-- The leader, if there is one, still has its `fsync` before it. -/
def BeforeFlush (s : GroupCommit) : Prop :=
  ∀ session record, s.sessions session ≠ .leading record true

/-- A session comes before the leader's `fsync` or with its record covered, and every `fsync`
reaches the disk. -/
def inTime (s : GroupCommit) : CommitStep → Prop
  | .enter session => s.BeforeFlush ∨
      ∀ record, s.sessions session = .appended record → s.Covered record
  | .flush _ reaches => reaches = true
  | _ => True

section

/-- What the phase of a session says about the file and the coordinator. -/
def PhaseSound (s : GroupCommit) : CommitPhase → Prop
  | .idle => True
  | .appended record => record < s.records
  | .leading record flushed =>
    s.flushing = true ∧ record < s.records ∧ (flushed → s.Covered record)
  | .following record generation => record < s.records ∧
      (s.Covered record ∨ s.flushing ∧ generation = s.generation ∧ s.BeforeFlush)
  | .returned record => s.Covered record

structure Sound (s : GroupCommit) : Prop where
  durable_le : s.durable ≤ s.records
  phase : ∀ session, s.PhaseSound (s.sessions session)
  one_leader : ∀ {a b ra rb fa fb}, s.sessions a = .leading ra fa →
    s.sessions b = .leading rb fb → a = b

theorem start_sound : start.Sound where
  durable_le := Nat.le_refl 0
  phase := fun _ => trivial
  one_leader := nofun

variable {s s' : GroupCommit} {session : ℕ} {phase : CommitPhase}

theorem put_sessions (t : ℕ) : (s.put session phase).sessions t =
    if t = session then phase else s.sessions t :=
  Function.update_apply ..

theorem BeforeFlush.put (h : s.BeforeFlush) (hphase : ∀ r, phase ≠ .leading r true) :
    (s.put session phase).BeforeFlush := by
  intro t record
  rw [put_sessions]
  split
  · exact hphase record
  · exact h t record

theorem PhaseSound.mono (h : s.PhaseSound phase) (hrecords : s.records ≤ s'.records)
    (hdurable : s.durable ≤ s'.durable)
    (hlead : ∀ r flushed, phase = .leading r flushed → s'.flushing)
    (hfollow : s.flushing → s.BeforeFlush →
      s.records ≤ s'.durable ∨ s'.flushing ∧ s'.generation = s.generation ∧ s'.BeforeFlush) :
    s'.PhaseSound phase := by
  cases phase with
  | idle => trivial
  | appended record => exact Nat.lt_of_lt_of_le h hrecords
  | leading record flushed =>
    obtain ⟨-, hrecord, hcovered⟩ := h
    exact ⟨hlead record flushed rfl, Nat.lt_of_lt_of_le hrecord hrecords,
      fun hflushed => Nat.lt_of_lt_of_le (hcovered hflushed) hdurable⟩
  | following record generation =>
    obtain ⟨hrecord, hcovered | ⟨hflushing, rfl, hbefore⟩⟩ := h
    · exact ⟨Nat.lt_of_lt_of_le hrecord hrecords, .inl (Nat.lt_of_lt_of_le hcovered hdurable)⟩
    · refine ⟨Nat.lt_of_lt_of_le hrecord hrecords, ?_⟩
      rcases hfollow hflushing hbefore with hall | ⟨hflushing', hgeneration, hbefore'⟩
      · exact .inl (Nat.lt_of_lt_of_le hrecord hall)
      · exact .inr ⟨hflushing', hgeneration.symm, hbefore'⟩
  | returned record => exact Nat.lt_of_lt_of_le h hdurable

theorem Sound.put (h : s.Sound) (p : CommitPhase)
    (hsessions : s'.sessions = (s.put session p).sessions) (hdurable : s'.durable ≤ s'.records)
    (hphase : s'.PhaseSound p) (hothers : ∀ t, t ≠ session → s'.PhaseSound (s.sessions t))
    (hlead : ∀ r flushed, p = .leading r flushed →
      ∀ t r' flushed', s.sessions t = .leading r' flushed' → t = session) : s'.Sound := by
  have hat : ∀ t, s'.sessions t = if t = session then p else s.sessions t := fun t => by
    rw [hsessions, put_sessions]
  refine ⟨hdurable, fun t => ?_, fun {a b ra rb fa fb} ha hb => ?_⟩
  · rw [hat]
    split
    · exact hphase
    next hne => exact hothers t hne
  · rw [hat] at ha hb
    split at ha
    next heq =>
      split at hb
      next heq' => exact heq.trans heq'.symm
      next hne => exact absurd (hlead ra fa ha b rb fb hb) hne
    next hne =>
      split at hb
      next heq' => exact absurd (hlead rb fb hb a ra fa ha) hne
      next => exact h.one_leader ha hb

theorem append_sound (h : s.Sound) (hstep : s.append session = some s') : s'.Sound := by
  obtain rfl : { s.put session (.appended s.records) with records := s.records + 1 } = s' := by
    rw [append] at hstep
    split at hstep
    · exact Option.some.inj hstep
    · exact Option.some.inj hstep
    · exact nomatch hstep
  refine h.put (.appended s.records) rfl ?_ (Nat.lt_succ_self _) (fun t _ => ?_)
    fun _ _ => nofun
  · exact Nat.le_succ_of_le h.durable_le
  · refine (h.phase t).mono (Nat.le_succ _) (Nat.le_refl _) (fun r flushed hp => ?_) ?_
    · have ht := h.phase t
      rw [hp] at ht
      exact ht.1
    · exact fun hflushing hbefore => .inr ⟨hflushing, rfl, hbefore.put fun _ => nofun⟩

theorem enter_sound (h : s.Sound) (hok : s.inTime (.enter session))
    (hstep : s.enter session = some s') : s'.Sound := by
  rw [enter] at hstep
  split at hstep
  next record hp =>
    have hrecord : s.PhaseSound (.appended record) := hp ▸ h.phase session
    split at hstep
    next hflushing =>
      obtain rfl := Option.some.inj hstep
      refine h.put (.following record s.generation) rfl h.durable_le ⟨hrecord, ?_⟩
        (fun t _ => ?_) fun _ _ => nofun
      · rcases hok with hbefore | hcovered
        · exact .inr ⟨hflushing, rfl, hbefore.put fun _ => nofun⟩
        · exact .inl (hcovered record hp)
      · refine (h.phase t).mono (Nat.le_refl _) (Nat.le_refl _) (fun _ _ _ => hflushing) ?_
        exact fun hflushing hbefore => .inr ⟨hflushing, rfl, hbefore.put fun _ => nofun⟩
    next hfree =>
      obtain rfl := Option.some.inj hstep
      have hnone : ∀ t r flushed, s.sessions t ≠ .leading r flushed := by
        intro t r flushed ht
        have hleads := h.phase t
        rw [ht] at hleads
        exact hfree hleads.1
      refine h.put (.leading record false) rfl h.durable_le ⟨rfl, hrecord, nofun⟩
        (fun t _ => ?_) fun _ _ _ t r' flushed' ht => absurd ht (hnone t r' flushed')
      exact (h.phase t).mono (Nat.le_refl _) (Nat.le_refl _) (fun _ _ _ => rfl)
        fun hflushing => absurd hflushing hfree
  next => exact nomatch hstep

theorem flush_sound (h : s.Sound) (hstep : s.flush session true = some s') : s'.Sound := by
  rw [flush] at hstep
  split at hstep
  next record hp =>
    obtain rfl := Option.some.inj hstep
    have hleads : s.PhaseSound (.leading record false) := hp ▸ h.phase session
    refine h.put (.leading record true) rfl (Nat.le_refl _)
      ⟨hleads.1, hleads.2.1, fun _ => hleads.2.1⟩ (fun t _ => ?_)
      fun _ _ _ t r' flushed' ht => h.one_leader ht hp
    exact (h.phase t).mono (Nat.le_refl _) h.durable_le (fun _ _ _ => hleads.1)
      fun _ _ => .inl (Nat.le_refl _)
  next => exact nomatch hstep

theorem finish_sound (h : s.Sound) (hstep : s.finish session = some s') : s'.Sound := by
  rw [finish] at hstep
  split at hstep
  next record hp =>
    obtain rfl := Option.some.inj hstep
    have hleads : s.PhaseSound (.leading record true) := hp ▸ h.phase session
    refine h.put (.returned record) rfl h.durable_le (hleads.2.2 rfl) (fun t hne => ?_)
      fun _ _ => nofun
    refine (h.phase t).mono (Nat.le_refl _) (Nat.le_refl _) (fun _ _ ht => ?_) fun _ hbefore => ?_
    · exact absurd (h.one_leader ht hp) hne
    · exact absurd hp (hbefore session record)
  next => exact nomatch hstep

theorem wake_sound (h : s.Sound) (hstep : s.wake session = some s') : s'.Sound := by
  rw [wake] at hstep
  split at hstep
  next record generation hp =>
    split at hstep
    next => exact nomatch hstep
    next hended =>
      obtain rfl := Option.some.inj hstep
      have hfollows : s.PhaseSound (.following record generation) := hp ▸ h.phase session
      have hcovered : s.Covered record :=
        hfollows.2.resolve_right fun hwaits => hended hwaits.2.1.symm
      refine h.put (.returned record) rfl h.durable_le hcovered (fun t _ => ?_)
        fun _ _ => nofun
      refine (h.phase t).mono (Nat.le_refl _) (Nat.le_refl _) (fun r flushed ht => ?_) ?_
      · have hleads := h.phase t
        rw [ht] at hleads
        exact hleads.1
      · exact fun hflushing hbefore => .inr ⟨hflushing, rfl, hbefore.put fun _ => nofun⟩
  next => exact nomatch hstep

theorem step_sound {a : CommitStep} (h : s.Sound) (hok : s.inTime a) (hstep : s.step a = some s') :
    s'.Sound := by
  cases a with
  | append session => exact append_sound h hstep
  | enter session => exact enter_sound h hok hstep
  | flush session reaches =>
    obtain rfl : reaches := hok
    exact flush_sound h hstep
  | finish session => exact finish_sound h hstep
  | wake session => exact wake_sound h hstep

end

/-- Where every session comes in time, `sync_commit` returns to none before its record is on the
disk. -/
theorem syncCommit_durable {s : GroupCommit} (h : Reaches step inTime start s) : s.Promised := by
  have hsound : s.Sound := h.invariant (fun _ _ _ => step_sound) start_sound
  intro session record hreturned
  have hphase := hsound.phase session
  rwa [hreturned] at hphase

/-- Two sessions; the second appends its record after the first one's `fsync`. -/
def lateFollower : List CommitStep :=
  [.append 1, .enter 1, .flush 1 true, .append 2, .enter 2, .finish 1, .wake 2]

/-- The second session returns, and no `fsync` has covered its record. -/
theorem syncCommit_late : ¬ ∀ s, Reaches step anyStep start s → s.Promised := by
  intro hall
  have hrun := Reaches.of_exec lateFollower (execOk_anyStep step start lateFollower) rfl
  have hcovered : (1 : ℕ) < 1 := hall _ hrun 2 1 rfl
  exact Nat.lt_irrefl 1 hcovered

def promptFollower : List CommitStep :=
  [.append 1, .append 2, .enter 1, .enter 2, .flush 1 true, .finish 1, .wake 2]

/-- The follower returns, and both records are on the disk. -/
theorem syncCommit_durable_pair : ∃ s, Reaches step inTime start s ∧
    s.sessions 2 = .returned 1 ∧ s.Promised := by
  have hstart : start.BeforeFlush := fun _ _ => nofun
  have happended : (start.put 1 (.appended 0)).BeforeFlush := hstart.put fun _ => nofun
  have hboth : ((start.put 1 (.appended 0)).put 2 (.appended 1)).BeforeFlush :=
    happended.put fun _ => nofun
  have hleads : (((start.put 1 (.appended 0)).put 2 (.appended 1)).put 1
      (.leading 0 false)).BeforeFlush := hboth.put fun _ => nofun
  have hok : execOk step inTime start promptFollower :=
    execOk_cons trivial rfl (execOk_cons trivial rfl (execOk_cons (.inl hboth) rfl
      (execOk_cons (.inl hleads) rfl (execOk_cons rfl rfl (execOk_cons trivial rfl
        (execOk_cons trivial rfl trivial))))))
  have hrun := Reaches.of_exec promptFollower hok rfl
  exact ⟨_, hrun, rfl, syncCommit_durable hrun⟩

end GroupCommit

end RusqlEngine
