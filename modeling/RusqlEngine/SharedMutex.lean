import RusqlEngine.Library.Transition
import RusqlEngine.UniqueProbe
import Mathlib.Algebra.BigOperators.Pi

/-!
# The fair shared mutex

`FairSharedMutex`, a step being a section under its `mutex_`. A call that sleeps in `cv_` wakes up
after a `notify_all`, or by itself, and tests its condition again. Calls step in any order.
-/

namespace RusqlEngine.Sync

open Transition

/-- Where a call is; `woken` says whether `notify_all` has come since it went to sleep. -/
inductive Phase
  | outside
  | sleeping (exclusive woken : Bool)
  | inside (exclusive : Bool)
deriving DecidableEq

namespace Phase

def notified : Phase → Phase
  | .sleeping exclusive _ => .sleeping exclusive true
  | phase => phase

/-- Whether the call holds the mutex, and then whether exclusively. -/
def held : Phase → Option Bool
  | .inside exclusive => some exclusive
  | _ => none

def waitsToWrite : Phase → Bool
  | .sleeping exclusive _ => exclusive
  | _ => false

/-- What a call counts for in the three counters of the mutex. -/
def weight (phase : Phase) : ℕ × ℕ × ℕ :=
  (if phase.held = some false then 1 else 0, if phase.waitsToWrite then 1 else 0,
    if phase.held = some true then 1 else 0)

end Phase

structure FairSharedMutex (ι : Type) where
  readersActive : ℕ
  writersWaiting : ℕ
  writerActive : Bool
  exclusiveCount : ℕ
  phase : ι → Phase

inductive Call (ι : Type)
  | lock (i : ι)
  | lockShared (i : ι)
  | wake (i : ι)
  | unlock (i : ι)
  | unlockShared (i : ι)

namespace FairSharedMutex

section

variable {ι : Type}

def fresh : FairSharedMutex ι where
  readersActive := 0
  writersWaiting := 0
  writerActive := false
  exclusiveCount := 0
  phase := fun _ => .outside

variable (m : FairSharedMutex ι)

def counters : ℕ × ℕ × ℕ := (m.readersActive, m.writersWaiting, m.writerActive.toNat)

/-- The condition that `lock` waits for, and that of `lock_shared`. -/
def may : Bool → Bool
  | true => !m.writerActive && m.readersActive == 0
  | false => !m.writerActive && m.writersWaiting == 0

def notifyAll : FairSharedMutex ι :=
  { m with phase := fun i => (m.phase i).notified }

/-- What `lock` and `lock_shared` do behind `wait`. -/
def take : Bool → FairSharedMutex ι
  | true =>
    { m with
      writersWaiting := m.writersWaiting - 1
      writerActive := true
      exclusiveCount := (m.exclusiveCount + 1) % 2 ^ 64 }
  | false => { m with readersActive := m.readersActive + 1 }

end

section

variable {ι : Type} [DecidableEq ι] (m : FairSharedMutex ι)

def put (i : ι) (phase : Phase) : FairSharedMutex ι :=
  { m with phase := Function.update m.phase i phase }

def enter (i : ι) (exclusive : Bool) : FairSharedMutex ι :=
  if m.may exclusive then (m.take exclusive).put i (.inside exclusive)
  else m.put i (.sleeping exclusive false)

/-- `lock` counts itself as waiting before it tests its condition. -/
def joinLine (i : ι) : FairSharedMutex ι :=
  { m with writersWaiting := m.writersWaiting + 1 }.put i (.sleeping true true)

def unlock (i : ι) : FairSharedMutex ι :=
  ({ m with writerActive := false }.put i .outside).notifyAll

def unlockShared (i : ι) : FairSharedMutex ι :=
  let m' := { m with readersActive := m.readersActive - 1 }.put i .outside
  if m'.readersActive = 0 then m'.notifyAll else m'

def step : Call ι → Option (FairSharedMutex ι)
  | .lock i => if m.phase i = .outside then some ((m.joinLine i).enter i true) else none
  | .lockShared i => if m.phase i = .outside then some (m.enter i false) else none
  | .wake i =>
    match m.phase i with
    | .sleeping exclusive _ => some (m.enter i exclusive)
    | _ => none
  | .unlock i => if m.phase i = .inside true then some (m.unlock i) else none
  | .unlockShared i => if m.phase i = .inside false then some (m.unlockShared i) else none

end

/-! ### Who holds the mutex -/

section

variable {ι : Type} [DecidableEq ι] {m m' : FairSharedMutex ι} {i : ι} {p : Phase}

/-- What changes of who holds the mutex: a call may let go, or takes it while its condition
holds. -/
def Passes (m m' : FairSharedMutex ι) : Prop :=
  ∃ i v, (∀ j, (m'.phase j).held = if j = i then v else (m.phase j).held) ∧
    (v = none ∧ m'.exclusiveCount = m.exclusiveCount ∨
      ∃ exclusive, v = some exclusive ∧ (m.phase i).held = none ∧ m.may exclusive ∧
        m'.exclusiveCount = if exclusive then (m.exclusiveCount + 1) % 2 ^ 64
          else m.exclusiveCount)

theorem put_phase (j : ι) : (m.put i p).phase j = if j = i then p else m.phase j :=
  Function.update_apply ..

theorem held_put (j : ι) :
    ((m.put i p).phase j).held = if j = i then p.held else (m.phase j).held := by
  rw [put_phase, apply_ite Phase.held]

omit [DecidableEq ι] in
theorem held_notifyAll (j : ι) : (m.notifyAll.phase j).held = (m.phase j).held := by
  have hheld (p : Phase) : p.notified.held = p.held := by cases p <;> rfl
  exact hheld (m.phase j)

theorem enter_passes {exclusive : Bool} (hi : (m.phase i).held = none) :
    m.Passes (m.enter i exclusive) := by
  rw [enter]
  split
  next hmay =>
    cases exclusive
    · exact ⟨i, _, held_put, .inr ⟨false, rfl, hi, hmay, rfl⟩⟩
    · exact ⟨i, _, held_put, .inr ⟨true, rfl, hi, hmay, rfl⟩⟩
  next => exact ⟨i, _, held_put, .inl ⟨rfl, rfl⟩⟩

theorem Passes.of_joinLine (hi : m.phase i = .outside) (h : (m.joinLine i).Passes m') :
    m.Passes m' := by
  have hheld (j : ι) : ((m.joinLine i).phase j).held = (m.phase j).held :=
    (held_put j).trans (by split <;> simp_all [Phase.held])
  obtain ⟨k, v, hphase, hv⟩ := h
  simp only [hheld] at hphase hv
  refine ⟨k, v, hphase, hv.imp_right fun ⟨exclusive, hv, hk, hmay, hcount⟩ => ?_⟩
  cases exclusive
  · simp [may, joinLine, put] at hmay
  · exact ⟨true, hv, hk, hmay, hcount⟩

/-- What a step does: a call joins the line of writers, tests its condition or lets go. -/
theorem step_cases {call : Call ι} (hstep : m.step call = some m') : ∃ i,
    m.phase i = .outside ∧ m' = (m.joinLine i).enter i true ∨
      (m.phase i).held = none ∧ m' = m.enter i (m.phase i).waitsToWrite ∨
        m.phase i = .inside true ∧ m' = m.unlock i ∨
          m.phase i = .inside false ∧ m' = m.unlockShared i := by
  cases call with
  | wake i =>
    simp only [step] at hstep
    cases hi : m.phase i with
    | sleeping => exact ⟨i, .inr (.inl (by simp_all [Phase.held, Phase.waitsToWrite]))⟩
    | _ => simp [hi] at hstep
  | lockShared i =>
    obtain ⟨hi, ⟨⟩⟩ := Option.ite_none_right_eq_some.mp hstep
    exact ⟨i, .inr (.inl (by rw [hi]; exact ⟨rfl, rfl⟩))⟩
  | _ i => exact ⟨i, by simp_all [step, eq_comm]⟩

theorem step_passes {call : Call ι} (hstep : m.step call = some m') : m.Passes m' := by
  obtain ⟨i, ⟨hi, rfl⟩ | ⟨hi, rfl⟩ | ⟨-, rfl⟩ | ⟨-, rfl⟩⟩ := step_cases hstep
  · exact (enter_passes ((held_put i).trans (if_pos rfl))).of_joinLine hi
  · exact enter_passes hi
  · exact ⟨i, _, fun j => (held_notifyAll j).trans (held_put j), .inl ⟨rfl, rfl⟩⟩
  · rw [unlockShared]
    split
    next => exact ⟨i, _, fun j => (held_notifyAll j).trans (held_put j), .inl ⟨rfl, rfl⟩⟩
    next => exact ⟨i, _, held_put, .inl ⟨rfl, rfl⟩⟩

end

/-! ### Sound states -/

section

variable {ι : Type} [Fintype ι] {m m' : FairSharedMutex ι} {i : ι} {p : Phase}

/-- The counters are those of the calls, and a writer and a reader are never inside together. -/
structure Counted (m : FairSharedMutex ι) : Prop where
  counted : m.counters = ∑ i, (m.phase i).weight
  apart : m.writerActive → m.readersActive = 0

/-- A call that sleeps without having been woken sleeps behind a condition that does not hold. -/
structure Sound (m : FairSharedMutex ι) : Prop extends Counted m where
  asleep : ∀ i exclusive, m.phase i = .sleeping exclusive false → m.may exclusive = false

theorem fresh_sound : (fresh : FairSharedMutex ι).Sound where
  counted := (Finset.sum_eq_zero fun _ _ => rfl).symm
  apart := nofun
  asleep := nofun

namespace Counted

variable (h : m.Counted)

include h

theorem cards : m.readersActive = {i | (m.phase i).held = some false}.toFinset.card ∧
    m.writersWaiting = {i | (m.phase i).waitsToWrite}.toFinset.card ∧
      m.writerActive.toNat = {i | (m.phase i).held = some true}.toFinset.card := by
  have hcounted := h.counted
  simp only [counters, Prod.ext_iff, Prod.fst_sum, Prod.snd_sum] at hcounted
  simpa [Phase.weight, ← Finset.card_filter] using hcounted

theorem readersActive_pos (hi : (m.phase i).held = some false) : 0 < m.readersActive := by
  rw [h.cards.1]
  exact Finset.card_pos.mpr ⟨i, by simpa using hi⟩

theorem writersWaiting_pos (hi : (m.phase i).waitsToWrite) : 0 < m.writersWaiting := by
  rw [h.cards.2.1]
  exact Finset.card_pos.mpr ⟨i, by simpa using hi⟩

theorem writerActive_of_held (hi : (m.phase i).held = some true) : m.writerActive := by
  refine Bool.eq_true_of_not_eq_false fun hactive => ?_
  have hcard := h.cards.2.2
  rw [hactive, eq_comm, Bool.toNat_false, Finset.card_eq_zero] at hcard
  exact Finset.notMem_empty i (hcard ▸ by simpa using hi)

theorem may_iff (exclusive : Bool) : m.may exclusive ↔
    ∀ i, (m.phase i).held ≠ some true ∧
      if exclusive then (m.phase i).held ≠ some false else (m.phase i).waitsToWrite = false := by
  constructor
  · intro hmay i
    have hactive : m.writerActive ≠ true := by cases exclusive <;> simp_all [may]
    refine ⟨fun hi => hactive (h.writerActive_of_held hi), ?_⟩
    cases exclusive
    · exact Bool.eq_false_iff.mpr fun hi => by simp_all [may, (h.writersWaiting_pos hi).ne']
    · exact fun hi => by simp_all [may, (h.readersActive_pos hi).ne']
  · intro hnone
    have hcards := h.cards
    cases exclusive <;> simp_all [may]

variable [DecidableEq ι]

theorem put {m₁ : FairSharedMutex ι} (hphase : m₁.phase = m.phase)
    (hcount : m.counters + p.weight = m₁.counters + (m.phase i).weight)
    (hapart : m₁.writerActive → m₁.readersActive = 0) : (m₁.put i p).Counted := by
  refine ⟨?_, hapart⟩
  have hrest : ∑ j ∈ Finset.univ.erase i, ((m₁.put i p).phase j).weight =
      ∑ j ∈ Finset.univ.erase i, (m.phase j).weight :=
    Finset.sum_congr rfl fun j hj => by
      rw [put_phase, if_neg (Finset.ne_of_mem_erase hj), hphase]
  rw [h.counted, ← Finset.add_sum_erase _ _ (Finset.mem_univ i), add_comm m₁.counters, add_assoc,
    add_right_inj, add_comm] at hcount
  rw [← Finset.add_sum_erase _ _ (Finset.mem_univ i), put_phase, if_pos rfl, hrest, hcount]
  rfl

omit [DecidableEq ι] in
theorem notifyAll : m.notifyAll.Sound := by
  have hweight (p : Phase) : p.notified.weight = p.weight := by cases p <;> rfl
  have hwoken (p : Phase) (exclusive : Bool) : p.notified ≠ .sleeping exclusive false := by
    cases p <;> simp [Phase.notified]
  refine ⟨⟨?_, h.apart⟩, fun i exclusive hi => absurd hi (hwoken _ exclusive)⟩
  exact h.counted.trans (Finset.sum_congr rfl fun j _ => (hweight _).symm)

end Counted

namespace Sound

variable [DecidableEq ι] (h : m.Sound)

include h

/-- One call changes its phase, and no condition comes true. -/
theorem put {m₁ : FairSharedMutex ι} (hphase : m₁.phase = m.phase) (hcounted : (m₁.put i p).Counted)
    (hmay : ∀ exclusive, m₁.may exclusive → m.may exclusive ∧
      p ≠ .sleeping exclusive false) : (m₁.put i p).Sound := by
  refine ⟨hcounted, fun j exclusive hj => Bool.eq_false_iff.mpr fun htrue => ?_⟩
  rw [put_phase, hphase] at hj
  obtain ⟨hbefore, hp⟩ := hmay exclusive htrue
  split at hj
  next => exact hp hj
  next => exact Bool.eq_false_iff.mp (h.asleep j exclusive hj) hbefore

theorem joinLine (hi : m.phase i = .outside) : (m.joinLine i).Sound := by
  refine h.put rfl (h.toCounted.put rfl (by rw [hi]; rfl) h.apart) fun exclusive hmay => ?_
  cases exclusive
  · simp [may] at hmay
  · exact ⟨hmay, nofun⟩

theorem enter {exclusive : Bool} (hi : (m.phase i).held = none)
    (hwaits : (m.phase i).waitsToWrite = exclusive) : (m.enter i exclusive).Sound := by
  have hweight : (m.phase i).weight = (0, exclusive.toNat, 0) := by
    rw [Phase.weight, hi, hwaits]
    cases exclusive <;> rfl
  rw [FairSharedMutex.enter]
  split
  next hmay =>
    cases exclusive
    · simp only [may, Bool.and_eq_true, Bool.not_eq_true', beq_iff_eq] at hmay
      refine h.put rfl (h.toCounted.put rfl (by rw [hweight]; rfl) ?_) fun other hother => ?_
      · exact fun hactive => absurd hactive (Bool.eq_false_iff.mp hmay.1)
      · cases other
        · exact ⟨hother, nofun⟩
        · simp [may, take] at hother
    · simp only [may, Bool.and_eq_true, Bool.not_eq_true', beq_iff_eq] at hmay
      refine h.put rfl (h.toCounted.put rfl ?_ fun _ => hmay.2) fun other hother => ?_
      · rw [hweight, counters, hmay.1]
        exact Prod.ext rfl (Prod.ext (Nat.sub_add_cancel (h.writersWaiting_pos hwaits)).symm rfl)
      · cases other <;> simp [may, take] at hother
  next hmay =>
    refine h.put rfl (h.toCounted.put rfl ?_ h.apart) fun other hother => ⟨hother, ?_⟩
    · rw [hweight]
      cases exclusive <;> rfl
    · rintro ⟨⟩
      exact hmay hother

theorem unlock (hi : m.phase i = .inside true) : (m.unlock i).Sound := by
  have hcounted : ({ m with writerActive := false }.put i .outside).Counted := by
    refine h.toCounted.put rfl ?_ nofun
    rw [hi, counters, h.writerActive_of_held (i := i) (by rw [hi]; rfl)]
    rfl
  exact hcounted.notifyAll

theorem unlockShared (hi : m.phase i = .inside false) : (m.unlockShared i).Sound := by
  have hpos := h.readersActive_pos (i := i) (by rw [hi]; rfl)
  have hcounted : ({ m with readersActive := m.readersActive - 1 }.put i .outside).Counted := by
    refine h.toCounted.put rfl ?_ fun hactive => by rw [h.apart hactive]
    rw [hi]
    exact Prod.ext (Nat.sub_add_cancel hpos).symm rfl
  rw [FairSharedMutex.unlockShared]
  split
  next => exact hcounted.notifyAll
  next hmany =>
    refine h.put rfl hcounted fun exclusive hmay => ?_
    cases exclusive
    · exact ⟨hmay, nofun⟩
    · simp [may] at hmay
      exact absurd hmay.2 hmany

theorem next {call : Call ι} (hstep : m.step call = some m') : m'.Sound := by
  obtain ⟨i, ⟨hi, rfl⟩ | ⟨hi, rfl⟩ | ⟨hi, rfl⟩ | ⟨hi, rfl⟩⟩ := step_cases hstep
  · have hput : (m.joinLine i).phase i = .sleeping true true := (put_phase i).trans (if_pos rfl)
    exact (h.joinLine hi).enter (by rw [hput]; rfl) (by rw [hput]; rfl)
  · exact h.enter hi rfl
  · exact h.unlock hi
  · exact h.unlockShared hi

end Sound

/-! ### Whole runs -/

variable [DecidableEq ι]

theorem throughout_of_sound {P : FairSharedMutex ι → Prop} (hP : ∀ m, m.Sound → P m)
    (calls : List (Call ι)) : throughout step P fresh calls :=
  throughout_of_invariant hP (fun _ _ _ h hstep => h.next hstep) calls fresh_sound

/-- Over any order of the calls' steps: who holds the mutex exclusively holds it alone, and the
counters are the numbers of those who read and of those who wait to write. -/
theorem exclusive_alone (calls : List (Call ι)) :
    throughout step (fun m : FairSharedMutex ι =>
      m.readersActive = {i | (m.phase i).held = some false}.toFinset.card ∧
        m.writersWaiting = {i | (m.phase i).waitsToWrite}.toFinset.card ∧
          ∀ i j, (m.phase i).held = some true → (m.phase j).held ≠ none → i = j) fresh calls := by
  refine throughout_of_sound (fun m h => ?_) calls
  obtain ⟨hreaders, hwriters, hactive⟩ := h.cards
  refine ⟨hreaders, hwriters, fun i j hi hj => ?_⟩
  have hone := h.writerActive_of_held hi
  rcases hheld : (m.phase j).held with - | - | -
  · exact absurd hheld hj
  · exact absurd (h.apart hone) (h.readersActive_pos hheld).ne'
  · rw [hone, Bool.toNat_true] at hactive
    exact Finset.card_le_one.mp hactive.ge i (by simpa using hi) j (by simpa using hheld)

/-- No wake-up is lost: a call that sleeps with nobody in its way has been notified since it went to
sleep, and goes in when it tests its condition. -/
theorem sleeper_wakes (calls : List (Call ι)) :
    throughout step (fun m : FairSharedMutex ι => ∀ i exclusive woken,
      m.phase i = .sleeping exclusive woken →
      (∀ j, (m.phase j).held ≠ some true ∧ if exclusive then (m.phase j).held ≠ some false
        else (m.phase j).waitsToWrite = false) →
      woken ∧ (m.step (.wake i)).map (·.phase i) = some (.inside exclusive))
      fresh calls := by
  refine throughout_of_sound (fun m h i exclusive woken hi hfree => ?_) calls
  have hmay := (h.may_iff exclusive).mpr hfree
  constructor
  · cases woken
    · exact absurd hmay (Bool.eq_false_iff.mp (h.asleep i exclusive hi))
    · rfl
  · simp [step, hi, enter, hmay, put_phase]

/-- While a call of `lock` waits, nobody comes to read, whatever calls arrive. -/
theorem waiting_writer_first (calls : List (Call ι)) :
    throughout step (fun m : FairSharedMutex ι => ∀ w more m',
      throughout step (fun m => (m.phase w).waitsToWrite = true) m more →
      exec step m more = some m' →
      ∀ i, (m'.phase i).held = some false → (m.phase i).held = some false) fresh calls := by
  refine throughout_of_sound (fun m h w more m' hw hmore i hi => ?_) calls
  induction more generalizing m with
  | nil =>
    cases hmore
    exact hi
  | cons call more ih =>
    obtain ⟨m₁, hstep, hrest⟩ := Option.bind_eq_some_iff.mp hmore
    have hi := ih m₁ (h.next hstep) (hw.2 m₁ hstep) hrest
    obtain ⟨k, v, hphase, hv⟩ := step_passes hstep
    rw [hphase i] at hi
    split at hi
    next =>
      rcases hv with ⟨rfl, -⟩ | ⟨exclusive, rfl, -, hmay, -⟩
      · cases hi
      · obtain rfl := Option.some.inj hi
        exact absurd hw.1 (Bool.eq_false_iff.mp ((h.may_iff false).mp hmay w).2)
    next => exact hi

/-- The mutex as the sessions of `UniqueProbe` see it. -/
structure Shows (m : FairSharedMutex ι) (a : UniqueProbe.FairSharedMutex ι) : Prop where
  writer : ∀ i, (m.phase i).held = some true ↔ a.writer = some i
  readers : ∀ i, (m.phase i).held = some false ↔ i ∈ a.readers
  nodup : a.readers.Nodup
  count : m.exclusiveCount = a.exclusiveCount % 2 ^ 64

/-- One step of the mutex of `UniqueProbe`. -/
def Taken (a a' : UniqueProbe.FairSharedMutex ι) : Prop :=
  ∃ i, (∃ exclusive, a.acquire i exclusive = some a') ∨ a.release i = some a'

theorem Shows.passes {a : UniqueProbe.FairSharedMutex ι} (ha : m.Shows a) (h : m.Sound)
    (hpasses : m.Passes m') : ∃ a', Relation.ReflGen Taken a a' ∧ m'.Shows a' := by
  obtain ⟨hwriter, hreaders, hnodup, hcount⟩ := ha
  obtain ⟨k, v, hphase, ⟨rfl, hsame⟩ | ⟨exclusive, rfl, hk, hmay, hnext⟩⟩ := hpasses
  · rcases hk : (m.phase k).held with - | - | -
    · exact ⟨a, .refl, by grind, by grind, hnodup, hsame.trans hcount⟩
    · exact ⟨{ a with readers := a.readers.erase k },
        .single ⟨k, .inr (by grind [UniqueProbe.FairSharedMutex.release])⟩, by grind, by grind,
        hnodup.erase k, hsame.trans hcount⟩
    · exact ⟨{ a with writer := none },
        .single ⟨k, .inr (by grind [UniqueProbe.FairSharedMutex.release])⟩, by grind, by grind,
        hnodup, hsame.trans hcount⟩
  · have hnone := (h.may_iff exclusive).mp hmay
    have hfree : a.writer = none := Option.eq_none_iff_forall_ne_some.mpr fun i => by grind
    have hk' : ¬ a.HeldBy k := by grind [UniqueProbe.FairSharedMutex.HeldBy]
    cases exclusive
    · exact ⟨{ a with readers := k :: a.readers },
        .single ⟨k, .inl ⟨false, by grind [UniqueProbe.FairSharedMutex.acquire]⟩⟩, by grind,
        by grind, by grind, hnext.trans hcount⟩
    · have hempty : a.readers = [] := List.eq_nil_iff_forall_not_mem.mpr fun i => by grind
      refine ⟨{ a with writer := some k, exclusiveCount := a.exclusiveCount + 1 },
        .single ⟨k, .inl ⟨true, by grind [UniqueProbe.FairSharedMutex.acquire]⟩⟩, by grind,
        by grind, hnodup, ?_⟩
      rw [hnext, hcount, if_pos rfl, Nat.mod_add_mod]

omit [Fintype ι] [DecidableEq ι] in
theorem fresh_shows (id : ℕ) : (fresh : FairSharedMutex ι).Shows (UniqueProbe.newMutex id) where
  writer i := by simp [fresh, Phase.held, UniqueProbe.newMutex]
  readers i := by simp [fresh, Phase.held, UniqueProbe.newMutex]
  nodup := List.nodup_nil
  count := rfl

/-- Along any order of the calls' steps there is one run of the mutex of `UniqueProbe`, which shows
in every state: with each step it stays, or it takes the mutex where that is free, or lets go. -/
theorem refines_acquire_release (calls : List (Call ι)) (id : ℕ) :
    refines step Shows Taken (fresh : FairSharedMutex ι) (UniqueProbe.newMutex id) calls := by
  refine refines_of_simulation (R := fun (m : FairSharedMutex ι) a => m.Sound ∧ m.Shows a)
    (fun _ _ h => h.2) ?_ calls ⟨fresh_sound, fresh_shows id⟩
  rintro m a call m' ⟨h, ha⟩ hstep
  obtain ⟨a', htaken, ha'⟩ := ha.passes h (step_passes hstep)
  exact ⟨a', htaken, h.next hstep, ha'⟩

end

end FairSharedMutex

end RusqlEngine.Sync
