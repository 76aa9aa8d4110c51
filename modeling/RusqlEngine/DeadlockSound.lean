import RusqlEngine.LockHolding

/-!
# Who can make another a deadlock victim

An edge of `wait_for_` is written when a request is refused and goes when the transaction is granted
the row after a wait, times out, or is released on either end; until then the holder keeps what
stood in the way. So while no transaction with an edge is granted a request at once, the walk
follows requests whose refusal stands.
-/

namespace RusqlEngine

open Relation Transition LockManager Function

namespace LockMode

def opposed : LockMode → LockMode
  | .exclusive => .shared
  | .shared => .exclusive

end LockMode

namespace LockManager

variable {κ : Type} {m m' : LockManager κ} {key : κ} {mode : LockMode} {txn a b : ℕ}
  {order : List ℕ}

theorem blocks_iff_holds {entry : LockEntry} :
    entry.Blocks mode b ↔ entry.Holds mode.opposed b := by
  cases entry with
  | exclusive holder => exact Iff.rfl
  | shared holders =>
    cases mode with
    | exclusive => exact ⟨And.right, fun h => ⟨rfl, h⟩⟩
    | shared => exact ⟨fun h => (nomatch h.1), False.elim⟩

theorem inTheWay_iff_holds : m.InTheWay mode key a b ↔ b ≠ a ∧ m.Holds key mode.opposed b := by
  rw [InTheWay, Holds]
  simp only [blocks_iff_holds]

end LockManager

namespace RangeLockSystem

variable {κ : Type} {s s' : RangeLockSystem κ}

/-- The transaction stands in the way of what the other waits for: on a row by what it holds now, on
a gap as the holder the caller named. -/
def StandsInWay (m : LockManager κ) : LockWait κ → ℕ → ℕ → Prop
  | .row key mode, a, b => m.InTheWay mode key a b
  | .gap _ holder, _, b => b = holder

/-- A request of the first transaction was refused and the refusal stands, and the second stands in
its way. -/
def RefusedBy (s : RangeLockSystem κ) (a b : ℕ) : Prop :=
  ∃ wait, s.refused a = some wait ∧ StandsInWay s.manager.rows wait a b

/-- No edge starts from the transaction, or the row is held against it. -/
def EdgeOrWay (s : RangeLockSystem κ) (mode : LockMode) (key : κ) (txn : ℕ) : Prop :=
  (∀ edge ∈ s.manager.rows.waitFor, edge.1 ≠ txn) ∨
    ∃ holder, s.manager.rows.InTheWay mode key txn holder

/-- No request is granted at once to a transaction that still has an edge. -/
def noStaleEdge (s : RangeLockSystem κ) : RangeLockEvent κ → Prop
  | .acquire key txn _ _ => s.EdgeOrWay .exclusive key txn
  | .acquireShared key txn _ _ => s.EdgeOrWay .shared key txn
  | _ => True

/-- Every edge stands for a refusal, and what a transaction sleeps on is its refused request. -/
structure EdgesSound (s : RangeLockSystem κ) : Prop where
  holding : s.Holding
  edges : ∀ edge ∈ s.manager.rows.waitFor, s.RefusedBy edge.1 edge.2
  sleeper : ∀ txn wait, s.asleep txn = some wait →
    s.refused txn = some wait ∨ s.refused txn = none

theorem StandsInWay.mono {m m' : LockManager κ} {wait : LockWait κ} {a b : ℕ}
    (h : StandsInWay m wait a b) (hkeeps : ∀ k mode t, m.Holds k mode t → m'.Holds k mode t) :
    StandsInWay m' wait a b := by
  cases wait with
  | row key mode =>
    obtain ⟨hne, hholds⟩ := inTheWay_iff_holds.mp h
    exact inTheWay_iff_holds.mpr ⟨hne, hkeeps _ _ _ hholds⟩
  | gap table holder => exact h

/-- An answer to a transaction, by what it leaves of the edges. -/
inductive Leaves (s : RangeLockSystem κ) (wait : LockWait κ) (txn : ℕ)
    (result : LockAnswer × LockManager κ) : Prop
  | cleared (hrefusal : refusalAfter wait (s.refused txn) result.1 = none)
      (hanswer : result.1 ≠ .asleep)
      (hedges : ∀ edge ∈ result.2.waitFor, edge ∈ s.manager.rows.waitFor ∧ edge.1 ≠ txn)
  | stands (hrefusal : refusalAfter wait (s.refused txn) result.1 = some wait)
      (hedges : ∀ edge ∈ result.2.waitFor, edge ∈ s.manager.rows.waitFor ∧ edge.1 ≠ txn ∨
        edge.1 = txn ∧ StandsInWay result.2 wait txn edge.2)
  | victim (hrefusal : refusalAfter wait (s.refused txn) result.1 = s.refused txn)
      (hanswer : result.1 ≠ .asleep)
      (hedges : result.2.waitFor = s.manager.rows.waitFor)

theorem answered_edges {wait : LockWait κ} {txn : ℕ} {result : LockAnswer × LockManager κ}
    (h : s.EdgesSound) (hholding : (s.answered wait txn result).Holding)
    (hkeeps : ∀ k mode t, s.manager.rows.Holds k mode t → result.2.Holds k mode t)
    (hleaves : Leaves s wait txn result) : (s.answered wait txn result).EdgesSound := by
  have hother : ∀ edge ∈ s.manager.rows.waitFor, edge.1 ≠ txn →
      (s.answered wait txn result).RefusedBy edge.1 edge.2 := by
    intro edge hedge hne
    obtain ⟨w, hrefused, hway⟩ := h.edges edge hedge
    exact ⟨w, (update_of_ne hne ..).trans hrefused, hway.mono hkeeps⟩
  have hself : (s.answered wait txn result).refused txn =
      refusalAfter wait (s.refused txn) result.1 := update_self ..
  refine ⟨hholding, fun edge hedge => ?_, fun t w hasleep => ?_⟩
  · cases hleaves with
    | cleared _ _ hedges => exact hother edge (hedges edge hedge).1 (hedges edge hedge).2
    | stands hrefusal hedges =>
      rcases hedges edge hedge with ⟨hold, hne⟩ | ⟨heq, hway⟩
      · exact hother edge hold hne
      · exact ⟨wait, heq ▸ hself.trans hrefusal, heq ▸ hway⟩
    | victim hrefusal _ hedges =>
      have hold : edge ∈ s.manager.rows.waitFor := hedges ▸ hedge
      by_cases heq : edge.1 = txn
      · obtain ⟨w, hrefused, hway⟩ := h.edges edge hold
        rw [heq] at hrefused hway ⊢
        exact ⟨w, (hself.trans hrefusal).trans hrefused, hway.mono hkeeps⟩
      · exact hother edge hold heq
  · by_cases heq : t = txn
    · subst heq
      have hat : (s.answered wait t result).asleep t =
          if result.1 = .asleep then some wait else none := update_self ..
      rw [hat] at hasleep
      split at hasleep
      next hanswer =>
        cases hleaves with
        | cleared _ hnot _ | victim _ hnot _ => exact absurd hanswer hnot
        | stands hrefusal _ =>
          obtain rfl := Option.some.inj hasleep
          exact .inl (hself.trans hrefusal)
      next => exact nomatch hasleep
    · have hat : (s.answered wait txn result).asleep t = s.asleep t := update_of_ne heq ..
      have hrefused : (s.answered wait txn result).refused t = s.refused t :=
        update_of_ne heq ..
      rw [hat] at hasleep
      rw [hrefused]
      exact h.sleeper t w hasleep

section

variable [DecidableEq κ] {key : κ} {mode : LockMode} {txn : ℕ} {order : List ℕ}

omit [DecidableEq κ] in
theorem mem_assign {waitFor : WaitFor} {holder : ℕ} {edge : ℕ × ℕ}
    (h : edge ∈ waitFor.assign txn holder) :
    edge ∈ waitFor ∧ edge.1 ≠ txn ∨ edge.1 = txn ∧ edge.2 = holder := by
  rcases List.mem_cons.mp h with rfl | h
  · exact .inr ⟨rfl, rfl⟩
  · obtain ⟨hold, hne⟩ := List.mem_filter.mp h
    exact .inl ⟨hold, of_decide_eq_true hne⟩

omit [DecidableEq κ] in
theorem mem_erase {waitFor : WaitFor} {edge : ℕ × ℕ} (h : edge ∈ waitFor.erase txn) :
    edge ∈ waitFor ∧ edge.1 ≠ txn := by
  obtain ⟨hold, hne⟩ := List.mem_filter.mp h
  exact ⟨hold, of_decide_eq_true hne⟩

theorem tryGrant_waitFor {m m' : LockManager κ} {answer : Option ℕ}
    (h : m.tryGrant mode key txn order = (answer, m')) : m'.waitFor = m.waitFor := by
  have hsnd : (m.tryGrant mode key txn order).2.waitFor = m.waitFor := by
    cases mode with
    | exclusive =>
      rw [tryGrant, tryGrantExclusive]
      split
      · rfl
      · split <;> rfl
      · split <;> rfl
    | shared =>
      rw [tryGrant, tryGrantShared]
      split
      · rfl
      · split <;> rfl
      · rfl
  rw [h] at hsnd
  exact hsnd

theorem attempt_leaves (hok : s.EdgeOrWay mode key txn)
    (horder : s.manager.rows.Enumerates key order) (timed : Bool) :
    Leaves s (.row key mode) txn (s.manager.rows.attempt mode key txn timed order) := by
  rw [attempt]
  split
  next m' hgrant =>
    refine .cleared rfl LockAnswer.noConfusion fun edge hedge => ?_
    rw [tryGrant_waitFor hgrant] at hedge
    rcases hok with hnone | ⟨holder, hway⟩
    · exact ⟨hedge, hnone edge hedge⟩
    · exact absurd hway (not_inTheWay_of_granted horder hgrant holder)
  next holder m' hrefused =>
    obtain ⟨rfl, hway⟩ := inTheWay_of_refused horder hrefused
    split
    next => exact .victim rfl LockAnswer.noConfusion rfl
    next =>
      split
      next =>
        refine .stands rfl fun edge hedge => (mem_assign hedge).imp_right fun hnew => ?_
        exact ⟨hnew.1, hnew.2 ▸ hway⟩
      next =>
        refine .stands rfl fun edge hedge => (mem_assign hedge).imp_right fun hnew => ?_
        exact ⟨hnew.1, hnew.2 ▸ hway⟩

theorem retry_leaves (horder : s.manager.rows.Enumerates key order) (expired : Bool) :
    Leaves s (.row key mode) txn (s.manager.rows.retry mode key txn expired order) := by
  rw [retry]
  split
  next m' hgrant =>
    refine .cleared rfl LockAnswer.noConfusion fun edge hedge => ?_
    exact tryGrant_waitFor hgrant ▸ mem_erase hedge
  next holder m' hrefused =>
    obtain ⟨rfl, hway⟩ := inTheWay_of_refused horder hrefused
    split
    next => exact .cleared rfl LockAnswer.noConfusion fun edge hedge => mem_erase hedge
    next =>
      refine .stands rfl fun edge hedge => (mem_assign hedge).imp_right fun hnew => ?_
      exact ⟨hnew.1, hnew.2 ▸ hway⟩

omit [DecidableEq κ] in
theorem registerGapConflict_leaves (table : String) (holder : ℕ) (timed : Bool) :
    Leaves s (.gap table holder) txn (s.manager.registerGapConflict txn holder timed) := by
  rw [RangeLockManager.registerGapConflict]
  split
  next => exact .victim rfl LockAnswer.noConfusion rfl
  next =>
    refine .stands ?_ fun edge hedge => mem_assign hedge
    cases timed <;> rfl

omit [DecidableEq κ] in
theorem retryGap_leaves {table : String} {holder : ℕ} (h : s.EdgesSound)
    (hasleep : s.asleep txn = some (.gap table holder)) (expired : Bool) :
    Leaves s (.gap table holder) txn (s.manager.retryGap table txn holder expired) := by
  rw [RangeLockManager.retryGap]
  split
  next =>
    split
    next => exact .cleared rfl LockAnswer.noConfusion fun edge hedge => mem_erase hedge
    next =>
      refine .stands rfl fun edge hedge => ?_
      by_cases heq : edge.1 = txn
      · obtain ⟨wait, hrefused, hway⟩ := h.edges edge hedge
        rw [heq] at hrefused
        rcases h.sleeper txn _ hasleep with hsame | hnone
        · obtain rfl := Option.some.inj (hsame.symm.trans hrefused)
          exact .inr ⟨heq, hway⟩
        · cases hnone.symm.trans hrefused
      · exact .inl ⟨hedge, heq⟩
  next => exact .cleared rfl LockAnswer.noConfusion fun edge hedge => mem_erase hedge

theorem request_edges {timed : Bool} (h : s.EdgesSound) (hok : s.EdgeOrWay mode key txn)
    (hstep : s.request mode key txn timed order = some s') : s'.EdgesSound := by
  have hholding : s'.Holding := request_holding h.holding hstep
  obtain ⟨⟨-, horder⟩, hs'⟩ := Option.ite_none_right_eq_some.mp hstep
  obtain rfl := Option.some.inj hs'
  have hanswers : Answers s.manager.rows key mode txn
      (s.manager.rows.attempt mode key txn timed order) :=
    attempt_answers h.holding.noEmptyShare horder timed
  exact answered_edges h hholding hanswers.keeps (attempt_leaves hok horder timed)

end

theorem EdgesSound.of_rows_eq (h : s.EdgesSound) (hrows : s'.manager.rows = s.manager.rows)
    (hasleep : s'.asleep = s.asleep) (hrefused : s'.refused = s.refused)
    (hgranted : s'.granted = s.granted) : s'.EdgesSound := by
  refine ⟨h.holding.of_rowLocks_eq (by rw [hrows]) hgranted, ?_, ?_⟩
  · simp only [RefusedBy, hrows, hrefused]
    exact h.edges
  · rw [hasleep, hrefused]
    exact h.sleeper

theorem init_edges : (init : RangeLockSystem κ).EdgesSound where
  holding := init_holding
  edges := nofun
  sleeper := nofun

variable [DecidableEq κ]

theorem release_edges {txn : ℕ} (h : s.EdgesSound) (hstep : s.step (.release txn) = some s') :
    s'.EdgesSound := by
  have hholding : s'.Holding := release_holding h.holding hstep
  obtain rfl := Option.some.inj hstep
  refine ⟨hholding, fun edge hedge => ?_, fun t wait hasleep => ?_⟩
  · obtain ⟨hold, htouch⟩ := List.mem_filter.mp hedge
    obtain ⟨hfrom, hto⟩ := not_or.mp (of_decide_eq_true htouch)
    obtain ⟨wait, hrefused, hway⟩ := h.edges edge hold
    refine ⟨wait, (update_of_ne hfrom ..).trans hrefused, ?_⟩
    cases wait with
    | row key mode =>
      obtain ⟨hne, hholds⟩ := inTheWay_iff_holds.mp hway
      exact inTheWay_iff_holds.mpr
        ⟨hne, holds_release.mpr ⟨hto, hholds⟩⟩
    | gap table holder => exact hway
  · by_cases heq : t = txn
    · subst heq
      exact .inr (update_self ..)
    · have hrefused : update s.refused txn none t = s.refused t :=
        update_of_ne heq ..
      dsimp only
      rw [hrefused]
      exact h.sleeper t wait hasleep

theorem step_edges {event : RangeLockEvent κ} (h : s.EdgesSound) (hok : s.noStaleEdge event)
    (hstep : s.step event = some s') : s'.EdgesSound := by
  have hholding : s'.Holding := step_holding h.holding hstep
  cases event with
  | acquire key txn timed order | acquireShared key txn timed order =>
    exact request_edges h hok hstep
  | registerGapConflict table txn holder timed =>
    obtain ⟨-, hs'⟩ := Option.ite_none_right_eq_some.mp hstep
    obtain rfl := Option.some.inj hs'
    refine answered_edges h hholding (fun k mode t hholds => ?_)
      (registerGapConflict_leaves table holder timed)
    exact (holds_congr (registerGapConflict_rowLocks ..)).mpr hholds
  | wake txn expired order =>
    rw [step] at hstep
    split at hstep
    next => cases hstep
    next key mode _ =>
      obtain ⟨horder, hs'⟩ := Option.ite_none_right_eq_some.mp hstep
      obtain rfl := Option.some.inj hs'
      exact answered_edges h hholding
        (retry_answers h.holding.noEmptyShare horder expired).keeps
        (retry_leaves horder expired)
    next table holder hasleep =>
      obtain rfl := Option.some.inj hstep
      refine answered_edges h hholding (fun k mode t hholds => ?_)
        (retryGap_leaves h hasleep expired)
      exact (holds_congr (retryGap_rowLocks ..)).mpr hholds
  | release txn => exact release_edges h hstep
  | acquireGap table row | registerPredicateRead table row | flagPredicateViolation txn
  | takePredicateViolation txn => exact Option.some.inj hstep ▸ h.of_rows_eq rfl rfl rfl rfl

theorem reaches_edges (h : Reaches step noStaleEdge init s) : s.EdgesSound :=
  h.invariant (fun _ _ _ => step_edges) init_edges

omit [DecidableEq κ] in
theorem refusedBy_of_createsCycle (h : s.EdgesSound) {source target : ℕ}
    (hcycle : s.manager.rows.createsCycle source target) :
    ReflTransGen s.RefusedBy target source := by
  refine ReflTransGen.mono ?_ _ _ ((createsCycle_iff ..).mp hcycle)
  intro a b hfollows
  obtain ⟨edge, hfind, rfl⟩ := Option.map_eq_some_iff.mp hfollows
  obtain rfl : edge.1 = a := by simpa using List.find?_some hfind
  exact h.edges edge (List.mem_of_find?_eq_some hfind)

/-- A request is answered as a deadlock only when its wait would close a circle of transactions
each of which has a request that was refused, and not granted or given up since, for what the next
one stands in the way of now. -/
theorem deadlock_of_refusals (h : Reaches step noStaleEdge init s) :
    (∀ mode key txn timed order holder, s.manager.rows.Enumerates key order →
      (s.manager.rows.attempt mode key txn timed order).1 = .deadlock holder →
      s.manager.rows.InTheWay mode key txn holder ∧ ReflTransGen s.RefusedBy holder txn) ∧
    ∀ txn holder timed victim,
      (s.manager.registerGapConflict txn holder timed).1 = .deadlock victim →
      victim = holder ∧ ReflTransGen s.RefusedBy holder txn := by
  have hedges := reaches_edges h
  refine ⟨fun mode key txn timed order holder horder hanswer => ?_,
    fun txn holder timed victim hanswer => ?_⟩
  · rcases LockManager.attempt_cases timed horder with
      ⟨m', -, hresult⟩ | ⟨other, hway, -, hresult⟩
    · rw [hresult] at hanswer
      cases hanswer
    · rw [hresult] at hanswer
      split at hanswer
      next hcycle =>
        obtain rfl := LockAnswer.deadlock.inj hanswer
        exact ⟨hway, refusedBy_of_createsCycle hedges hcycle⟩
      next =>
        split at hanswer
        · cases hanswer
        · cases hanswer
  · rw [RangeLockManager.registerGapConflict] at hanswer
    split at hanswer
    next hcycle =>
      obtain rfl := LockAnswer.deadlock.inj hanswer
      exact ⟨rfl, refusedBy_of_createsCycle hedges hcycle⟩
    next =>
      dsimp only at hanswer
      split at hanswer
      · cases hanswer
      · cases hanswer

omit [DecidableEq κ] in
def BlockedBy (s : RangeLockSystem κ) (a b : ℕ) : Prop :=
  ∃ wait, s.asleep a = some wait ∧ StandsInWay s.manager.rows wait a b

/-- Two rows, and a transaction that is told of a conflict on the other's. -/
def toldOfConflict : List (RangeLockEvent (String × String)) :=
  [.acquire ("t", "a") 1 false [], .acquire ("t", "b") 2 false [],
    .acquire ("t", "b") 1 false []]

/-- The second transaction is made a victim by the first, which does not sleep. -/
theorem deadlock_of_conflict : ¬ ∀ s : RangeLockSystem (String × String),
    Reaches step anyStep init s → ∀ mode key txn timed order holder,
      s.manager.rows.Enumerates key order →
      (s.manager.rows.attempt mode key txn timed order).1 = .deadlock holder →
      ReflTransGen s.BlockedBy holder txn := by
  intro hall
  have hrun := Reaches.of_exec toldOfConflict (execOk_anyStep step init toldOfConflict) rfl
  have hchain := hall _ hrun .exclusive ("t", "a") 2 false [] 1 trivial (by decide)
  rcases ReflTransGen.cases_head hchain with heq | ⟨b, ⟨wait, hasleep, -⟩, -⟩
  · exact absurd heq (by decide)
  · exact nomatch hasleep

/-- The first transaction has a refused request for the row of the second. -/
theorem deadlock_of_refusals_told : ∃ s : RangeLockSystem (String × String),
    Reaches step noStaleEdge init s ∧
      s.manager.rows.InTheWay .exclusive ("t", "a") 2 1 ∧ ReflTransGen s.RefusedBy 1 2 := by
  have hok : execOk step noStaleEdge init toldOfConflict := by
    refine execOk_cons (.inl nofun) rfl
      (execOk_cons (.inl nofun) rfl
        (execOk_cons (.inl nofun) rfl trivial))
  have hrun := Reaches.of_exec toldOfConflict hok rfl
  exact ⟨_, hrun, (deadlock_of_refusals hrun).1 .exclusive ("t", "a") 2 false [] 1 trivial
    (by decide)⟩

end RangeLockSystem

end RusqlEngine
