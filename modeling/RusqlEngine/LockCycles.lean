import RusqlEngine.LockManager

/-!
# When the waits of a lock manager close no cycle

A grant adds waits only for a transaction that does not sleep, a release and a timeout take waits
away, and a waking sleeper changes nothing but `wait_for_`. So only a request that falls asleep
can close a cycle, and the walk finds that cycle when it can see it.
-/

namespace RusqlEngine

open Relation Chain LockManager Function

variable {κ : Type} [DecidableEq κ] {key : κ} {mode : LockMode} {a b txn : ℕ} {m' : LockManager κ}
  {order : List ℕ}

namespace LockManager

omit [DecidableEq κ] in
theorem createsCycle_iff (m : LockManager κ) (source target : ℕ) :
    m.createsCycle source target ↔
      ReflTransGen (Follows m.waitFor.find) target source := by
  apply walk_eq_true_iff fun _ _ => WaitFor.find_mem
  have hcard := List.toFinset_card_le (m.waitFor.map (·.1))
  rw [List.length_map] at hcard
  exact Nat.lt_succ_of_le hcard

variable {m : LockManager κ}

theorem inTheWay_setLock {entry : LockEntry} {k : κ}
    (h : (m.setLock key entry).InTheWay mode k a b) :
    m.InTheWay mode k a b ∨ k = key ∧ entry.Blocks mode b := by
  obtain ⟨hne, other, hlock, hblocks⟩ := h
  dsimp only [setLock] at hlock
  split at hlock
  next hk => exact .inr ⟨hk, Option.some.inj hlock ▸ hblocks⟩
  next => exact .inl ⟨hne, other, hlock, hblocks⟩

theorem inTheWay_of_granted (hgrant : m.tryGrant mode key txn order = (none, m')) {mode' : LockMode}
    {k : κ} (h : m'.InTheWay mode' k a b) : m.InTheWay mode' k a b ∨ b = txn := by
  have hsame : m = m' → m.InTheWay mode' k a b ∨ b = txn := by
    rintro rfl
    exact .inl h
  have htake : m.setLock key (.exclusive txn) = m' → m.InTheWay mode' k a b ∨ b = txn := by
    rintro rfl
    rcases inTheWay_setLock h with hold | ⟨-, hnew⟩
    · exact .inl hold
    · exact .inr hnew.symm
  cases mode with
  | exclusive =>
    rw [tryGrant, tryGrantExclusive] at hgrant
    split at hgrant
    next => exact htake (congrArg Prod.snd hgrant)
    next =>
      split at hgrant
      next => exact hsame (congrArg Prod.snd hgrant)
      next => exact absurd (congrArg Prod.fst hgrant) (Option.some_ne_none _)
    next =>
      split at hgrant
      next => exact htake (congrArg Prod.snd hgrant)
      next => exact hsame (congrArg Prod.snd hgrant)
  | shared =>
    rw [tryGrant, tryGrantShared] at hgrant
    split at hgrant
    next =>
      have hm' : m.setLock key (.shared {txn}) = m' := congrArg Prod.snd hgrant
      subst hm'
      rcases inTheWay_setLock h with hold | ⟨-, -, hmem⟩
      · exact .inl hold
      · exact .inr (Finset.mem_singleton.mp hmem)
    next =>
      split at hgrant
      next => exact hsame (congrArg Prod.snd hgrant)
      next => exact absurd (congrArg Prod.fst hgrant) (Option.some_ne_none _)
    next holders hholders =>
      have hm' : m.setLock key (.shared (insert txn holders)) = m' :=
        congrArg Prod.snd hgrant
      subst hm'
      rcases inTheWay_setLock h with hold | ⟨rfl, hmode, hmem⟩
      · exact .inl hold
      · rcases Finset.mem_insert.mp hmem with rfl | hmem
        · exact .inr rfl
        · exact .inl ⟨h.1, _, hholders, hmode, hmem⟩

theorem not_inTheWay_of_granted (horder : m.Enumerates key order)
    (hgrant : m.tryGrant mode key txn order = (none, m')) (holder : ℕ) :
    ¬ m.InTheWay mode key txn holder := by
  rintro ⟨hne, entry, hlock, hblocks⟩
  cases entry with
  | exclusive owner =>
    have howner : owner ≠ txn := (show owner = holder from hblocks) ▸ hne
    cases mode with
    | exclusive =>
      rw [tryGrant, tryGrantExclusive, hlock] at hgrant
      dsimp only at hgrant
      rw [if_neg howner] at hgrant
      cases hgrant
    | shared =>
      rw [tryGrant, tryGrantShared, hlock] at hgrant
      dsimp only at hgrant
      rw [if_neg howner] at hgrant
      cases hgrant
  | shared holders =>
    obtain ⟨rfl, hmem⟩ := hblocks
    rw [tryGrant, tryGrantExclusive, hlock] at hgrant
    dsimp only at hgrant
    split at hgrant
    next hown =>
      obtain ⟨owner, hsingle⟩ := Finset.card_eq_one.mp hown.1
      rw [hsingle, Finset.mem_singleton] at hmem hown
      exact hne (hmem.trans hown.2.symm)
    next =>
      have hfind : order.find? (· ≠ txn) = none := congrArg Prod.fst hgrant
      rw [Enumerates, hlock] at horder
      rw [← horder, List.mem_toFinset] at hmem
      exact List.find?_eq_none.mp hfind holder hmem (decide_eq_true hne)

theorem inTheWay_of_refused {holder : ℕ} (horder : m.Enumerates key order)
    (hrefused : m.tryGrant mode key txn order = (some holder, m')) :
    m' = m ∧ m.InTheWay mode key txn holder := by
  have howner : ∀ {mode owner}, m.rowLocks key = some (.exclusive owner) →
      (if owner = txn then (none, m) else (some owner, m)) = (some holder, m') →
      m' = m ∧ m.InTheWay mode key txn holder := by
    intro mode owner hlock h
    split at h
    next => exact absurd (congrArg Prod.fst h).symm (Option.some_ne_none _)
    next hne =>
      have hholder : owner = holder := Option.some.inj (congrArg Prod.fst h)
      subst hholder
      exact ⟨(congrArg Prod.snd h).symm, hne, _, hlock, rfl⟩
  cases mode with
  | exclusive =>
    rw [tryGrant, tryGrantExclusive] at hrefused
    split at hrefused
    next => exact absurd (congrArg Prod.fst hrefused).symm (Option.some_ne_none _)
    next owner hlock => exact howner hlock hrefused
    next holders hlock =>
      split at hrefused
      next => exact absurd (congrArg Prod.fst hrefused).symm (Option.some_ne_none _)
      next =>
        have hfind : order.find? (· ≠ txn) = some holder := congrArg Prod.fst hrefused
        have hne : holder ≠ txn := by
          simpa using List.find?_some hfind
        have hmem : holder ∈ holders := by
          rw [Enumerates, hlock] at horder
          exact horder ▸ List.mem_toFinset.mpr (List.mem_of_find?_eq_some hfind)
        exact ⟨(congrArg Prod.snd hrefused).symm, hne, _, hlock, rfl, hmem⟩
  | shared =>
    rw [tryGrant, tryGrantShared] at hrefused
    split at hrefused
    next => exact absurd (congrArg Prod.fst hrefused).symm (Option.some_ne_none _)
    next owner hlock => exact howner hlock hrefused
    next => exact absurd (congrArg Prod.fst hrefused).symm (Option.some_ne_none _)

omit [DecidableEq κ] in
theorem inTheWay_of_release (h : (m.release txn).InTheWay mode key a b) :
    m.InTheWay mode key a b := by
  obtain ⟨hne, entry, hlock, hblocks⟩ := h
  obtain ⟨old, hold, hkept⟩ := Option.bind_eq_some_iff.mp hlock
  refine ⟨hne, old, hold, ?_⟩
  cases old with
  | exclusive owner =>
    rw [releaseEntry] at hkept
    split at hkept
    next => cases hkept
    next => exact Option.some.inj hkept ▸ hblocks
  | shared holders =>
    rw [releaseEntry] at hkept
    split at hkept
    next => cases hkept
    next =>
      cases hkept
      exact ⟨hblocks.1, Finset.mem_of_mem_erase hblocks.2⟩

omit [DecidableEq κ] in
theorem inTheWay_of_rowLocks_eq (hlocks : m'.rowLocks = m.rowLocks) (h : m'.InTheWay mode key a b) :
    m.InTheWay mode key a b := by
  rw [InTheWay, hlocks] at h
  exact h

/-- What an attempt can end with. -/
theorem attempt_cases (timed : Bool) (horder : m.Enumerates key order) :
    (∃ m', m.tryGrant mode key txn order = (none, m') ∧
      m.attempt mode key txn timed order = (.granted, m')) ∨
    ∃ holder, m.InTheWay mode key txn holder ∧
      (m.attempt mode key txn timed order).2.rowLocks = m.rowLocks ∧
      (m.attempt mode key txn timed order).1 = if m.createsCycle txn holder then .deadlock holder
        else if timed then .asleep else .conflict holder := by
  rcases hresult : m.tryGrant mode key txn order with ⟨_ | holder, m'⟩
  · exact .inl ⟨m', rfl, by rw [attempt, hresult]⟩
  · obtain ⟨rfl, hway⟩ := inTheWay_of_refused horder hresult
    refine .inr ⟨holder, hway, ?_⟩
    rw [attempt, hresult]
    dsimp only
    split
    next => exact ⟨rfl, rfl⟩
    next =>
      split
      next => exact ⟨rfl, rfl⟩
      next => exact ⟨rfl, rfl⟩

theorem retry_cases (expired : Bool) (horder : m.Enumerates key order) :
    (∃ m', m.tryGrant mode key txn order = (none, m') ∧
      (m.retry mode key txn expired order).1 = .granted ∧
      (m.retry mode key txn expired order).2.rowLocks = m'.rowLocks) ∨
    (m.retry mode key txn expired order).2.rowLocks = m.rowLocks := by
  rcases hresult : m.tryGrant mode key txn order with ⟨_ | holder, m'⟩
  · rw [retry, hresult]
    exact .inl ⟨m', rfl, rfl, rfl⟩
  · obtain ⟨rfl, -⟩ := inTheWay_of_refused horder hresult
    rw [retry, hresult]
    dsimp only
    split
    next => exact .inr rfl
    next => exact .inr rfl

end LockManager

namespace LockSystem

variable {s : LockSystem κ} {result : LockAnswer × LockManager κ}

omit [DecidableEq κ] in
theorem answered_reallyWaits (h : (s.answered mode key txn result).ReallyWaits a b) :
    (a ≠ txn ∧ ∃ k mode', s.asleep a = some (k, mode') ∧ result.2.InTheWay mode' k a b) ∨
      a = txn ∧ result.1 = .asleep ∧ result.2.InTheWay mode key a b := by
  obtain ⟨k, mode', hasleep, hway⟩ := h
  by_cases ha : a = txn
  · subst ha
    dsimp only [answered] at hasleep
    rw [update_self] at hasleep
    split at hasleep
    next hresult =>
      cases hasleep
      exact .inr ⟨rfl, hresult, hway⟩
    next => cases hasleep
  · dsimp only [answered] at hasleep
    rw [update_of_ne ha] at hasleep
    exact .inl ⟨ha, k, mode', hasleep, hway⟩

theorem acyclic_of_granted (hs : Acyclic s.ReallyWaits)
    (hgrant : s.manager.tryGrant mode key txn order = (none, m')) (hanswer : result.1 = .granted)
    (hlocks : result.2.rowLocks = m'.rowLocks) :
    Acyclic (s.answered mode key txn result).ReallyWaits := by
  have hnot : result.1 ≠ .asleep := by
    rw [hanswer]
    decide
  apply hs.of_sink
  · intro b h
    rcases answered_reallyWaits h with ⟨hne, -⟩ | ⟨-, hasleep, -⟩
    · exact hne rfl
    · exact hnot hasleep
  · intro a b h
    rcases answered_reallyWaits h with ⟨-, k, mode', hasleep, hway⟩ | ⟨-, hasleep, -⟩
    · have hway' := inTheWay_of_rowLocks_eq hlocks hway
      rcases inTheWay_of_granted hgrant hway' with hold | hb
      · exact .inl ⟨k, mode', hasleep, hold⟩
      · exact .inr hb
    · exact absurd hasleep hnot

omit [DecidableEq κ] in
/-- An answer that leaves the locks as they are closes no cycle when the requester does not fall
asleep by it. -/
theorem acyclic_of_kept (hs : Acyclic s.ReallyWaits)
    (hlocks : result.2.rowLocks = s.manager.rowLocks)
    (hasleep : result.1 = .asleep → s.asleep txn = some (key, mode)) :
    Acyclic (s.answered mode key txn result).ReallyWaits := by
  apply hs.mono
  intro a b h
  rcases answered_reallyWaits h with ⟨-, k, mode', hold, hway⟩ | ⟨rfl, hresult, hway⟩
  · exact ⟨k, mode', hold, inTheWay_of_rowLocks_eq hlocks hway⟩
  · exact ⟨key, mode, hasleep hresult, inTheWay_of_rowLocks_eq hlocks hway⟩

omit [DecidableEq κ] in
/-- A request that would close a visible cycle meets the only holder in its way, and the walk finds
the cycle. -/
theorem Seen.createsCycle {holder other : ℕ} (hseen : s.Seen mode key txn)
    (hway : s.manager.InTheWay mode key txn holder) (hback : ReflTransGen s.ReallyWaits holder txn)
    (hother : s.manager.InTheWay mode key txn other) :
    other = holder ∧ s.manager.createsCycle txn other := by
  obtain ⟨honly, hedges⟩ := hseen holder hway hback
  obtain rfl : other = holder := honly other hother
  refine ⟨rfl, ?_⟩
  rw [createsCycle_iff]
  exact lift_of_between hback hedges

theorem attempt_of_cycle {holder : ℕ} {timed : Bool} (horder : s.manager.Enumerates key order)
    (hseen : s.Seen mode key txn) (hway : s.manager.InTheWay mode key txn holder)
    (hback : ReflTransGen s.ReallyWaits holder txn) :
    (s.manager.attempt mode key txn timed order).1 = .deadlock holder := by
  rcases attempt_cases timed horder with
    ⟨m', hgrant, -⟩ | ⟨other, hother, -, hanswer⟩
  · exact absurd hway (not_inTheWay_of_granted horder hgrant holder)
  · obtain ⟨rfl, hcycle⟩ := hseen.createsCycle hway hback hother
    rw [hanswer, if_pos hcycle]

theorem acyclic_of_attempt {timed : Bool} (hs : Acyclic s.ReallyWaits)
    (horder : s.manager.Enumerates key order) (hseen : timed → s.Seen mode key txn) :
    Acyclic
      (s.answered mode key txn (s.manager.attempt mode key txn timed order)).ReallyWaits := by
  rcases attempt_cases timed horder with
    ⟨m', hgrant, hresult⟩ | ⟨holder, hway, hlocks, hanswer⟩
  · rw [hresult]
    exact acyclic_of_granted hs hgrant rfl rfl
  · by_cases hcycle : s.manager.createsCycle txn holder = true
    · rw [if_pos hcycle] at hanswer
      apply acyclic_of_kept hs hlocks
      intro hasleep
      exact absurd (hanswer.symm.trans hasleep) nofun
    · rw [if_neg hcycle] at hanswer
      cases timed with
      | false =>
        apply acyclic_of_kept hs hlocks
        intro hasleep
        exact absurd (hanswer.symm.trans hasleep) nofun
      | true =>
        -- the requester falls asleep: the new waits all start from it
        apply hs.of_source (c := txn)
        · intro b h hback
          rcases answered_reallyWaits h with ⟨hne, -⟩ | ⟨-, -, hb⟩
          · exact hne rfl
          · have hb' := inTheWay_of_rowLocks_eq hlocks hb
            exact hcycle ((hseen rfl).createsCycle hb' hback hway).2
        · intro a b hne h
          rcases answered_reallyWaits h with ⟨-, k, mode', hold, hb⟩ | ⟨heq, -⟩
          · exact ⟨k, mode', hold, inTheWay_of_rowLocks_eq hlocks hb⟩
          · exact absurd heq hne

theorem step_acyclic {s' : LockSystem κ} {event : LockEvent κ} (hs : Acyclic s.ReallyWaits)
    (hvisible : s.Visible event) (hstep : s.step event = some s') : Acyclic s'.ReallyWaits := by
  cases event with
  | acquire key txn timed order | acquireShared key txn timed order =>
    obtain ⟨⟨-, horder⟩, hs'⟩ := Option.ite_none_right_eq_some.mp hstep
    cases hs'
    apply acyclic_of_attempt hs horder
    rintro rfl
    exact hvisible
  | wake txn expired order =>
    dsimp only [step] at hstep
    split at hstep
    next => cases hstep
    next key mode hasleep =>
      obtain ⟨horder, hs'⟩ := Option.ite_none_right_eq_some.mp hstep
      cases hs'
      rcases retry_cases expired horder with
        ⟨m', hgrant, hanswer, hlocks⟩ | hlocks
      · exact acyclic_of_granted hs hgrant hanswer hlocks
      · exact acyclic_of_kept hs hlocks fun _ => hasleep
  | release txn =>
    cases hstep
    apply hs.mono
    rintro a b ⟨key, mode, hasleep, hway⟩
    exact ⟨key, mode, hasleep, inTheWay_of_release hway⟩

omit [DecidableEq κ] in
theorem init_acyclic : Acyclic (init : LockSystem κ).ReallyWaits := by
  intro a h
  obtain ⟨b, ⟨key, mode, hasleep, -⟩, -⟩ := TransGen.head'_iff.mp h
  cases hasleep

/-- When the walk can see the cycle that each request with time to wait would close, no
transactions wait for each other in a circle, and every such request is answered as a deadlock. -/
theorem reaches_waits_acyclic {s : LockSystem κ} (hreach : Transition.Reaches step Visible init s) :
    Chain.Acyclic s.ReallyWaits ∧
      ∀ mode key txn timed order holder, s.manager.Enumerates key order →
        s.Seen mode key txn → s.manager.InTheWay mode key txn holder →
        ReflTransGen s.ReallyWaits holder txn →
        (s.manager.attempt mode key txn timed order).1 = .deadlock holder := by
  refine ⟨hreach.invariant (fun _ _ _ => step_acyclic) init_acyclic, ?_⟩
  intro mode key txn timed order holder horder hseen hway hback
  exact attempt_of_cycle horder hseen hway hback

omit [DecidableEq κ] in
theorem seen_of_awake (hawake : ∀ a, s.asleep a = none) (mode : LockMode) (key : κ) (txn : ℕ) :
    s.Seen mode key txn := by
  intro holder hway hback
  rcases ReflTransGen.cases_head hback with heq | ⟨b, ⟨k, mode', hasleep, -⟩, -⟩
  · exact absurd heq hway.1
  · exact absurd ((hawake holder).symm.trans hasleep) nofun

omit [DecidableEq κ] in
theorem awake_of_answered (hawake : ∀ a, s.asleep a = none) (hanswer : result.1 ≠ .asleep) (a : ℕ) :
    (s.answered mode key txn result).asleep a = none := by
  dsimp only [answered]
  rw [if_neg hanswer]
  by_cases ha : a = txn
  · rw [ha, update_self]
  · rw [update_of_ne ha, hawake]

/-- The first transaction has a row and sleeps on the row of the second. -/
def crossed : LockSystem (String × String) where
  manager :=
    { rowLocks := fun key =>
        if key = ("t", "b") then some (.exclusive 2)
        else if key = ("t", "a") then some (.exclusive 1) else none
      waitFor := [(1, 2)]
      deadlockHistory := []
      waits := 1 }
  asleep := fun txn => if txn = 1 then some (("t", "b"), .exclusive) else none

theorem crossed_reached : Transition.Reaches step Visible init crossed := by
  have hasleep : update (update (update init.asleep 1 none) 2 none) 1
      (some (("t", "b"), .exclusive)) = crossed.asleep := by
    funext txn
    by_cases h1 : txn = 1
    · subst h1
      rfl
    · by_cases h2 : txn = 2
      · subst h2
        rfl
      · rw [update_of_ne h1, update_of_ne h2, update_of_ne h1]
        exact (if_neg h1).symm
  have hrun : Transition.exec step init [.acquire ("t", "a") 1 true [],
      .acquire ("t", "b") 2 true [], .acquire ("t", "b") 1 true []] = some crossed :=
    congrArg (fun asleep => some (LockSystem.mk crossed.manager asleep)) hasleep
  apply Transition.Reaches.of_exec _ _ hrun
  refine ⟨?_, fun s₁ h₁ => ⟨?_, fun s₂ h₂ => ⟨?_, ?_⟩⟩⟩
  · exact seen_of_awake (fun _ => rfl) _ _ _
  · cases h₁
    exact seen_of_awake (awake_of_answered (fun _ => rfl) (by decide)) _ _ _
  · cases h₁
    cases h₂
    exact seen_of_awake (awake_of_answered (awake_of_answered (fun _ => rfl) (by decide))
      (by decide)) _ _ _
  · exact fun _ _ => trivial

theorem crossed_reallyWaits (h : crossed.ReallyWaits a b) : a = 1 ∧ b = 2 := by
  obtain ⟨key, mode, hasleep, -, entry, hlock, hblocks⟩ := h
  obtain ⟨ha, hasked⟩ := Option.ite_none_right_eq_some.mp hasleep
  cases hasked
  cases hlock
  exact ⟨ha, hblocks.symm⟩

/-- The second transaction is refused the row of the first. -/
theorem reaches_waits_acyclic_crossed : Chain.Acyclic crossed.ReallyWaits ∧
    (crossed.manager.attempt .exclusive ("t", "a") 2 true []).1 = .deadlock 1 := by
  have hway : crossed.manager.InTheWay .exclusive ("t", "a") 2 1 :=
    ⟨by decide, _, rfl, rfl⟩
  have hwait : crossed.ReallyWaits 1 2 := ⟨_, _, rfl, by decide, _, rfl, rfl⟩
  have hseen : crossed.Seen .exclusive ("t", "a") 2 := by
    intro holder hholder _
    obtain ⟨-, entry, hlock, hblocks⟩ := hholder
    cases hlock
    cases hblocks
    refine ⟨?_, ?_⟩
    · rintro other ⟨-, entry, hlock, hblocks⟩
      cases hlock
      exact hblocks.symm
    · intro a b _ hab _
      obtain ⟨rfl, rfl⟩ := crossed_reallyWaits hab
      rfl
  obtain ⟨hacyclic, hdeadlock⟩ := reaches_waits_acyclic crossed_reached
  exact ⟨hacyclic, hdeadlock .exclusive ("t", "a") 2 true [] 1 trivial hseen hway
    (ReflTransGen.single hwait)⟩

/-- A row shared by two is asked for exclusively, and the holder that `wait_for_` does not name asks
for a row of the sleeper. -/
def sharedByTwo : List (LockEvent (String × String)) :=
  [.acquire ("t", "a") 3 true [], .acquireShared ("t", "b") 1 true [],
    .acquireShared ("t", "b") 2 true [1], .acquire ("t", "b") 3 true [1, 2],
    .acquire ("t", "a") 2 true []]

theorem not_reaches_waits_acyclic :
    ¬ ∀ s : LockSystem (String × String), Transition.Reaches step Transition.anyStep init s →
      Chain.Acyclic s.ReallyWaits := by
  intro hall
  obtain ⟨s, hs, hstate⟩ := Option.map_eq_some_iff.mp
    (show (Transition.exec step init sharedByTwo).map (fun s => decide
        (s.asleep 2 = some (("t", "a"), .exclusive) ∧
          s.asleep 3 = some (("t", "b"), .exclusive) ∧
          (s.manager.rowLocks ("t", "a")).any (·.Blocks .exclusive 3) ∧
          (s.manager.rowLocks ("t", "b")).any (·.Blocks .exclusive 2)))
      = some true by decide)
  obtain ⟨h2, h3, ha, hb⟩ := of_decide_eq_true hstate
  obtain ⟨entryA, hlockA, hblocksA⟩ := (Option.any_eq_true _ _).mp ha
  obtain ⟨entryB, hlockB, hblocksB⟩ := (Option.any_eq_true _ _).mp hb
  have hwaits₂ : s.ReallyWaits 2 3 :=
    ⟨_, _, h2, by decide, entryA, hlockA, of_decide_eq_true hblocksA⟩
  have hwaits₃ : s.ReallyWaits 3 2 :=
    ⟨_, _, h3, by decide, entryB, hlockB, of_decide_eq_true hblocksB⟩
  have hreach := Transition.Reaches.of_exec sharedByTwo (Transition.execOk_anyStep step init _) hs
  exact hall s hreach 2 (TransGen.head hwaits₂ (TransGen.single hwaits₃))

end LockSystem

end RusqlEngine
