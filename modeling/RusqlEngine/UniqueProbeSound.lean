import RusqlEngine.UniqueProbe
import RusqlEngine.Library.Transition

/-!
# What the cache says of the live rows

A cache whose stamp fits counts the live rows. One whose sum is one behind does so while nothing
has changed unreported since a lock was last taken exclusively; `fk_children_absent` reads such a
cache whoever has taken the lock.
-/

namespace RusqlEngine.UniqueProbe

open Function

variable {ι σ κ ρ : Type} {c : Config σ κ ρ} {s : State ι σ κ ρ}

section

variable [DecidableEq σ] [DecidableEq κ] [DecidableEq ρ]

def Right (c : Config σ κ ρ) (rows : Multiset ρ) (p : Probe σ κ) : Prop :=
  ∀ spec ∈ p.specs, p.counts spec = countRows c rows spec

def State.Current (s : State ι σ κ ρ) : Prop :=
  ∃ p ∈ s.probe, p.built ∧ p.stamp.Fits s.stamp false

def State.Near (s : State ι σ κ ρ) : Prop :=
  ∃ p ∈ s.probe, p.built ∧ p.stamp.Fits s.stamp true

def State.Trusted (s : State ι σ κ ρ) : Prop :=
  s.Near → s.Current ∨ s.unreported = false

/-- The reports lead from the live rows to the new ones. -/
def Accurate : Multiset ρ → List (Report ρ) → Multiset ρ → Prop
  | rows, [], rows' => rows' = rows
  | rows, r :: rs, rows' =>
    (r.removed : Multiset ρ) ≤ rows ∧ Accurate (rows - r.removed + r.added) rs rows'

/-- The condition on a step. -/
def Fits (s : State ι σ κ ρ) : Action ι σ κ ρ → Prop
  | .provesAbsent _ _ _ use => use = .insideExclusive → s.Trusted
  | .fkChildrenAbsent .. => s.Trusted
  | .write _ rows reports =>
    if reports = [] then rows = s.rows ∨ ¬ s.Current
    else (s.Near → Accurate s.rows reports rows) ∧ s.Trusted
  | .commit _ => s.Trusted
  | _ => True

/-- The key a look-up asks for. -/
def Action.asked : Action ι σ κ ρ → Option (σ × κ)
  | .provesAbsent _ spec key _ => key.map (Prod.mk spec)
  | .fkChildrenAbsent _ spec key _ => key.map (Prod.mk spec)
  | _ => none

/-- A table with no cache, and locks that nobody has taken. -/
def start (specs : List σ) (rows : Multiset ρ) : State ι σ κ ρ where
  locks
    | .structural => newMutex 0
    | .table => newMutex 1
    | .data => newMutex 2
  nextId := 3
  specs := specs
  rows := rows
  probe := none
  unreported := false

end

variable {m : FairSharedMutex ι} {x : ι}

theorem stamp_update {l : Lock} {d : ℕ} (hid : m.instanceId = (s.locks l).instanceId)
    (hcount : m.exclusiveCount = (s.locks l).exclusiveCount + d) {unreported : Bool} :
    State.stamp { s with locks := update s.locks l m, unreported := unreported } =
      { s.stamp with sum := s.stamp.sum + d } := by
  cases l
  all_goals
    simp [State.stamp, hid, hcount]
    omega

theorem instanceId_update {l l' : Lock} (hid : m.instanceId = (s.locks l).instanceId) :
    (update s.locks l m l').instanceId = (s.locks l').instanceId := by
  by_cases h : l' = l
  · subst h
    rw [update_self, hid]
  · rw [update_of_ne h]

theorem forall_mem_some {p : Probe σ κ} {P : Probe σ κ → Prop} (h : P p) : ∀ q ∈ some p, P q := by
  intro q hq
  obtain rfl := Option.some.inj hq
  exact h

section

variable [DecidableEq κ]

theorem foldl_takeOut (removed : List ρ) (counts : σ → κ → ℕ) (spec : σ) (key : κ) :
    removed.foldl (takeOut c) counts spec key =
      counts spec key - countRows c (removed : Multiset ρ) spec key := by
  induction removed generalizing counts with
  | nil => simp [countRows]
  | cons row removed ih =>
    rw [List.foldl_cons, ih, countRows, countRows, Multiset.coe_countP, Multiset.coe_countP,
      List.countP_cons, takeOut]
    by_cases hkey : c.keyOf spec row = some key
    · simp only [hkey, if_true, decide_true]
      omega
    · simp [hkey]

theorem foldl_putIn (added : List ρ) (counts : σ → κ → ℕ) (spec : σ) (key : κ) :
    added.foldl (putIn c) counts spec key =
      counts spec key + countRows c (added : Multiset ρ) spec key := by
  induction added generalizing counts with
  | nil => simp [countRows]
  | cons row added ih =>
    rw [List.foldl_cons, ih, countRows, countRows, Multiset.coe_countP, Multiset.coe_countP,
      List.countP_cons, putIn]
    by_cases hkey : c.keyOf spec row = some key
    · simp only [hkey, if_true, decide_true]
      omega
    · simp [hkey]

variable {rows : Multiset ρ} {spec : σ}

theorem countRows_eq_zero {key : κ} :
    countRows c rows spec key = 0 ↔ ∀ row ∈ rows, c.keyOf spec row ≠ some key := by
  rw [countRows, Multiset.countP_eq_zero]

/-! ### What is known of a cache -/

/-- What holds of the cache of a table whose live rows are `rows`. -/
structure Sound (c : Config σ κ ρ) (s : State ι σ κ ρ) (rows : Multiset ρ) (p : Probe σ κ) :
    Prop where
  enabled : p.built → c.enabled = true
  ids : p.built → p.stamp.locksId < s.nextId ∧ p.stamp.dataId < s.nextId
  sum_le : p.built → p.stamp.locksId = s.stamp.locksId →
    p.stamp.dataId = s.stamp.dataId → p.stamp.sum ≤ s.stamp.sum
  current : p.built → p.stamp.Fits s.stamp false → Right c rows p
  behind : p.built → p.stamp.Fits s.stamp true → s.unreported = false → Right c rows p

variable {p : Probe σ κ}

theorem sound_of_not_built (h : p.built = false) : Sound c s rows p := by
  have hnot : ¬ p.built := by
    rw [h]
    exact Bool.false_ne_true
  exact ⟨fun hb => absurd hb hnot, fun hb => absurd hb hnot, fun hb => absurd hb hnot,
    fun hb => absurd hb hnot, fun hb => absurd hb hnot⟩

theorem Stamp.Fits.mono {stamp now : Stamp} (h : stamp.Fits now false) (ahead : Bool) :
    stamp.Fits now ahead := by
  obtain ⟨hlocks, hdata, hsum | ⟨hfalse, -⟩⟩ := h
  · exact ⟨hlocks, hdata, .inl hsum⟩
  · cases hfalse

theorem Stamp.fits_self {stamp : Stamp} {ahead : Bool} : stamp.Fits stamp ahead :=
  ⟨rfl, rfl, .inl rfl⟩

theorem Sound.right (h : Sound c s s.rows p) (hp : s.probe = some p) (hbuilt : p.built)
    (hfits : p.stamp.Fits s.stamp true) (htrusted : s.Trusted) : Right c s.rows p := by
  rcases htrusted ⟨p, hp, hbuilt, hfits⟩ with ⟨q, hq, -, hcurrent⟩ | hreported
  · obtain rfl := Option.some.inj (hp.symm.trans hq)
    exact h.current hbuilt hcurrent
  · exact h.behind hbuilt hfits hreported

theorem build_sound (h : c.enabled) (hids : (s.locks .table).instanceId < s.nextId ∧
    (s.locks .data).instanceId < s.nextId) (p : Probe σ κ) : Sound c s s.rows (p.build c s) :=
  ⟨fun _ => h, fun _ => hids, fun _ _ _ => le_rfl, fun _ _ _ _ => rfl, fun _ _ _ _ _ => rfl⟩

variable {key : Option κ}

theorem Right.absent (h : Right c rows p) (hspec : spec ∈ p.specs)
    (habsent : p.absent spec key) : ∀ k ∈ key, ∀ row ∈ rows, c.keyOf spec row ≠ some k := by
  intro k hk
  rw [Probe.absent, Option.mem_def.mp hk, Option.all_some, decide_eq_true_eq,
    h spec hspec] at habsent
  exact countRows_eq_zero.mp habsent

/-- An answer that holds, with a sound cache. -/
def Answers (c : Config σ κ ρ) (s : State ι σ κ ρ) (spec : σ) (key : Option κ)
    (result : Bool × Option (Probe σ κ)) : Prop :=
  (∀ p ∈ result.2, Sound c s s.rows p) ∧
    (result.1 → ∀ k ∈ key, ∀ row ∈ s.rows, c.keyOf spec row ≠ some k)

theorem answers_false {probe : Option (Probe σ κ)} (h : ∀ p ∈ probe, Sound c s s.rows p) :
    Answers c s spec key (false, probe) :=
  ⟨h, nofun⟩

theorem answers_absent (h : Sound c s s.rows p) (hright : Right c s.rows p)
    (hspec : spec ∈ p.specs) : Answers c s spec key (p.absent spec key, some p) := by
  refine ⟨fun q hq => ?_, hright.absent hspec⟩
  obtain rfl := Option.some.inj hq
  exact h

end

variable {rows : Multiset ρ} {spec : σ} {p : Probe σ κ}

theorem probeFor_cases [DecidableEq σ] {create : Bool} (h : probeFor s create = some p) :
    s.probe = some p ∨ p.built = false := by
  rw [probeFor] at h
  split at h
  · rename_i q hq
    split_ifs at h with hbuilt hspecs hsame
    · exact .inl (hq.trans h)
    · exact .inl (hq.trans h)
    · obtain rfl := Option.some.inj h
      exact .inr rfl
  · split_ifs at h
    obtain rfl := Option.some.inj h
    exact .inr rfl

theorem probeFor_eq_some_of_built [DecidableEq σ] {create : Bool} (hp : s.probe = some p)
    (hbuilt : p.built) : probeFor s create = some p := by
  rw [probeFor, hp]
  exact if_pos hbuilt

theorem countRows_change [DecidableEq κ] [DecidableEq ρ] {removed added : List ρ}
    (hle : (removed : Multiset ρ) ≤ rows) (spec : σ) (key : κ) :
    countRows c (rows - removed + added) spec key =
      countRows c rows spec key - countRows c (removed : Multiset ρ) spec key +
        countRows c (added : Multiset ρ) spec key := by
  rw [countRows, Multiset.countP_add, Multiset.countP_sub hle]
  rfl

section

variable [DecidableEq σ] [DecidableEq κ] {key : Option κ}

theorem Sound.probeFor (h : ∀ p ∈ s.probe, Sound c s s.rows p) {create : Bool}
    (hp : probeFor s create = some p) : Sound c s s.rows p := by
  rcases probeFor_cases hp with hold | hnew
  · exact h p hold
  · exact sound_of_not_built hnew

theorem provesAbsent_sound (h : ∀ p ∈ s.probe, Sound c s s.rows p)
    (hids : (s.locks .table).instanceId < s.nextId ∧ (s.locks .data).instanceId < s.nextId)
    {use : ProbeUse} (huse : use = .insideExclusive → s.Trusted) :
    Answers c s spec key (provesAbsent c s spec key use) := by
  rw [provesAbsent]
  by_cases henabled : c.enabled = false
  · rw [if_pos henabled]
    exact answers_false h
  rw [if_neg henabled]
  have henabled : c.enabled := Bool.eq_true_of_not_eq_false henabled
  split
  · exact answers_false h
  rename_i p hfor
  have hp : Sound c s s.rows p := Sound.probeFor h hfor
  split
  · exact answers_false (forall_mem_some hp)
  split
  · exact answers_false (forall_mem_some hp)
  rename_i hspec
  have hspec : spec ∈ p.specs := not_not.mp hspec
  split
  · rename_i hcurrent
    refine answers_absent hp ?_ hspec
    by_cases hinside : use = .insideExclusive
    · have hprobe : s.probe = some p := (probeFor_cases hfor).resolve_right
        (by simp [hcurrent.1])
      have hfits := hcurrent.2
      rw [decide_eq_true hinside] at hfits
      exact hp.right hprobe hcurrent.1 hfits (huse hinside)
    · have hfits := hcurrent.2
      rw [decide_eq_false hinside] at hfits
      exact hp.current hcurrent.1 hfits
  split
  · exact answers_false (forall_mem_some hp)
  have hlook : Sound c s s.rows (p.look s) :=
    ⟨hp.enabled, hp.ids, hp.sum_le, hp.current, hp.behind⟩
  dsimp only
  split
  · exact answers_false (forall_mem_some hlook)
  split
  · split
    · exact answers_false (forall_mem_some hlook)
    · rename_i hnew
      exact answers_absent (build_sound henabled hids _) (fun _ _ => rfl) (not_not.mp hnew)
  · split
    · exact answers_false (forall_mem_some (sound_of_not_built rfl))
    · rename_i hnew
      exact answers_absent (build_sound henabled hids _) (fun _ _ => rfl) (not_not.mp hnew)

theorem fkChildrenAbsent_sound (h : ∀ p ∈ s.probe, Sound c s s.rows p)
    (hids : (s.locks .table).instanceId < s.nextId ∧ (s.locks .data).instanceId < s.nextId)
    {versions : ℕ} (htrusted : s.Trusted) :
    Answers c s spec key (fkChildrenAbsent c s spec key versions) := by
  rw [fkChildrenAbsent]
  by_cases hkey : key = none
  · rw [if_pos hkey, hkey]
    exact ⟨h, fun _ k hk => absurd hk (Option.not_mem_none k)⟩
  rw [if_neg hkey]
  by_cases henabled : c.enabled = false
  · rw [if_pos henabled]
    exact answers_false h
  rw [if_neg henabled]
  have henabled : c.enabled := Bool.eq_true_of_not_eq_false henabled
  split
  · exact answers_false h
  rename_i p hfor
  have hp : Sound c s s.rows p := Sound.probeFor h hfor
  split
  · exact answers_false (forall_mem_some hp)
  rename_i hspec
  have hspec : spec ∈ p.specs := not_not.mp hspec
  split
  · rename_i hcurrent
    have hprobe : s.probe = some p := (probeFor_cases hfor).resolve_right (by simp [hcurrent.1])
    exact answers_absent hp (hp.right hprobe hcurrent.1 hcurrent.2 htrusted) hspec
  split
  · exact answers_false (forall_mem_some hp)
  dsimp only
  split
  · exact answers_false
      (forall_mem_some ⟨hp.enabled, hp.ids, hp.sum_le, hp.current, hp.behind⟩)
  · have hbuild := build_sound (c := c) henabled hids
      { p with childStreak := p.childStreak + 1 }
    exact answers_absent
      ⟨hbuild.enabled, hbuild.ids, hbuild.sum_le, hbuild.current, hbuild.behind⟩
      (fun _ _ => rfl) hspec

/-! ### Reports -/

variable [DecidableEq ρ]

theorem probeApply_sound (h : ∀ p ∈ s.probe, Sound c s rows p) {removed added : List ρ}
    (hle : s.Near → (removed : Multiset ρ) ≤ rows) (htrusted : s.Trusted)
    (hp : probeApply c s removed added = some p) :
    Sound c s (rows - removed + added) p ∧
      (p.built → s.Near ∧ p.stamp.Fits s.stamp false) := by
  rw [probeApply] at hp
  by_cases henabled : c.enabled = false
  · rw [if_pos henabled] at hp
    have hunbuilt : p.built = false := by
      refine Bool.eq_false_of_not_eq_true fun hbuilt => ?_
      rw [(h p hp).enabled hbuilt] at henabled
      cases henabled
    exact ⟨sound_of_not_built hunbuilt, fun hbuilt => by simp [hunbuilt] at hbuilt⟩
  rw [if_neg henabled] at hp
  split at hp
  · rename_i hfor
    have hunbuilt : p.built = false := by
      refine Bool.eq_false_of_not_eq_true fun hbuilt => ?_
      rw [probeFor_eq_some_of_built hp hbuilt] at hfor
      cases hfor
    exact ⟨sound_of_not_built hunbuilt, fun hbuilt => by simp [hunbuilt] at hbuilt⟩
  rename_i q hfor
  split at hp
  · rename_i hunbuilt
    obtain rfl := Option.some.inj hp
    exact ⟨sound_of_not_built hunbuilt, fun hbuilt => by simp [hunbuilt] at hbuilt⟩
  rename_i hbuilt
  have hbuilt : q.built := Bool.eq_true_of_not_eq_false hbuilt
  have hprobe : s.probe = some q := (probeFor_cases hfor).resolve_right (by simp [hbuilt])
  split at hp
  · rename_i hfits
    obtain rfl := Option.some.inj hp
    have hnear : s.Near := ⟨q, hprobe, hbuilt, hfits⟩
    have hq := h q hprobe
    have hright : Right c rows q := by
      rcases htrusted hnear with ⟨q', hq', -, hcurrent⟩ | hreported
      · obtain rfl := Option.some.inj (hprobe.symm.trans hq')
        exact hq.current hbuilt hcurrent
      · exact hq.behind hbuilt hfits hreported
    have hnew : Right c (rows - removed + added) { q with
        counts := added.foldl (putIn c) (removed.foldl (takeOut c) q.counts)
        stamp := { q.stamp with sum := s.stamp.sum } } := by
      intro spec hspec
      funext key
      rw [countRows_change (hle hnear), ← hright spec hspec]
      dsimp only
      rw [foldl_putIn, foldl_takeOut]
    have hstamp : ({ q.stamp with sum := s.stamp.sum } : Stamp).Fits s.stamp false :=
      ⟨hfits.1, hfits.2.1, .inl rfl⟩
    exact ⟨⟨hq.enabled, hq.ids, fun _ _ _ => le_rfl, fun _ _ => hnew, fun _ _ _ => hnew⟩,
      fun _ => ⟨hnear, hstamp⟩⟩
  · obtain rfl := Option.some.inj hp
    exact ⟨sound_of_not_built rfl, nofun⟩

theorem report_sound (h : ∀ p ∈ s.probe, Sound c s rows p) {r : Report ρ}
    (hle : s.Near → (r.removed : Multiset ρ) ≤ rows) (htrusted : s.Trusted)
    (hp : report c s r = some p) :
    Sound c s (rows - r.removed + r.added) p ∧
      (p.built → s.Near ∧ p.stamp.Fits s.stamp false) := by
  cases r with
  | apply removed added => exact probeApply_sound h hle htrusted hp
  | inserted new =>
    by_cases henabled : c.enabled = false
    · simp only [report, henabled, if_true] at hp
      have hunbuilt : p.built = false := by
        refine Bool.eq_false_of_not_eq_true fun hbuilt => ?_
        rw [(h p hp).enabled hbuilt] at henabled
        cases henabled
      exact ⟨sound_of_not_built hunbuilt, fun hbuilt => by simp [hunbuilt] at hbuilt⟩
    simp only [report, henabled] at hp
    -- the count of INSERTs says nothing of the rows
    have hcounted : ∃ probe, probeApply c { s with probe := probe } [] new = some p ∧
        ∀ q ∈ probe, q.built → ∃ q' ∈ s.probe, q'.built ∧ q'.specs = q.specs ∧
          q'.counts = q.counts ∧ q'.stamp = q.stamp := by
      cases hfor : probeFor s true with
      | none =>
        rw [hfor] at hp
        exact ⟨_, hp, fun q hq hbuilt => ⟨q, hq, hbuilt, rfl, rfl, rfl⟩⟩
      | some q' =>
        rw [hfor] at hp
        refine ⟨_, hp, fun q hq hbuilt => ?_⟩
        obtain rfl := Option.some.inj hq
        exact ⟨q', (probeFor_cases hfor).resolve_right (by
          dsimp only at hbuilt
          simp [hbuilt]), hbuilt, rfl, rfl, rfl⟩
    obtain ⟨probe, happly, hold⟩ := hcounted
    have hnear : State.Near { s with probe := probe } → s.Near := by
      rintro ⟨q, hq, hbuilt, hfits⟩
      obtain ⟨q', hq', hbuilt', -, -, hstamp⟩ := hold q hq hbuilt
      exact ⟨q', hq', hbuilt', by rw [hstamp]; exact hfits⟩
    have hsound : Sound c { s with probe := probe } (rows - (∅ : List ρ) + new) p ∧
        (p.built → State.Near { s with probe := probe } ∧ p.stamp.Fits s.stamp false) :=
      probeApply_sound (fun q hq => ?_) (fun hn => hle (hnear hn)) (fun hn => ?_) happly
    · obtain ⟨⟨henabled', hids, hsum, hcurrent, hbehind⟩, hbuilt⟩ := hsound
      exact ⟨⟨henabled', hids, hsum, hcurrent, hbehind⟩,
        fun hb => ⟨hnear (hbuilt hb).1, (hbuilt hb).2⟩⟩
    · by_cases hbuilt : q.built = true
      · obtain ⟨q', hq', hbuilt', hspecs, hcounts, hstamp⟩ := hold q hq hbuilt
        obtain ⟨henabled', hids, hsum, hcurrent, hbehind⟩ := h q' hq'
        rw [hstamp] at hids hsum hcurrent hbehind
        simp only [Right, hspecs, hcounts] at hcurrent hbehind
        exact ⟨fun _ => henabled' hbuilt', fun _ => hids hbuilt', fun _ => hsum hbuilt',
          fun _ => hcurrent hbuilt', fun _ => hbehind hbuilt'⟩
      · exact sound_of_not_built (Bool.eq_false_of_not_eq_true hbuilt)
    · obtain ⟨q, hq, hbuilt, hfits⟩ := hn
      obtain ⟨q', hq', hbuilt', -, -, hstamp⟩ := hold q hq hbuilt
      rcases htrusted ⟨q', hq', hbuilt', by rw [hstamp]; exact hfits⟩ with
        ⟨q₀, hq₀, -, hcurrent⟩ | hreported
      · obtain rfl := Option.some.inj (hq'.symm.trans hq₀)
        exact .inl ⟨q, hq, hbuilt, by rw [← hstamp]; exact hcurrent⟩
      · exact .inr hreported

theorem reportAll_sound {reports : List (Report ρ)} {rows' : Multiset ρ}
    (h : ∀ p ∈ s.probe, Sound c s rows p) (haccurate : s.Near → Accurate rows reports rows')
    (htrusted : s.Trusted) : ∀ p ∈ reportAll c s reports, Sound c s rows' p := by
  induction reports generalizing s rows with
  | nil =>
    intro p hp
    by_cases hnear : s.Near
    · rw [Accurate] at haccurate
      rw [haccurate hnear]
      exact h p hp
    · have hfar : p.built → ¬ p.stamp.Fits s.stamp true := fun hbuilt hfits =>
        hnear ⟨p, hp, hbuilt, hfits⟩
      have hp' := h p hp
      exact ⟨hp'.enabled, hp'.ids, hp'.sum_le,
        fun hbuilt hfits => absurd (hfits.mono true) (hfar hbuilt),
        fun hbuilt hfits => absurd hfits (hfar hbuilt)⟩
  | cons r reports ih =>
    have hreport : ∀ p ∈ report c s r, Sound c s (rows - r.removed + r.added) p ∧
        (p.built → s.Near ∧ p.stamp.Fits s.stamp false) := fun p hp =>
      report_sound h (fun hnear => (haccurate hnear).1) htrusted hp
    have hnext : ∀ p ∈ reportAll c { s with probe := report c s r } reports,
        Sound c { s with probe := report c s r } rows' p :=
      @ih { s with probe := report c s r } (rows - r.removed + r.added) (fun p hp => ?_) ?_ ?_
    · intro p hp
      obtain ⟨henabled, hids, hsum, hcurrent, hbehind⟩ := hnext p hp
      exact ⟨henabled, hids, hsum, hcurrent, hbehind⟩
    · obtain ⟨henabled, hids, hsum, hcurrent, hbehind⟩ := (hreport p hp).1
      exact ⟨henabled, hids, hsum, hcurrent, hbehind⟩
    · rintro ⟨p, hp, hbuilt, -⟩
      exact (haccurate ((hreport p hp).2 hbuilt).1).2
    · rintro ⟨p, hp, hbuilt, -⟩
      exact .inl ⟨p, hp, hbuilt, ((hreport p hp).2 hbuilt).2⟩

omit [DecidableEq σ] [DecidableEq ρ] in
theorem probeCommit_sound (h : ∀ p ∈ s.probe, Sound c s s.rows p) (htrusted : s.Trusted) :
    ∀ p ∈ probeCommit c s, Sound c s s.rows p := by
  intro p hp
  rw [probeCommit] at hp
  split at hp
  · exact h p hp
  obtain ⟨q, hq, heq⟩ := Option.map_eq_some_iff.mp hp
  split at heq
  · rw [← heq]
    exact h q hq
  rename_i hbuilt
  have hbuilt : q.built := Bool.eq_true_of_not_eq_false hbuilt
  split at heq
  · rename_i hone
    subst heq
    have hfits : q.stamp.Fits s.stamp true := ⟨hone.1, hone.2.1, .inr ⟨rfl, hone.2.2⟩⟩
    have hright := (h q hq).right hq hbuilt hfits htrusted
    exact ⟨(h q hq).enabled, (h q hq).ids, fun _ _ _ => le_rfl, fun _ _ => hright,
      fun _ _ _ => hright⟩
  · subst heq
    exact sound_of_not_built rfl

end

/-! ### Locks -/

variable [DecidableEq ι] [DecidableEq σ] [DecidableEq κ] [DecidableEq ρ]

theorem acquire_eq {m' : FairSharedMutex ι} {exclusive : Bool}
    (h : m.acquire x exclusive = some m') : m'.instanceId = m.instanceId ∧
      m'.exclusiveCount = m.exclusiveCount + if exclusive then 1 else 0 := by
  rw [FairSharedMutex.acquire] at h
  split_ifs at h with hheld hexclusive
  all_goals
    obtain rfl := Option.some.inj h
    simp_all

theorem release_eq {m' : FairSharedMutex ι} (h : m.release x = some m') :
    m'.instanceId = m.instanceId ∧ m'.exclusiveCount = m.exclusiveCount := by
  rw [FairSharedMutex.release] at h
  split_ifs at h
  all_goals
    obtain rfl := Option.some.inj h
    exact ⟨rfl, rfl⟩

/-- What holds of a table in every state. -/
structure Good (c : Config σ κ ρ) (s : State ι σ κ ρ) : Prop where
  sound : ∀ p ∈ s.probe, Sound c s s.rows p
  ids : (s.locks .table).instanceId < s.nextId ∧ (s.locks .data).instanceId < s.nextId

omit [DecidableEq σ] [DecidableEq ρ] in
theorem acquire_good (h : Good c s) {l : Lock} {exclusive : Bool}
    (hm : (s.locks l).acquire x exclusive = some m) :
    Good c { s with
      locks := update s.locks l m
      unreported := s.unreported && !exclusive } := by
  obtain ⟨hid, hcount⟩ := acquire_eq hm
  have hstamp : State.stamp { s with
      locks := update s.locks l m
      unreported := s.unreported && !exclusive } =
      { s.stamp with sum := s.stamp.sum + if exclusive then 1 else 0 } :=
    stamp_update hid hcount
  refine ⟨fun p hp => ?_, ?_⟩
  · have hold := h.sound p hp
    refine ⟨hold.enabled, hold.ids, fun hb hlocks hdata => ?_, fun hb hfits => ?_,
      fun hb hfits hreported => ?_⟩
    · rw [hstamp] at hlocks hdata ⊢
      exact (hold.sum_le hb hlocks hdata).trans (Nat.le_add_right ..)
    · rw [hstamp] at hfits
      cases exclusive with
      | true =>
        obtain ⟨hlocks, hdata, hsum | ⟨hfalse, -⟩⟩ := hfits
        · have := hold.sum_le hb hlocks hdata
          simp only [if_true] at hsum
          omega
        · cases hfalse
      | false => exact hold.current hb hfits
    · rw [hstamp] at hfits
      cases exclusive with
      | true =>
        obtain ⟨hlocks, hdata, hsum⟩ := hfits
        have hle := hold.sum_le hb hlocks hdata
        simp only [if_true] at hsum
        exact hold.current hb ⟨hlocks, hdata, .inl (by omega)⟩
      | false =>
        rw [Bool.not_false, Bool.and_true] at hreported
        exact hold.behind hb hfits hreported
  · dsimp only
    rw [instanceId_update hid, instanceId_update hid]
    exact h.ids

omit [DecidableEq σ] [DecidableEq ρ] in
theorem release_good (h : Good c s) {l : Lock} (hm : (s.locks l).release x = some m) :
    Good c { s with locks := update s.locks l m } := by
  obtain ⟨hid, hcount⟩ := release_eq hm
  have hstamp : State.stamp { s with locks := update s.locks l m } = s.stamp :=
    stamp_update (d := 0) hid hcount
  refine ⟨fun p hp => ?_, ?_⟩
  · obtain ⟨henabled, hids, hsum, hcurrent, hbehind⟩ := h.sound p hp
    rw [← hstamp] at hsum hcurrent hbehind
    exact ⟨henabled, hids, hsum, hcurrent, hbehind⟩
  · dsimp only
    rw [instanceId_update hid, instanceId_update hid]
    exact h.ids

omit [DecidableEq ι] [DecidableEq σ] [DecidableEq ρ] in
theorem replaceLocks_good (h : Good c s) :
    Good c { s with
      locks := update (update s.locks .table (newMutex s.nextId)) .data
        (newMutex (s.nextId + 1))
      nextId := s.nextId + 2 } := by
  refine ⟨fun p hp => ?_, ?_⟩
  · have hold := h.sound p hp
    have hne : p.built → p.stamp.dataId ≠ s.nextId + 1 := fun hb => by
      have := (hold.ids hb).2
      omega
    refine ⟨hold.enabled, fun hb => ?_, fun hb _ hdata => absurd hdata (hne hb),
      fun hb hfits => absurd hfits.2.1 (hne hb), fun hb hfits => absurd hfits.2.1 (hne hb)⟩
    have := hold.ids hb
    dsimp only
    omega
  · simp [newMutex]

omit [DecidableEq ι] in
theorem write_sound (h : Good c s) {reports : List (Report ρ)}
    (hfits : Fits s (.write x rows reports)) (hp : reportAll c s reports = some p) :
    Sound c { s with
      rows := rows
      probe := reportAll c s reports
      unreported := s.unreported || (reports.isEmpty && rows != s.rows) } rows p := by
  rw [Fits] at hfits
  cases reports with
  | nil =>
    obtain ⟨henabled, hids, hsum, hcurrent, hbehind⟩ := h.sound p hp
    rw [if_pos rfl] at hfits
    by_cases hsame : rows = s.rows
    · subst hsame
      refine ⟨henabled, hids, hsum, hcurrent, fun hb hfits hreported => ?_⟩
      simp only [List.isEmpty_nil, bne_self_eq_false, Bool.and_false, Bool.or_false]
        at hreported
      exact hbehind hb hfits hreported
    · have hstale := hfits.resolve_left hsame
      refine ⟨henabled, hids, hsum, fun hb hfits => absurd ⟨p, hp, hb, hfits⟩ hstale,
        fun hb _ hreported => ?_⟩
      simp [hsame] at hreported
  | cons r reports =>
    rw [if_neg (List.cons_ne_nil _ _)] at hfits
    obtain ⟨henabled, hids, hsum, hcurrent, hbehind⟩ :=
      reportAll_sound h.sound hfits.1 hfits.2 p hp
    refine ⟨henabled, hids, hsum, hcurrent, fun hb hfits hreported => ?_⟩
    simp only [List.isEmpty_cons, Bool.false_and, Bool.or_false] at hreported
    exact hbehind hb hfits hreported

theorem step_good (h : Good c s) {a : Action ι σ κ ρ} {s' : State ι σ κ ρ} (hfits : Fits s a)
    (hstep : step c s a = some s') : Good c s' := by
  cases a with
  | acquire x l exclusive =>
    rw [step] at hstep
    split at hstep
    · obtain ⟨m, hm, rfl⟩ := Option.map_eq_some_iff.mp hstep
      exact acquire_good h hm
    · cases hstep
  | release x l =>
    rw [step] at hstep
    split at hstep
    · obtain ⟨m, hm, rfl⟩ := Option.map_eq_some_iff.mp hstep
      exact release_good h hm
    · cases hstep
  | provesAbsent x spec key use =>
    rw [step] at hstep
    split at hstep
    · obtain rfl := Option.some.inj hstep
      refine ⟨fun p hp => ?_, h.ids⟩
      obtain ⟨henabled, hids, hsum, hcurrent, hbehind⟩ :=
        (provesAbsent_sound h.sound h.ids hfits).1 p hp
      exact ⟨henabled, hids, hsum, hcurrent, hbehind⟩
    · cases hstep
  | fkChildrenAbsent x spec key versions =>
    rw [step] at hstep
    split at hstep
    · obtain rfl := Option.some.inj hstep
      refine ⟨fun p hp => ?_, h.ids⟩
      obtain ⟨henabled, hids, hsum, hcurrent, hbehind⟩ :=
        (fkChildrenAbsent_sound h.sound h.ids hfits).1 p hp
      exact ⟨henabled, hids, hsum, hcurrent, hbehind⟩
    · cases hstep
  | write x rows reports =>
    rw [step] at hstep
    split at hstep
    · obtain rfl := Option.some.inj hstep
      exact ⟨fun p hp => write_sound h hfits hp, h.ids⟩
    · cases hstep
  | commit x =>
    rw [step] at hstep
    split at hstep
    · obtain rfl := Option.some.inj hstep
      refine ⟨fun p hp => ?_, h.ids⟩
      obtain ⟨henabled, hids, hsum, hcurrent, hbehind⟩ := probeCommit_sound h.sound hfits p hp
      exact ⟨henabled, hids, hsum, hcurrent, hbehind⟩
    · cases hstep
  | replaceLocks x =>
    rw [step] at hstep
    split at hstep
    · obtain rfl := Option.some.inj hstep
      exact replaceLocks_good h
    · cases hstep
  | changeKeys x specs =>
    rw [step] at hstep
    split at hstep
    · obtain rfl := Option.some.inj hstep
      refine ⟨fun p hp => ?_, h.ids⟩
      obtain ⟨henabled, hids, hsum, hcurrent, hbehind⟩ := h.sound p hp
      exact ⟨henabled, hids, hsum, hcurrent, hbehind⟩
    · cases hstep

omit [DecidableEq ι] [DecidableEq σ] [DecidableEq ρ] in
theorem start_good (specs : List σ) (rows : Multiset ρ) :
    Good c (start specs rows : State ι σ κ ρ) :=
  ⟨fun _ hp => absurd hp (Option.not_mem_none _), by simp [start, newMutex]⟩

/-- In every state that steps lead to which meet the condition, a cache whose stamp fits counts
the live rows, and a look-up that answers true asks for a key that no live row holds. -/
theorem reaches_right {specs : List σ} {rows : Multiset ρ}
    (h : Transition.Reaches (step c) Fits (start specs rows) s) :
    (∀ p ∈ s.probe, p.built → p.stamp = s.stamp → Right c s.rows p) ∧
      ∀ a, Fits s a → answer c s a →
        ∀ q ∈ a.asked, ∀ row ∈ s.rows, c.keyOf q.1 row ≠ some q.2 := by
  have hgood : Good c s :=
    h.invariant (fun s a s' hs hfits hstep => step_good hs hfits hstep) (start_good specs rows)
  refine ⟨fun p hp hb hstamp => (hgood.sound p hp).current hb (hstamp ▸ Stamp.fits_self),
    fun a hfits hanswer q hq => ?_⟩
  cases a with
  | provesAbsent x spec key use =>
    obtain ⟨k, hk, rfl⟩ := Option.map_eq_some_iff.mp hq
    exact (provesAbsent_sound hgood.sound hgood.ids hfits).2 hanswer k hk
  | fkChildrenAbsent x spec key versions =>
    obtain ⟨k, hk, rfl⟩ := Option.map_eq_some_iff.mp hq
    exact (fkChildrenAbsent_sound hgood.sound hgood.ids hfits).2 hanswer k hk
  | _ => cases hanswer

/-! ### A row that comes back -/

def oneColumn : Config Unit ℕ ℕ where
  keyOf _ row := some row
  enabled := true
  streakNeeded := 2

def acquireShared (x : ℕ) : List (Action ℕ Unit ℕ ℕ) :=
  [.acquire x .structural false, .acquire x .table false, .acquire x .data false]

def makeCache : List (Action ℕ Unit ℕ ℕ) :=
  acquireShared 1 ++ List.replicate 3 (.provesAbsent 1 () (some 5) .lookup)

theorem makeCache_right :
    ∃ s, Transition.exec (step oneColumn) (start [()] {7}) makeCache = some s ∧
      answer oneColumn s (.provesAbsent 1 () (some 5) .noBuild) ∧
      (∀ p ∈ s.probe, p.built → p.stamp = s.stamp → Right oneColumn s.rows p) ∧
      ∀ row ∈ s.rows, oneColumn.keyOf () row ≠ some 5 := by
  have hexec : (Transition.exec (step oneColumn) (start [()] {7}) makeCache).map
      (fun s => answer oneColumn s (.provesAbsent 1 () (some 5) .noBuild)) = some true := by
    decide
  obtain ⟨s, hs, hanswer⟩ := Option.map_eq_some_iff.mp hexec
  have hok : Transition.execOk (step oneColumn) Fits (start [()] {7}) makeCache := by
    refine Transition.execOk_of_forall _ fun a ha s => ?_
    rcases List.mem_append.mp ha with ha | ha
    · simp only [acquireShared, List.mem_cons, List.not_mem_nil, or_false] at ha
      obtain rfl | rfl | rfl := ha
      all_goals trivial
    · rw [List.eq_of_mem_replicate ha]
      exact nofun
  obtain ⟨hright, hasked⟩ := reaches_right (Transition.Reaches.of_exec _ hok hs)
  exact ⟨s, hs, hanswer, hright, hasked (.provesAbsent 1 () (some 5) .noBuild) nofun hanswer
    ((), 5) rfl⟩

/-- A ROLLBACK revives the row, and a look-up under shared locks takes the cache for current. -/
theorem rollback_unseen :
    ¬ ∀ s : State ℕ Unit ℕ ℕ,
      Transition.Reaches (step oneColumn) Transition.anyStep (start [()] {7}) s →
      ∀ a, answer oneColumn s a →
        ∀ q ∈ a.asked, ∀ row ∈ s.rows, oneColumn.keyOf q.1 row ≠ some q.2 := by
  intro h
  have hexec : (Transition.exec (step oneColumn) (start [()] {7}) (makeCache ++
      [.release 1 .data, .release 1 .table, .release 1 .structural,
        .acquire 2 .structural true, .write 2 {5, 7} [], .release 2 .structural] ++
      acquireShared 1)).map (fun s =>
        (answer oneColumn s (.fkChildrenAbsent 1 () (some 5) 0), decide (5 ∈ s.rows))) =
      some (true, true) := by
    decide
  obtain ⟨s, hs, hfound⟩ := Option.map_eq_some_iff.mp hexec
  obtain ⟨hanswer, hrow⟩ := Prod.mk.inj hfound
  exact h s (Transition.Reaches.of_exec _ (Transition.execOk_anyStep ..) hs) _ hanswer ((), 5) rfl
    5 (of_decide_eq_true hrow) rfl

end RusqlEngine.UniqueProbe
