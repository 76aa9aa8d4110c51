import RusqlEngine.Library.CountedReplay

/-!
# The order of a log that is replayed by counting

Once the logged copies are there, an end by one stamp is carried out when fewer copies bore the
stamp than there were ends by it before. While each of these ends finds a live copy, the copies
with each stamp are as many as the counts say, in whatever order the log is. Replayed again, the
log finds its work done.
-/

namespace CountedReplay

open List

variable {α ι τ : Type*} [DecidableEq ι] [DecidableEq τ] {V : Versioned α ι τ}

def bearing (V : Versioned α ι τ) (i : ι) (s : Option τ) (rows : List α) : ℕ :=
  rows.countP fun a => V.ident a == i && V.stamp a == s

/-- The ends of the identity by the stamp. -/
def kills (V : Versioned α ι τ) (i : ι) (x : τ) (ops : List (Op α τ)) : ℕ :=
  ops.countP fun
    | .insert _ => false
    | .kill a y => V.ident a == i && y == x

/-- The ends are carried out against counts that are known beforehand. -/
def applyKills (V : Versioned α ι τ) (already : ι → τ → ℕ) :
    List (ι × τ) → List α → List (Op α τ) → List α
  | _, rows, [] => rows
  | seen, rows, .insert _ :: ops => applyKills V already seen rows ops
  | seen, rows, .kill a x :: ops =>
    applyKills V already ((V.ident a, x) :: seen)
      (if seen.count (V.ident a, x) + 1 ≤ already (V.ident a) x then rows
        else stampFirst V (V.ident a) x rows) ops

variable {rows : List α}

section

variable {i : ι} {x : τ}

theorem stampFirst_eq_self (h : alive V i rows = 0) : stampFirst V i x rows = rows := by
  induction rows with
  | nil => rfl
  | cons a rows ih =>
    rw [alive, List.countP_cons] at h
    have hnot : ¬ (V.ident a = i ∧ live V a) := by
      rintro ⟨hident, hlive⟩
      simp [hident, hlive] at h
    rw [stampFirst, if_neg hnot, ih (Nat.eq_zero_of_add_eq_zero_right h)]

theorem ended_stampFirst (hx : x ≠ V.zero) (h : 0 < alive V i rows) :
    ended V i x (stampFirst V i x rows) = ended V i x rows + 1 := by
  induction rows with
  | nil => exact absurd h (Nat.lt_irrefl 0)
  | cons a rows ih =>
    rw [stampFirst]
    split
    next hfound =>
      have hbefore : (V.ident a == i && V.stamp a == some x) = false := by
        simp [stamp_ne_of_live hfound.2 hx]
      have hafter : (V.ident (V.kill x a) == i && V.stamp (V.kill x a) == some x) := by
        simp [V.ident_kill, V.stamp_kill, hfound.1]
      rw [ended, ended, List.countP_cons, List.countP_cons, hbefore, hafter]
      rfl
    next hnot =>
      have hskip : (V.ident a == i && live V a) = false := by
        simpa using hnot
      have hrest : 0 < alive V i rows := by
        rwa [alive, List.countP_cons_of_neg (by simp [hskip])] at h
      have hih := ih hrest
      simp only [ended, List.countP_cons] at hih ⊢
      omega

theorem mem_of_mem_stampFirst (hx : x ≠ V.zero) {a : α} (ha : a ∈ stampFirst V i x rows)
    (hlive : live V a) : a ∈ rows := by
  induction rows with
  | nil => exact ha
  | cons b rows ih =>
    rw [stampFirst] at ha
    split at ha
    next =>
      rcases List.mem_cons.mp ha with rfl | ha
      · exact absurd hlive (by simp [live_kill hx])
      · exact List.mem_cons_of_mem _ ha
    next =>
      rcases List.mem_cons.mp ha with rfl | ha
      · exact List.mem_cons_self
      · exact List.mem_cons_of_mem _ (ih ha)

end

variable {already : ι → τ → ℕ}

/-- The cache of counts changes nothing: it holds what was counted before any end. -/
theorem addKills_eq_applyKills : ∀ {ops : List (Op α τ)}
    {seen seen' : List (ι × τ)} {present : List ((ι × τ) × ℕ)} {rows : List α}, Ends V ops →
    (∀ i, Kept V i (already i) seen present rows) →
    (∀ i x, copies V i rows ≠ 0 → seen'.count (i, x) = seen.count (i, x)) →
    addKills V seen present rows ops = applyKills V already seen' rows ops
  | [], _, _, _, _, _, _, _ => rfl
  | .insert a :: ops, _, _, _, _, hends, hkept, hseen => by
      rw [addKills, applyKills]
      exact addKills_eq_applyKills hends.tail hkept hseen
  | .kill a x :: ops, seen, seen', present, rows, hends, hkept, hseen => by
      have hx : x ≠ V.zero := hends a x List.mem_cons_self
      rw [addKills, applyKills]
      by_cases hcopies : copies V (V.ident a) rows = 0
      · -- without a copy the end is not counted, and it would find nothing
        have halive : alive V (V.ident a) rows = 0 :=
          Nat.le_zero.mp (hcopies ▸ alive_le_copies (V.ident a) rows)
        rw [if_pos hcopies, stampFirst_eq_self halive, ite_self]
        apply addKills_eq_applyKills hends.tail hkept
        intro i y hi
        have hne : (V.ident a, x) ≠ (i, y) := by
          rintro ⟨⟩
          exact hi hcopies
        rw [List.count_cons_of_ne hne, hseen i y hi]
      · rw [if_neg hcopies, (hkept (V.ident a)).presentFor_eq hx, hseen _ _ hcopies]
        apply addKills_eq_applyKills hends.tail
        · intro i
          have hended : ∀ y, y ≠ V.zero → (i, y) ≠ (V.ident a, x) → ended V i y
              (if seen.count (V.ident a, x) + 1 ≤ already (V.ident a) x then rows
                else stampFirst V (V.ident a) x rows) = ended V i y rows := by
            intro y hy hne
            split
            next => rfl
            next => exact ended_stampFirst_of_ne hy hne rows
          by_cases hi : V.ident a = i
          · subst hi
            exact (hkept _).same hx fun y hy hyx =>
              hended y hy fun he => hyx (Prod.ext_iff.mp he).2
          · exact (hkept i).other hi fun y hy =>
              hended y hy fun he => hi (Prod.ext_iff.mp he).1.symm
        · intro i y hi
          have hi' : copies V i rows ≠ 0 := by
            rw [apply_ite (copies V i), copies_stampFirst, ite_self] at hi
            exact hi
          rw [List.count_cons, List.count_cons, hseen i y hi']

variable {i : ι}

omit [DecidableEq τ] in
theorem copies_stampIf {j : ι} {x : τ} {c : Prop} [Decidable c] [DecidableEq τ] (rows : List α) :
    copies V j (if c then rows else stampFirst V i x rows) = copies V j rows := by
  split
  next => rfl
  next => exact copies_stampFirst j rows

theorem mem_of_mem_applyKills {a : α} (hlive : live V a) :
    ∀ {ops : List (Op α τ)} {seen : List (ι × τ)} {rows : List α}, Ends V ops →
    a ∈ applyKills V already seen rows ops → a ∈ rows
  | [], _, _, _, h => h
  | .insert _ :: ops, _, _, hends, h => mem_of_mem_applyKills hlive hends.tail h
  | .kill b x :: ops, _, rows, hends, h => by
      have hrest := mem_of_mem_applyKills hlive hends.tail h
      split at hrest
      next => exact hrest
      next => exact mem_of_mem_stampFirst (hends b x List.mem_cons_self) hrest hlive

variable {ops : List (Op α τ)}

theorem count_add_kills_cons {x y : τ} {a : α} {seen : List (ι × τ)} :
    ((V.ident a, y) :: seen).count (i, x) + kills V i x ops =
      seen.count (i, x) + kills V i x (.kill a y :: ops) := by
  simp only [kills, List.count_cons, List.countP_cons, beq_iff_eq, Prod.mk.injEq, Bool.and_eq_true]
  omega

/-- While each end carried out finds a live copy, the copies with a stamp become as many as its
ends, if they are not more already. -/
theorem ended_applyKills {i : ι} {x : τ} (hx : x ≠ V.zero) :
    ∀ {ops : List (Op α τ)} {seen : List (ι × τ)} {seenStamps : List τ} {rows : List α},
    Ends V ops → (∀ y, seenStamps.count y = seen.count (i, y)) →
    effective V i (already i) seenStamps ops ≤ alive V i rows →
    ended V i x rows = max (already i x) (seen.count (i, x)) →
    ended V i x (applyKills V already seen rows ops) =
      max (already i x) (seen.count (i, x) + kills V i x ops)
  | [], _, _, _, _, _, _, hended => by
      simpa [applyKills, kills] using hended
  | .insert a :: ops, seen, seenStamps, rows, hends, hseen, hbound, hended => by
      rw [effective] at hbound
      simpa [applyKills, kills] using ended_applyKills hx hends.tail hseen hbound hended
  | .kill a y :: ops, seen, seenStamps, rows, hends, hseen, hbound, hended => by
      have hy : y ≠ V.zero := hends a y List.mem_cons_self
      rw [effective] at hbound
      rw [applyKills, ← count_add_kills_cons]
      by_cases hi : V.ident a = i
      · subst hi
        have hseen' : ∀ z, (y :: seenStamps).count z =
            ((V.ident a, y) :: seen).count (V.ident a, z) := by
          intro z
          simp [List.count_cons, hseen z]
        rw [if_pos rfl, hseen y] at hbound
        have hcount : ((V.ident a, y) :: seen).count (V.ident a, x) =
            seen.count (V.ident a, x) + if y = x then 1 else 0 := by
          simp [List.count_cons]
        by_cases hskip : seen.count (V.ident a, y) < already (V.ident a) y
        · rw [if_pos hskip, Nat.zero_add] at hbound
          rw [if_pos (Nat.succ_le_of_lt hskip)]
          apply ended_applyKills hx hends.tail hseen' hbound
          rw [hcount, hended]
          split
          next h =>
            subst h
            omega
          next => rw [Nat.add_zero]
        · rw [if_neg hskip] at hbound
          have halive : 0 < alive V (V.ident a) rows := by omega
          have hbound' : effective V (V.ident a) (already (V.ident a)) (y :: seenStamps) ops ≤
              alive V (V.ident a) (stampFirst V (V.ident a) y rows) := by
            rw [alive_stampFirst hy]
            omega
          rw [if_neg (fun h => hskip (Nat.lt_of_succ_le h))]
          apply ended_applyKills hx hends.tail hseen' hbound'
          rw [hcount]
          by_cases hyx : y = x
          · subst hyx
            rw [ended_stampFirst hy halive, hended, if_pos rfl]
            omega
          · rw [ended_stampFirst_of_ne hx (fun he => hyx (Prod.ext_iff.mp he).2.symm), hended,
              if_neg hyx, Nat.add_zero]
      · rw [if_neg hi] at hbound
        have hseen' : ∀ z, seenStamps.count z = ((V.ident a, y) :: seen).count (i, z) := by
          intro z
          rw [List.count_cons_of_ne (fun he => hi (Prod.ext_iff.mp he).1), hseen z]
        have hcount : ((V.ident a, y) :: seen).count (i, x) = seen.count (i, x) :=
          List.count_cons_of_ne fun he => hi (Prod.ext_iff.mp he).1
        apply ended_applyKills hx hends.tail hseen'
        · split
          next => exact hbound
          next =>
            rw [alive_stampFirst_of_ne (Ne.symm hi)]
            exact hbound
        · rw [hcount, ← hended]
          split
          next => rfl
          next => exact ended_stampFirst_of_ne hx (fun he => hi (Prod.ext_iff.mp he).1.symm) rows

/-- However many ends there are: each finds its stamp on a copy afterwards, or no live copy is
left. -/
theorem kills_le_ended_applyKills {i : ι} {x : τ} (hx : x ≠ V.zero) :
    ∀ {ops : List (Op α τ)} {seen : List (ι × τ)} {rows : List α}, Ends V ops →
    (already i x ≤ ended V i x rows) →
    (alive V i rows = 0 ∨ seen.count (i, x) ≤ ended V i x rows) →
    alive V i (applyKills V already seen rows ops) = 0 ∨
      seen.count (i, x) + kills V i x ops ≤ ended V i x (applyKills V already seen rows ops)
  | [], _, _, _, _, h => by
      simpa [applyKills, kills] using h
  | .insert a :: ops, seen, rows, hends, halready, h => by
      simpa [applyKills, kills] using kills_le_ended_applyKills hx hends.tail halready h
  | .kill a y :: ops, seen, rows, hends, halready, h => by
      have hy : y ≠ V.zero := hends a y List.mem_cons_self
      rw [applyKills, ← count_add_kills_cons]
      split
      next hskip =>
        apply kills_le_ended_applyKills hx hends.tail halready
        by_cases hkey : (V.ident a, y) = (i, x)
        · rw [hkey, List.count_cons_self, ← (Prod.mk.inj hkey).1, ← (Prod.mk.inj hkey).2]
          obtain ⟨rfl, rfl⟩ := Prod.mk.inj hkey
          exact .inr (Nat.le_trans hskip halready)
        · rw [List.count_cons_of_ne hkey]
          exact h
      next =>
        by_cases hkey : (V.ident a, y) = (i, x)
        · obtain ⟨rfl, rfl⟩ := Prod.mk.inj hkey
          rcases Nat.eq_zero_or_pos (alive V (V.ident a) rows) with hnone | hpos
          · rw [stampFirst_eq_self hnone]
            exact kills_le_ended_applyKills hx hends.tail halready (.inl hnone)
          · have hended := ended_stampFirst hy hpos
            have hseen := h.resolve_left (Nat.ne_of_gt hpos)
            apply kills_le_ended_applyKills hx hends.tail
            · rw [hended]
              exact Nat.le_succ_of_le halready
            · rw [hended, List.count_cons_self]
              exact .inr (Nat.succ_le_succ hseen)
        · have hended := ended_stampFirst_of_ne hx (Ne.symm hkey) rows
          apply kills_le_ended_applyKills hx hends.tail
          · rw [hended]
            exact halready
          · rw [hended, List.count_cons_of_ne hkey]
            refine h.imp_left fun hnone => ?_
            by_cases hi : i = V.ident a
            · subst hi
              rw [alive_stampFirst hy, hnone]
            · rw [alive_stampFirst_of_ne hi, hnone]

omit [DecidableEq τ] in
/-- A log whose work is done changes nothing. -/
theorem addInserts_eq_self : ∀ {ops : List (Op α τ)} {seen : List ι} {rows : List α},
    (∀ i, seen.count i + inserts V i ops ≤ copies V i rows) → addInserts V seen rows ops = rows
  | [], _, _, _ => rfl
  | .kill _ _ :: ops, seen, rows, h => by
      rw [addInserts]
      apply addInserts_eq_self
      intro i
      simpa [inserts] using h i
  | .insert a :: ops, seen, rows, h => by
      have hthere : seen.count (V.ident a) + 1 ≤ copies V (V.ident a) rows := by
        have := h (V.ident a)
        simp only [inserts, List.countP_cons, beq_self_eq_true, if_true] at this
        omega
      rw [addInserts, if_pos hthere]
      apply addInserts_eq_self
      intro i
      have hi := h i
      simp only [inserts, List.countP_cons, List.count_cons, beq_iff_eq] at hi ⊢
      omega

theorem applyKills_eq_self : ∀ {ops : List (Op α τ)}
    {seen : List (ι × τ)} {rows : List α}, Ends V ops →
    (∀ i x, x ≠ V.zero → alive V i rows = 0 ∨ seen.count (i, x) + kills V i x ops ≤ already i x) →
    applyKills V already seen rows ops = rows
  | [], _, _, _, _ => rfl
  | .insert _ :: ops, _, _, hends, h => by
      rw [applyKills]
      exact applyKills_eq_self hends.tail h
  | .kill a x :: ops, seen, rows, hends, h => by
      have hx : x ≠ V.zero := hends a x List.mem_cons_self
      have hself : (if seen.count (V.ident a, x) + 1 ≤ already (V.ident a) x then rows
          else stampFirst V (V.ident a) x rows) = rows := by
        split
        next => rfl
        next hmore =>
          apply stampFirst_eq_self
          refine (h (V.ident a) x hx).resolve_right fun hle => hmore ?_
          rw [← count_add_kills_cons, List.count_cons_self] at hle
          omega
      rw [applyKills, hself]
      apply applyKills_eq_self hends.tail
      intro i y hy
      rw [count_add_kills_cons]
      exact h i y hy

theorem replay_eq_applyKills (hends : Ends V ops) (rows : List α) :
    replay V rows ops = applyKills V (fun i x => ended V i x (addInserts V [] rows ops)) []
      (addInserts V [] rows ops) ops := by
  apply addKills_eq_applyKills hends
  · intro i
    exact ⟨nofun, fun _ _ _ => ⟨rfl, rfl⟩⟩
  · exact fun _ _ _ => rfl

omit [DecidableEq τ] in
theorem inserts_le_copies_addInserts (i : ι) (rows : List α) (ops : List (Op α τ)) :
    inserts V i ops ≤ copies V i (addInserts V [] rows ops) := by
  have hcount := @countP_addInserts _ _ _ _ V i (fun _ => true) true ops [] rows
    (fun _ _ _ => rfl) (Nat.zero_le _)
  simp only [Bool.and_true, if_true, List.count_nil, Nat.zero_add] at hcount
  rw [copies, hcount, copies]
  omega

theorem copies_applyKills (i : ι) : ∀ {ops : List (Op α τ)} {seen : List (ι × τ)} {rows : List α},
    copies V i (applyKills V already seen rows ops) = copies V i rows
  | [], _, _ => rfl
  | .insert _ :: _, _, _ => by
      rw [applyKills]
      exact copies_applyKills i
  | .kill _ _ :: _, _, _ => by
      rw [applyKills, copies_applyKills i, copies_stampIf]

theorem replay_replay (hends : Ends V ops) (rows : List α) :
    replay V (replay V rows ops) ops = replay V rows ops := by
  have hthere : addInserts V [] (replay V rows ops) ops = replay V rows ops := by
    apply addInserts_eq_self
    intro i
    rw [List.count_nil, Nat.zero_add, replay_eq_applyKills hends, copies_applyKills]
    exact inserts_le_copies_addInserts i rows ops
  rw [replay_eq_applyKills hends (replay V rows ops), hthere]
  apply applyKills_eq_self hends
  intro i x hx
  rw [replay_eq_applyKills hends]
  exact kills_le_ended_applyKills hx hends (Nat.le_refl _) (.inr (Nat.zero_le _))

section

theorem effective_congr {already : τ → ℕ} : ∀ {ops : List (Op α τ)}
    {seen seen' : List τ}, (∀ x, seen'.count x = seen.count x) →
    effective V i already seen' ops = effective V i already seen ops
  | [], _, _, _ => rfl
  | .insert _ :: ops, _, _, h => by
      rw [effective, effective]
      exact effective_congr h
  | .kill a x :: ops, seen, seen', h => by
      have h' : ∀ y, (x :: seen').count y = (x :: seen).count y := by
        intro y
        rw [List.count_cons, List.count_cons, h y]
      rw [effective, effective, h x, effective_congr h, effective_congr h']

variable {ops' : List (Op α τ)}

theorem effective_perm {already : τ → ℕ} (hperm : ops ~ ops') :
    ∀ seen : List τ, effective V i already seen ops = effective V i already seen ops' := by
  induction hperm with
  | nil => exact fun _ => rfl
  | cons op _ ih =>
    intro seen
    cases op with
    | insert a => exact ih seen
    | kill a x => rw [effective, effective, ih seen, ih (x :: seen)]
  | swap op op' ops =>
    intro seen
    cases op with
    | insert a =>
      cases op' with
      | insert b => rfl
      | kill b y => rfl
    | kill a x =>
      cases op' with
      | insert b => rfl
      | kill b y =>
        have hswap : effective V i already (x :: y :: seen) ops =
            effective V i already (y :: x :: seen) ops :=
          effective_congr fun z => (List.Perm.swap y x seen).count_eq z
        have hcount : x ≠ y → (x :: seen).count y = seen.count y ∧
            (y :: seen).count x = seen.count x := fun hxy =>
          ⟨List.count_cons_of_ne hxy, List.count_cons_of_ne (Ne.symm hxy)⟩
        simp only [effective]
        by_cases ha : V.ident a = i
        · by_cases hb : V.ident b = i
          · simp only [if_pos ha, if_pos hb]
            by_cases hxy : x = y
            · rw [hxy]
            · rw [(hcount hxy).1, (hcount hxy).2, hswap, Nat.add_left_comm]
          · simp only [if_pos ha, if_neg hb]
        · simp only [if_neg ha]
  | trans _ _ ih₁ ih₂ => exact fun seen => (ih₁ seen).trans (ih₂ seen)

/-- The logged copies of an identity agree on their stamp, and so do the live copies. -/
structure Alike (V : Versioned α ι τ) (rows : List α) (ops : List (Op α τ)) : Prop where
  logged : ∀ a b, .insert a ∈ ops → .insert b ∈ ops → V.ident a = V.ident b →
    V.stamp a = V.stamp b
  alive : ∀ a b, (a ∈ rows ∨ .insert a ∈ ops) → (b ∈ rows ∨ .insert b ∈ ops) → live V a →
    live V b → V.ident a = V.ident b → V.stamp a = V.stamp b

/-- Once the logged copies are there, the ends still to be carried out are no more than the live
copies. -/
def Bounded (V : Versioned α ι τ) (rows : List α) (ops : List (Op α τ)) : Prop :=
  ∀ i, effective V i (fun x => ended V i x (addInserts V [] rows ops)) [] ops ≤
    CountedReplay.alive V i (addInserts V [] rows ops)

omit [DecidableEq τ] in
/-- The logged copies that are added do not depend on the log's order, in any property on which
those of an identity agree. -/
theorem countP_addInserts_perm {p : α → Bool} (hperm : ops ~ ops')
    (hp : ∀ a b, .insert a ∈ ops → .insert b ∈ ops → V.ident a = V.ident b → p a = p b) :
    (addInserts V [] rows ops').countP (fun a => V.ident a == i && p a) =
      (addInserts V [] rows ops).countP (fun a => V.ident a == i && p a) := by
  obtain ⟨c, hc⟩ : ∃ c, ∀ a, .insert a ∈ ops → V.ident a = i → p a = c := by
    by_cases hex : ∃ a, .insert a ∈ ops ∧ V.ident a = i
    · obtain ⟨a, ha, hident⟩ := hex
      exact ⟨p a, fun b hb hb' => hp b a hb ha (hb'.trans hident.symm)⟩
    · exact ⟨true, fun a ha hident => absurd ⟨a, ha, hident⟩ hex⟩
  have hinserts : inserts V i ops' = inserts V i ops := (hperm.countP_eq _).symm
  rw [countP_addInserts hc (Nat.zero_le _),
    countP_addInserts (fun a ha => hc a (hperm.mem_iff.mpr ha)) (Nat.zero_le _), hinserts]

omit [DecidableEq τ] in
theorem mem_addInserts {a : α} : ∀ {ops : List (Op α τ)} {seen : List ι} {rows : List α},
    a ∈ addInserts V seen rows ops → a ∈ rows ∨ .insert a ∈ ops
  | [], _, _, h => .inl h
  | .kill _ _ :: ops, _, _, h => by
      rw [addInserts] at h
      exact (mem_addInserts h).imp_right (List.mem_cons_of_mem _)
  | .insert b :: ops, _, rows, h => by
      rw [addInserts] at h
      rcases mem_addInserts h with h | h
      · split at h
        next => exact .inl h
        next =>
          rcases List.mem_append.mp h with h | h
          · exact .inl h
          · rw [List.mem_singleton.mp h]
            exact .inr List.mem_cons_self
      · exact .inr (.tail _ h)

theorem bearing_eq_alive {s : Option τ} (hlive : ∀ a, V.stamp a = s → live V a)
    (hall : ∀ a ∈ rows, V.ident a = i → live V a → V.stamp a = s) :
    bearing V i s rows = alive V i rows := by
  apply List.countP_congr
  intro a ha
  simp only [Bool.and_eq_true, beq_iff_eq]
  exact ⟨fun h => ⟨h.1, hlive a h.2⟩, fun h => ⟨h.1, hall a ha h.1 h.2⟩⟩

theorem alive_replay_of_ends (hends : Ends V ops) (i : ι) (rows : List α) :
    alive V i (replay V rows ops) = alive V i (addInserts V [] rows ops) -
      effective V i (fun x => ended V i x (addInserts V [] rows ops)) [] ops :=
  alive_addKills hends ⟨nofun, fun _ _ _ => ⟨rfl, rfl⟩⟩
    fun _ => rfl

/-- The copies left with a stamp of live versions are all the live copies, or there was none to
begin with. -/
theorem bearing_replay_of_live (hends : Ends V ops) (halike : Alike V rows ops) {s : Option τ}
    (hs : ∀ a, V.stamp a = s → live V a) :
    bearing V i s (replay V rows ops) = if bearing V i s (addInserts V [] rows ops) = 0 then 0
      else alive V i (replay V rows ops) := by
  have hold : ∀ a ∈ replay V rows ops, live V a → a ∈ addInserts V [] rows ops := by
    intro a ha hlive
    rw [replay_eq_applyKills hends] at ha
    exact mem_of_mem_applyKills hlive hends ha
  split
  next hnone =>
    apply List.countP_eq_zero.mpr
    intro a ha hbears
    have hstamp : V.stamp a = s := by
      simp only [Bool.and_eq_true, beq_iff_eq] at hbears
      exact hbears.2
    have hlive : live V a := hs a hstamp
    exact List.countP_eq_zero.mp hnone a (hold a ha hlive) hbears
  next hsome =>
    obtain ⟨b, hb, hbears⟩ := List.countP_pos_iff.mp (Nat.pos_of_ne_zero hsome)
    obtain ⟨hident, hstamp⟩ : V.ident b = i ∧ V.stamp b = s := by
      simpa using hbears
    apply bearing_eq_alive hs
    intro a ha hi hlive
    rw [← hstamp]
    exact halike.alive a b (mem_addInserts (hold a ha hlive)) (mem_addInserts hb) hlive
      (hs b hstamp) (hi.trans hident.symm)

/-- How a log ends does not depend on its order: while its ends find live copies, each stamp has as
many. -/
theorem bearing_replay_perm (hends : Ends V ops) (halike : Alike V rows ops)
    (hbound : Bounded V rows ops) (hperm : ops ~ ops') (i : ι) (s : Option τ) :
    bearing V i s (replay V rows ops') = bearing V i s (replay V rows ops) := by
  have hends' : Ends V ops' := fun a x hmem => hends a x (hperm.mem_iff.mpr hmem)
  have hstamps : ∀ i s, bearing V i s (addInserts V [] rows ops') =
      bearing V i s (addInserts V [] rows ops) := by
    intro i s
    apply countP_addInserts_perm hperm
    intro a b ha hb hident
    rw [halike.logged a b ha hb hident]
  have halive : ∀ i, alive V i (addInserts V [] rows ops') =
      alive V i (addInserts V [] rows ops) := by
    intro i
    apply countP_addInserts_perm hperm
    intro a b ha hb hident
    rw [live, live, halike.logged a b ha hb hident]
  have hended : (fun i x => ended V i x (addInserts V [] rows ops')) =
      fun i x => ended V i x (addInserts V [] rows ops) := by
    funext i x
    exact hstamps i (some x)
  have hbound' : ∀ i, effective V i (fun x => ended V i x (addInserts V [] rows ops)) [] ops' ≤
      alive V i (addInserts V [] rows ops') := by
    intro i
    rw [halive, ← effective_perm hperm]
    exact hbound i
  by_cases hs : ∃ x, x ≠ V.zero ∧ s = some x
  · obtain ⟨x, hx, rfl⟩ := hs
    have hkills : kills V i x ops' = kills V i x ops := (hperm.countP_eq _).symm
    have hmet : ended V i x (replay V rows ops) =
        max (ended V i x (addInserts V [] rows ops)) (0 + kills V i x ops) := by
      rw [replay_eq_applyKills hends]
      exact ended_applyKills hx hends (fun _ => rfl) (hbound i) (Nat.max_zero _).symm
    have hmet' : ended V i x (replay V rows ops') =
        max (ended V i x (addInserts V [] rows ops)) (0 + kills V i x ops') := by
      rw [replay_eq_applyKills hends', hended]
      exact ended_applyKills hx hends' (fun _ => rfl) (hbound' i)
        ((hstamps i (some x)).trans (Nat.max_zero _).symm)
    exact hmet'.trans (hkills ▸ hmet.symm)
  · have hlive : ∀ a, V.stamp a = s → live V a := by
      rintro a rfl
      rw [live]
      cases hstamp : V.stamp a with
      | none => rfl
      | some x =>
        have hzero : x = V.zero := by
          by_contra hx
          exact hs ⟨x, hx, hstamp⟩
        simp [hzero]
    have halike' : Alike V rows ops' :=
      ⟨fun a b ha hb => halike.logged a b (hperm.mem_iff.mpr ha) (hperm.mem_iff.mpr hb),
        fun a b ha hb => halike.alive a b (ha.imp_right hperm.mem_iff.mpr)
          (hb.imp_right hperm.mem_iff.mpr)⟩
    rw [bearing_replay_of_live hends halike hlive, bearing_replay_of_live hends' halike' hlive,
      hstamps, alive_replay_of_ends hends, alive_replay_of_ends hends', halive,
      effective_perm hperm]
    rw [show (fun x => ended V i x (addInserts V [] rows ops')) =
      fun x => ended V i x (addInserts V [] rows ops) from congrFun hended i]

end

end CountedReplay
