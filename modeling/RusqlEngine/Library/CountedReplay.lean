import Mathlib.Data.List.Basic
import Mathlib.Data.List.Count

/-!
# Replaying logged versions by counting copies

Versions with the same identity are copies, and a version is live until a stamp is put on it. A log
of added and ended versions is replayed on a collection that may hold some of it already: the `k`-th
logged copy is added if fewer than `k` are there, and the `k`-th end by one stamp carried out if
fewer than `k` copies bear it. So the live copies are a matter of counts.
-/

/-- How a version is identified and ended. -/
structure Versioned (α ι τ : Type*) where
  ident : α → ι
  stamp : α → Option τ
  /-- The stamp of a version that is live. -/
  zero : τ
  kill : τ → α → α
  ident_kill : ∀ x a, ident (kill x a) = ident a
  stamp_kill : ∀ x a, stamp (kill x a) = some x

namespace CountedReplay

inductive Op (α τ : Type*)
  | insert (a : α)
  | kill (a : α) (x : τ)

section

variable {α ι τ : Type*} [DecidableEq ι] [DecidableEq τ] (V : Versioned α ι τ)

def live (a : α) : Bool :=
  (V.stamp a).all (· == V.zero)

def copies (i : ι) (rows : List α) : Nat :=
  rows.countP fun a => V.ident a == i

def alive (i : ι) (rows : List α) : Nat :=
  rows.countP fun a => V.ident a == i && live V a

def ended (i : ι) (x : τ) (rows : List α) : Nat :=
  rows.countP fun a => V.ident a == i && V.stamp a == some x

/-- The versions that were added. -/
def addInserts : List ι → List α → List (Op α τ) → List α
  | _, rows, [] => rows
  | seen, rows, .insert a :: ops =>
    addInserts (V.ident a :: seen)
      (if seen.count (V.ident a) + 1 ≤ copies V (V.ident a) rows then rows else rows ++ [a]) ops
  | seen, rows, .kill _ _ :: ops => addInserts seen rows ops

/-- The first live copy gets the stamp. -/
def stampFirst (i : ι) (x : τ) : List α → List α
  | [] => []
  | a :: rows => if V.ident a = i ∧ live V a then V.kill x a :: rows else a :: stampFirst i x rows

def presentFor (rows : List α) (key : ι × τ) (present : List ((ι × τ) × Nat)) : Nat :=
  (present.lookup key).getD (ended V key.1 key.2 rows)

def remember (rows : List α) (key : ι × τ) (present : List ((ι × τ) × Nat)) :
    List ((ι × τ) × Nat) :=
  match present.lookup key with
  | some _ => present
  | none => (key, ended V key.1 key.2 rows) :: present

/-- The versions that were ended. -/
def addKills : List (ι × τ) → List ((ι × τ) × Nat) → List α → List (Op α τ) → List α
  | _, _, rows, [] => rows
  | seen, present, rows, .insert _ :: ops => addKills seen present rows ops
  | seen, present, rows, .kill a x :: ops =>
    if copies V (V.ident a) rows = 0 then addKills seen present rows ops
    else
      addKills ((V.ident a, x) :: seen) (remember V rows (V.ident a, x) present)
        (if seen.count (V.ident a, x) + 1 ≤ presentFor V rows (V.ident a, x) present then rows
          else stampFirst V (V.ident a) x rows) ops

def replay (rows : List α) (ops : List (Op α τ)) : List α :=
  addKills V [] [] (addInserts V [] rows ops) ops

def inserts (i : ι) (ops : List (Op α τ)) : Nat :=
  ops.countP fun
    | .insert a => V.ident a == i
    | .kill _ _ => false

/-- The ends that find fewer copies with their stamp than there are ends by it. -/
def effective (i : ι) (already : τ → Nat) : List τ → List (Op α τ) → Nat
  | _, [] => 0
  | seen, .insert _ :: ops => effective i already seen ops
  | seen, .kill a x :: ops =>
    if V.ident a = i then
      (if seen.count x < already x then 0 else 1) + effective i already (x :: seen) ops
    else effective i already seen ops

/-- The live copies that a replay leaves. -/
def outcome (i : ι) (rows : List α) (ops : List (Op α τ)) : Nat :=
  alive V i rows + (inserts V i ops - copies V i rows) -
    effective V i (fun x => ended V i x rows) [] ops

def WellLogged (ops : List (Op α τ)) : Prop :=
  ∀ op ∈ ops, match op with
    | .insert a => V.stamp a = some V.zero
    | .kill _ x => x ≠ V.zero

end

section

variable {α ι τ : Type*} [DecidableEq ι] [DecidableEq τ] {V : Versioned α ι τ}

omit [DecidableEq ι] in
theorem live_of_stamp {a : α} (h : V.stamp a = some V.zero) : live V a := by
  simp [live, h]

omit [DecidableEq ι] in
theorem live_kill {x : τ} (hx : x ≠ V.zero) (a : α) : live V (V.kill x a) = false := by
  simp [live, V.stamp_kill, hx]

omit [DecidableEq ι] in
theorem stamp_ne_of_live {a : α} {y : τ} (h : live V a) (hy : y ≠ V.zero) : V.stamp a ≠ some y := by
  intro hstamp
  rw [live, hstamp] at h
  exact hy (by simpa using h)

theorem alive_le_copies (i : ι) (rows : List α) : alive V i rows ≤ copies V i rows :=
  List.countP_mono_left fun a _ h => by
    simp only [Bool.and_eq_true] at h
    exact h.1

section

variable {i : ι} {x : τ}

theorem copies_stampFirst (j : ι) (rows : List α) :
    copies V j (stampFirst V i x rows) = copies V j rows := by
  induction rows with
  | nil => rfl
  | cons a rows ih =>
    rw [stampFirst]
    split
    · simp [copies, List.countP_cons, V.ident_kill]
    · simpa [copies, List.countP_cons] using ih

theorem alive_stampFirst (hx : x ≠ V.zero) (rows : List α) :
    alive V i (stampFirst V i x rows) = alive V i rows - 1 := by
  induction rows with
  | nil => rfl
  | cons a rows ih =>
    rw [stampFirst]
    split
    · rename_i h
      simp [alive, live_kill hx, h.1, h.2]
    · rename_i h
      have hnot : (V.ident a == i && live V a) = false := by
        simpa using h
      simpa [alive, List.countP_cons, hnot] using ih

theorem alive_stampFirst_of_ne {j : ι} (hj : j ≠ i) (rows : List α) :
    alive V j (stampFirst V i x rows) = alive V j rows := by
  induction rows with
  | nil => rfl
  | cons a rows ih =>
    rw [stampFirst]
    split
    · rename_i h
      simp [alive, V.ident_kill, h.1, hj.symm]
    · simpa [alive, List.countP_cons] using ih

theorem ended_stampFirst_of_ne {j : ι} {y : τ} (hy : y ≠ V.zero) (hkey : (j, y) ≠ (i, x))
    (rows : List α) : ended V j y (stampFirst V i x rows) = ended V j y rows := by
  induction rows with
  | nil => rfl
  | cons a rows ih =>
    rw [stampFirst]
    split
    · rename_i h
      -- neither the version as it was nor the one with the new stamp is counted
      have hbefore : (V.ident a == j && V.stamp a == some y) = false := by
        simp [stamp_ne_of_live h.2 hy]
      have hafter : (V.ident a == j && some x == some y) = false := by
        rw [h.1]
        by_contra hboth
        simp only [Bool.not_eq_false, Bool.and_eq_true, beq_iff_eq, Option.some.injEq] at hboth
        exact hkey (Prod.ext hboth.1.symm hboth.2.symm)
      rw [ended, ended, List.countP_cons, List.countP_cons, V.ident_kill, V.stamp_kill, hbefore,
        hafter]
    · simpa [ended, List.countP_cons] using ih

end

omit [DecidableEq τ] in
/-- When the logged copies of an identity agree on a property, the copies with it grow by the
missing logged ones, or not at all. -/
theorem countP_addInserts {i : ι} {p : α → Bool} {c : Bool} : ∀ {ops : List (Op α τ)}
    {seen : List ι} {rows : List α}, (∀ a, .insert a ∈ ops → V.ident a = i → p a = c) →
    seen.count i ≤ copies V i rows →
    (addInserts V seen rows ops).countP (fun a => V.ident a == i && p a) =
      rows.countP (fun a => V.ident a == i && p a) +
        if c then seen.count i + inserts V i ops - copies V i rows else 0
  | [], seen, rows, _, hle => by simp [addInserts, inserts, Nat.sub_eq_zero_of_le hle]
  | .kill a x :: ops, seen, rows, hlog, hle => by
      have hrest := countP_addInserts (fun a ha => hlog a (.tail _ ha)) hle
      simpa [addInserts, inserts] using hrest
  | .insert a :: ops, seen, rows, hlog, hle => by
      have hlog' : ∀ a, .insert a ∈ ops → V.ident a = i → p a = c := fun a ha =>
        hlog a (.tail _ ha)
      rw [addInserts]
      by_cases hi : V.ident a = i
      · subst hi
        have hpa : p a = c := hlog a List.mem_cons_self rfl
        have hinserts : inserts V (V.ident a) (.insert a :: ops) =
            inserts V (V.ident a) ops + 1 := by
          simp [inserts]
        rw [hinserts]
        split
        · rename_i hthere
          rw [countP_addInserts hlog' (by simpa using hthere), List.count_cons_self]
          congr 2
          omega
        · rename_i hmissing
          have hcopies : copies V (V.ident a) (rows ++ [a]) = copies V (V.ident a) rows + 1 := by
            simp [copies]
          rw [countP_addInserts hlog' (by simp only [List.count_cons_self]; omega), hcopies,
            List.count_cons_self, List.countP_append, List.countP_singleton, hpa]
          cases c with
          | false => simp
          | true =>
            simp only [beq_self_eq_true, Bool.and_self, if_true]
            omega
      · have hcount : (V.ident a :: seen).count i = seen.count i := List.count_cons_of_ne hi
        have hinserts : inserts V i (.insert a :: ops) = inserts V i ops := by
          simp [inserts, hi]
        rw [hinserts]
        split
        · rw [countP_addInserts hlog' (by rw [hcount]; exact hle), hcount]
        · have hcopies : copies V i (rows ++ [a]) = copies V i rows := by simp [copies, hi]
          rw [countP_addInserts hlog' (by rw [hcount, hcopies]; exact hle), hcount, hcopies]
          simp [hi]

theorem alive_addInserts {i : ι} {ops : List (Op α τ)} {seen : List ι} {rows : List α}
    (hlog : WellLogged V ops) (hle : seen.count i ≤ copies V i rows) :
    alive V i (addInserts V seen rows ops) =
      alive V i rows + (seen.count i + inserts V i ops - copies V i rows) :=
  countP_addInserts (c := true) (fun _ ha _ => live_of_stamp (hlog _ ha)) hle

theorem ended_addInserts {i : ι} {x : τ} (hx : x ≠ V.zero) {ops : List (Op α τ)}
    {seen : List ι} {rows : List α} (hlog : WellLogged V ops)
    (hle : seen.count i ≤ copies V i rows) :
    ended V i x (addInserts V seen rows ops) = ended V i x rows := by
  apply countP_addInserts (c := false) _ hle
  intro a ha _
  have hstamp : V.stamp a = some V.zero := hlog _ ha
  simp [hstamp, Ne.symm hx]

def Ends (V : Versioned α ι τ) (ops : List (Op α τ)) : Prop :=
  ∀ a x, .kill a x ∈ ops → x ≠ V.zero

variable {ops : List (Op α τ)}

omit [DecidableEq ι] [DecidableEq τ] in
theorem WellLogged.ends (h : WellLogged V ops) : Ends V ops :=
  fun _ _ hmem => h _ hmem

omit [DecidableEq ι] [DecidableEq τ] in
theorem Ends.tail {op : Op α τ} (h : Ends V (op :: ops)) : Ends V ops :=
  fun a x hmem => h a x (.tail _ hmem)

/-- What is kept about the copies of one identity while versions are ended. -/
structure Kept (V : Versioned α ι τ) (i : ι) (already : τ → Nat) (seen : List (ι × τ))
    (present : List ((ι × τ) × Nat)) (rows : List α) : Prop where
  met : ∀ x, (i, x) ∈ seen → present.lookup (i, x) = some (already x)
  unmet : ∀ x, x ≠ V.zero → (i, x) ∉ seen →
    present.lookup (i, x) = none ∧ ended V i x rows = already x

variable {present : List ((ι × τ) × Nat)}

theorem lookup_remember_of_ne {rows : List α} {key key' : ι × τ} (h : key' ≠ key) :
    (remember V rows key present).lookup key' = present.lookup key' := by
  rw [remember]
  split
  · rfl
  · rw [List.lookup_cons, beq_false_of_ne h]

variable {already : τ → Nat} {seen : List (ι × τ)}

theorem Kept.other {i j : ι} {x : τ} {rows rows' : List α} (h : Kept V i already seen present rows)
    (hj : j ≠ i) (hended : ∀ y, y ≠ V.zero → ended V i y rows' = ended V i y rows) :
    Kept V i already ((j, x) :: seen) (remember V rows (j, x) present) rows' where
  met y hy := by
    have hne : (i, y) ≠ (j, x) := fun he => hj (Prod.ext_iff.mp he).1.symm
    rw [lookup_remember_of_ne hne]
    exact h.met y ((List.mem_cons.mp hy).resolve_left hne)
  unmet y hzero hy := by
    have hne : (i, y) ≠ (j, x) := fun he => hj (Prod.ext_iff.mp he).1.symm
    rw [lookup_remember_of_ne hne, hended y hzero]
    exact h.unmet y hzero fun hmem => hy (.tail _ hmem)

theorem Kept.presentFor_eq {i : ι} {x : τ} {rows : List α} (h : Kept V i already seen present rows)
    (hx : x ≠ V.zero) : presentFor V rows (i, x) present = already x := by
  rw [presentFor]
  by_cases hseen : (i, x) ∈ seen
  · rw [h.met x hseen, Option.getD_some]
  · obtain ⟨hlookup, hended⟩ := h.unmet x hx hseen
    rw [hlookup, Option.getD_none, hended]

theorem Kept.same {i : ι} {x : τ} {rows rows' : List α} (h : Kept V i already seen present rows)
    (hx : x ≠ V.zero) (hended : ∀ y, y ≠ V.zero → y ≠ x → ended V i y rows' = ended V i y rows) :
    Kept V i already ((i, x) :: seen) (remember V rows (i, x) present) rows' where
  met y hy := by
    by_cases hyx : y = x
    · subst hyx
      rw [remember]
      by_cases hseen : (i, y) ∈ seen
      · simp only [h.met y hseen]
      · obtain ⟨hlookup, hcount⟩ := h.unmet y hx hseen
        simp only [hlookup, List.lookup_cons_self, hcount]
    · have hne : (i, y) ≠ (i, x) := fun he => hyx (Prod.ext_iff.mp he).2
      rw [lookup_remember_of_ne hne]
      exact h.met y ((List.mem_cons.mp hy).resolve_left hne)
  unmet y hzero hy := by
    have hyx : y ≠ x := by
      rintro rfl
      exact hy List.mem_cons_self
    have hne : (i, y) ≠ (i, x) := fun he => hyx (Prod.ext_iff.mp he).2
    rw [lookup_remember_of_ne hne, hended y hzero hyx]
    exact h.unmet y hzero fun hmem => hy (.tail _ hmem)

theorem alive_addKills {i : ι} : ∀ {ops : List (Op α τ)}
    {seen : List (ι × τ)} {seenStamps : List τ} {present : List ((ι × τ) × Nat)} {rows : List α},
    Ends V ops → Kept V i already seen present rows →
    (∀ x, seenStamps.count x = seen.count (i, x)) →
    alive V i (addKills V seen present rows ops) =
      alive V i rows - effective V i already seenStamps ops
  | [], _, _, _, _, _, _, _ => by simp [addKills, effective]
  | .insert a :: ops, _, _, _, _, hlog, hkept, hseen => by
      rw [addKills, effective]
      exact alive_addKills hlog.tail hkept hseen
  | .kill a x :: ops, seen, seenStamps, present, rows, hlog, hkept, hseen => by
      have hlog' : Ends V ops := hlog.tail
      have hx : x ≠ V.zero := hlog _ _ List.mem_cons_self
      rw [addKills, effective]
      by_cases hcopies : copies V (V.ident a) rows = 0
      · rw [if_pos hcopies, alive_addKills hlog' hkept hseen]
        split
        · rename_i hi
          have hnone : alive V i rows = 0 := by
            have := alive_le_copies (V := V) i rows
            rw [← hi, hcopies] at this
            rw [← hi]
            exact Nat.le_zero.mp this
          simp [hnone]
        · rfl
      · rw [if_neg hcopies]
        by_cases hi : V.ident a = i
        · subst hi
          have hseen' : ∀ y, (x :: seenStamps).count y =
              ((V.ident a, x) :: seen).count (V.ident a, y) := by
            intro y
            simp [List.count_cons, hseen y]
          rw [if_pos rfl, hkept.presentFor_eq hx, hseen x]
          by_cases hskip : seen.count (V.ident a, x) < already x
          · rw [if_pos (Nat.succ_le_of_lt hskip), if_pos hskip, Nat.zero_add]
            exact alive_addKills hlog' (hkept.same hx fun _ _ _ => rfl) hseen'
          · have hkept' : Kept V (V.ident a) already ((V.ident a, x) :: seen)
                (remember V rows (V.ident a, x) present) (stampFirst V (V.ident a) x rows) :=
              hkept.same hx fun y hy hyx =>
                ended_stampFirst_of_ne hy (fun he => hyx (Prod.ext_iff.mp he).2) rows
            rw [if_neg (fun h => hskip (Nat.lt_of_succ_le h)), if_neg hskip,
              alive_addKills hlog' hkept' hseen', alive_stampFirst hx, Nat.sub_sub]
        · have hseen' : ∀ y, seenStamps.count y = ((V.ident a, x) :: seen).count (i, y) := by
            intro y
            have hne : (V.ident a, x) ≠ (i, y) := fun he => hi (Prod.ext_iff.mp he).1
            rw [List.count_cons_of_ne hne, hseen y]
          rw [if_neg hi]
          split
          · exact alive_addKills hlog' (hkept.other hi fun _ _ => rfl) hseen'
          · have hkept' : Kept V i already ((V.ident a, x) :: seen)
                (remember V rows (V.ident a, x) present) (stampFirst V (V.ident a) x rows) :=
              hkept.other hi fun y hy =>
                ended_stampFirst_of_ne hy (fun he => hi (Prod.ext_iff.mp he).1.symm) rows
            rw [alive_addKills hlog' hkept' hseen', alive_stampFirst_of_ne (Ne.symm hi)]

theorem alive_replay (hlog : WellLogged V ops) (i : ι) (rows : List α) :
    alive V i (replay V rows ops) = outcome V i rows ops := by
  have hkept : Kept V i (fun x => ended V i x rows) [] [] (addInserts V [] rows ops) :=
    { met := nofun
      unmet := fun x hx _ => ⟨rfl, ended_addInserts hx hlog (Nat.zero_le _)⟩ }
  have hseen : ∀ x, ([] : List τ).count x = ([] : List (ι × τ)).count (i, x) := fun _ => rfl
  rw [replay, alive_addKills hlog.ends hkept hseen, alive_addInserts hlog (Nat.zero_le _), outcome,
    List.count_nil, Nat.zero_add]

end

section

variable {α ι τ : Type*} [DecidableEq ι] [DecidableEq τ] {V : Versioned α ι τ}

omit [DecidableEq τ] in
theorem inserts_append (i : ι) (ops ops' : List (Op α τ)) :
    inserts V i (ops ++ ops') = inserts V i ops + inserts V i ops' :=
  List.countP_append

theorem effective_append_insert (i : ι) (already : τ → Nat) (a : α) : ∀ (seen : List τ)
    (ops : List (Op α τ)),
    effective V i already seen (ops ++ [.insert a]) = effective V i already seen ops
  | _, [] => rfl
  | seen, .insert _ :: ops => by
      rw [List.cons_append, effective, effective]
      exact effective_append_insert i already a seen ops
  | seen, .kill b x :: ops => by
      rw [List.cons_append, effective, effective, effective_append_insert i already a (x :: seen),
        effective_append_insert i already a seen]

theorem effective_append_kill_of_ne {i : ι} {a : α} (h : V.ident a ≠ i) (already : τ → Nat)
    (x : τ) : ∀ (seen : List τ) (ops : List (Op α τ)),
    effective V i already seen (ops ++ [.kill a x]) = effective V i already seen ops
  | _, [] => by simp [effective, h]
  | seen, .insert _ :: ops => by
      rw [List.cons_append, effective, effective]
      exact effective_append_kill_of_ne h already x seen ops
  | seen, .kill b y :: ops => by
      rw [List.cons_append, effective, effective,
        effective_append_kill_of_ne h already x (y :: seen),
        effective_append_kill_of_ne h already x seen]

/-- An end by a stamp that no copy bears is carried out. -/
theorem effective_append_kill {a : α} {x : τ} (already : τ → Nat) (hx : already x = 0) :
    ∀ (seen : List τ) (ops : List (Op α τ)),
    effective V (V.ident a) already seen (ops ++ [.kill a x]) =
      effective V (V.ident a) already seen ops + 1
  | _, [] => by simp [effective, hx]
  | seen, .insert _ :: ops => by
      rw [List.cons_append, effective, effective]
      exact effective_append_kill already hx seen ops
  | seen, .kill b y :: ops => by
      rw [List.cons_append, effective, effective, effective_append_kill already hx (y :: seen),
        effective_append_kill already hx seen]
      split
      · rw [Nat.add_assoc]
      · rfl

theorem effective_eq_zero {i : ι} (already : τ → Nat) : ∀ {ops : List (Op α τ)} {seen : List τ},
    (∀ a x, .kill a x ∈ ops → V.ident a ≠ i) → effective V i already seen ops = 0
  | [], _, _ => rfl
  | .insert _ :: ops, _, h => by
      rw [effective]
      exact effective_eq_zero already fun a x ha => h a x (.tail _ ha)
  | .kill b y :: ops, _, h => by
      rw [effective, if_neg (h b y List.mem_cons_self)]
      exact effective_eq_zero already fun a x ha => h a x (.tail _ ha)

theorem outcome_nil (i : ι) (rows : List α) : outcome V i rows [] = alive V i rows := by
  simp [outcome, inserts, effective]

/-- No copy is in the collection, and none is ended that was not added. -/
def Unfiled (V : Versioned α ι τ) (i : ι) (rows : List α) (ops : List (Op α τ)) : Prop :=
  copies V i rows = 0 ∧ effective V i (fun x => ended V i x rows) [] ops ≤ inserts V i ops

variable {i : ι} {a : α} {x : τ} {rows : List α} {ops : List (Op α τ)}

theorem outcome_append_insert (h : Unfiled V (V.ident a) rows ops) :
    outcome V (V.ident a) rows (ops ++ [.insert a]) = outcome V (V.ident a) rows ops + 1 := by
  obtain ⟨hcopies, hle⟩ := h
  have hone : inserts V (V.ident a) [(.insert a : Op α τ)] = 1 := by simp [inserts]
  rw [outcome, outcome, inserts_append, hone, effective_append_insert, hcopies]
  omega

theorem outcome_append_insert_of_ne (h : V.ident a ≠ i) :
    outcome V i rows (ops ++ [.insert a]) = outcome V i rows ops := by
  have hnone : inserts V i [(.insert a : Op α τ)] = 0 := by simp [inserts, h]
  rw [outcome, outcome, inserts_append, hnone, effective_append_insert, Nat.add_zero]

omit [DecidableEq τ] in
theorem inserts_append_kill : inserts V i (ops ++ [.kill a x]) = inserts V i ops := by
  rw [inserts_append]
  rfl

theorem outcome_append_kill (h : ended V (V.ident a) x rows = 0) :
    outcome V (V.ident a) rows (ops ++ [.kill a x]) = outcome V (V.ident a) rows ops - 1 := by
  rw [outcome, outcome, inserts_append_kill,
    effective_append_kill (fun x => ended V (V.ident a) x rows) h,
    Nat.sub_sub]

theorem outcome_append_kill_of_ne (h : V.ident a ≠ i) :
    outcome V i rows (ops ++ [.kill a x]) = outcome V i rows ops := by
  rw [outcome, outcome, inserts_append_kill, effective_append_kill_of_ne h]

theorem ended_eq_zero_of_copies (h : copies V i rows = 0) (x : τ) : ended V i x rows = 0 := by
  refine Nat.le_zero.mp (h ▸ List.countP_mono_left fun b _ hb => ?_)
  simp only [Bool.and_eq_true] at hb
  exact hb.1

theorem Unfiled.append_insert (h : Unfiled V i rows ops) :
    Unfiled V i rows (ops ++ [.insert a]) := by
  refine ⟨h.1, ?_⟩
  rw [effective_append_insert, inserts_append]
  exact Nat.le_add_right_of_le h.2

theorem Unfiled.append_kill (h : Unfiled V i rows ops)
    (hpos : V.ident a = i → 0 < outcome V i rows ops) : Unfiled V i rows (ops ++ [.kill a x]) := by
  obtain ⟨hcopies, hle⟩ := h
  refine ⟨hcopies, ?_⟩
  rw [inserts_append_kill]
  by_cases ha : V.ident a = i
  · subst ha
    have halive : alive V (V.ident a) rows = 0 :=
      Nat.le_zero.mp (hcopies ▸ alive_le_copies (V.ident a) rows)
    have hended : ended V (V.ident a) x rows = 0 := ended_eq_zero_of_copies hcopies x
    have hout := hpos rfl
    rw [outcome, halive, hcopies] at hout
    rw [effective_append_kill (fun x => ended V (V.ident a) x rows) hended]
    omega
  · rw [effective_append_kill_of_ne ha]
    exact hle

/-- Ends of several versions by a stamp that no copy bears. -/
theorem outcome_append_kills (h : ended V i x rows = 0) : ∀ (gone : List α) (ops : List (Op α τ)),
    outcome V i rows (ops ++ gone.map fun b => .kill b x) =
      outcome V i rows ops - gone.countP fun b => V.ident b == i
  | [], ops => by simp
  | b :: gone, ops => by
      rw [List.map_cons, List.append_cons, outcome_append_kills h gone (ops ++ [Op.kill b x]),
        List.countP_cons]
      by_cases hb : V.ident b = i
      · subst hb
        rw [outcome_append_kill h, Nat.sub_sub]
        simp [Nat.add_comm]
      · rw [outcome_append_kill_of_ne hb]
        simp [hb]

theorem Unfiled.append_kills {gone : List α} (h : Unfiled V i rows ops)
    (hle : (gone.countP fun b => V.ident b == i) ≤ outcome V i rows ops) :
    Unfiled V i rows (ops ++ gone.map fun b => .kill b x) := by
  induction gone generalizing ops with
  | nil => simpa using h
  | cons b gone ih =>
    rw [List.map_cons, List.append_cons]
    rw [List.countP_cons] at hle
    by_cases hb : V.ident b = i
    · rw [if_pos (by simpa using hb)] at hle
      refine ih (h.append_kill fun _ => by omega) ?_
      have hone := outcome_append_kills (ended_eq_zero_of_copies h.1 x) [b] ops
      rw [List.map_singleton, List.countP_singleton, if_pos (by simpa using hb)] at hone
      rw [hone]
      omega
    · refine ih (h.append_kill fun he => (hb he).elim) ?_
      rw [outcome_append_kill_of_ne hb]
      exact Nat.le_trans (Nat.le_add_right ..) hle

def Op.fill (blank x : τ) : Op α τ → Op α τ
  | .insert a => .insert a
  | .kill a y => .kill a (if y = blank then x else y)

theorem effective_fill {blank : τ} (already : τ → Nat) (hblank : already blank = 0)
    (hx : already x = 0) : ∀ {ops : List (Op α τ)} {seen seen' : List τ},
    (∀ b y, .kill b y ∈ ops → y ≠ x) → (∀ y, y ≠ blank → y ≠ x → seen'.count y = seen.count y) →
    effective V i already seen' (ops.map (Op.fill blank x)) = effective V i already seen ops
  | [], _, _, _, _ => rfl
  | .insert b :: ops, seen, seen', hne, hseen => by
      rw [List.map_cons, Op.fill, effective, effective]
      exact effective_fill already hblank hx
        (fun b y hy => hne b y (.tail _ hy)) hseen
  | .kill b y :: ops, seen, seen', hne, hseen => by
      have hrest : ∀ b y, .kill b y ∈ ops → y ≠ x := fun b y hy =>
        hne b y (.tail _ hy)
      have hy : y ≠ x := hne b y List.mem_cons_self
      rw [List.map_cons, Op.fill, effective, effective]
      by_cases hyb : y = blank
      · subst hyb
        have hcount : ∀ z, z ≠ y → z ≠ x → (x :: seen').count z = (y :: seen).count z := by
          intro z hzb hzx
          rw [List.count_cons_of_ne (Ne.symm hzx), List.count_cons_of_ne (Ne.symm hzb)]
          exact hseen z hzb hzx
        rw [if_pos rfl, hx, hblank, effective_fill already hblank hx hrest hcount,
          effective_fill already hblank hx hrest hseen]
        simp
      · have hcount : ∀ z, z ≠ blank → z ≠ x → (y :: seen').count z = (y :: seen).count z := by
          intro z hzb hzx
          simp only [List.count_cons, hseen z hzb hzx]
        rw [if_neg hyb, hseen y hyb hy, effective_fill already hblank hx hrest hcount,
          effective_fill already hblank hx hrest hseen]

theorem outcome_fill {blank : τ} (hblank : ended V i blank rows = 0) (hx : ended V i x rows = 0)
    (hne : ∀ b y, .kill b y ∈ ops → y ≠ x) :
    outcome V i rows (ops.map (Op.fill blank x)) = outcome V i rows ops := by
  have hinserts : inserts V i (ops.map (Op.fill blank x)) = inserts V i ops := by
    rw [inserts, inserts, List.countP_map]
    congr 1
    funext op
    cases op <;> rfl
  rw [outcome, outcome, hinserts,
    effective_fill (fun x => ended V i x rows) hblank hx hne fun _ _ _ => rfl]

end

end CountedReplay
