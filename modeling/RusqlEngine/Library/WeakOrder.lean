import RusqlEngine.Library.RowList
import Mathlib.Data.List.Chain

/-!
# Strict weak orders

A sort asks for a strict weak order of the elements at hand. It comes from a comparison that is
consistent on them: several comparisons in turn, one that is exact where both elements can be read
exactly and coarse everywhere else, or one for some of the elements beside a second one for all.
-/

namespace WeakOrder

open Std (OrientedCmp TransCmp)
open RowList (Consistent)

variable {α β γ : Type*}

/-- The relation is a strict weak order on the elements of the list. -/
structure StrictWeakOn (less : α → α → Bool) (l : List α) : Prop where
  irrefl : ∀ a ∈ l, less a a = false
  trans : ∀ a ∈ l, ∀ b ∈ l, ∀ c ∈ l, less a b → less b c → less a c = true
  incomparable : ∀ a ∈ l, ∀ b ∈ l, ∀ c ∈ l, less a b = false → less b a = false →
    less b c = false → less c b = false → less a c = false

section

variable {less : α → α → Bool} {cmp : α → α → Ordering} {l : List α}

theorem strictWeakOn_iff (hless : ∀ a ∈ l, ∀ b ∈ l, (less a b ↔ cmp a b = .lt))
    (hswap : ∀ a ∈ l, ∀ b ∈ l, cmp b a = (cmp a b).swap) :
    StrictWeakOn less l ↔ Consistent cmp l := by
  have hgt : ∀ a ∈ l, ∀ b ∈ l, (less b a ↔ cmp a b = .gt) := fun a ha b hb => by
    rw [hless b hb a ha, hswap a ha b hb, Ordering.swap_eq_lt]
  constructor
  · intro h
    refine ⟨hswap, fun a ha b hb c hc hab hbc hac => ?_⟩
    rw [ne_eq, ← hgt a ha b hb, Bool.not_eq_true] at hab
    rw [ne_eq, ← hgt b hb c hc, Bool.not_eq_true] at hbc
    have hca : less c a := (hgt a ha c hc).mpr hac
    have hab' : less a b = false := by
      rw [← Bool.not_eq_true]
      exact fun hab => Bool.false_ne_true (hbc.symm.trans (h.trans c hc a ha b hb hca hab))
    have hbc' : less b c = false := by
      rw [← Bool.not_eq_true]
      exact fun hbc => Bool.false_ne_true (hab.symm.trans (h.trans b hb c hc a ha hbc hca))
    have hnot := h.incomparable c hc b hb a ha hbc hbc' hab hab'
    exact Bool.false_ne_true (hnot.symm.trans hca)
  · intro h
    refine ⟨fun a ha => ?_, fun a ha b hb c hc hab hbc => ?_,
      fun a ha b hb c hc hab hba hbc hcb => ?_⟩
    · rw [← Bool.not_eq_true, hless a ha a ha]
      intro hlt
      have hswap := hswap a ha a ha
      rw [hlt] at hswap
      exact nomatch hswap
    · rw [hless a ha b hb] at hab
      rw [hless b hb c hc] at hbc
      rw [hless a ha c hc]
      have hle := h.trans a ha b hb c hc (by rw [hab]; decide) (by rw [hbc]; decide)
      cases hac : cmp a c with
      | lt => rfl
      | eq =>
        have hca : cmp c a ≠ .gt := by
          rw [hswap a ha c hc, hac]
          decide
        have hcb := h.trans c hc a ha b hb hca (by rw [hab]; decide)
        rw [hswap b hb c hc, hbc] at hcb
        exact absurd rfl hcb
      | gt => exact absurd hac hle
    · rw [← Bool.not_eq_true, hgt b hb a ha] at hab
      rw [← Bool.not_eq_true, hgt c hc b hb] at hbc
      rw [← Bool.not_eq_true, hgt c hc a ha]
      exact h.trans c hc b hb a ha hbc hab

theorem eq_of_lt_iff {cmp' : α → α → Ordering} {a b : α} (hab : cmp a b = .lt ↔ cmp' a b = .lt)
    (hba : cmp b a = .lt ↔ cmp' b a = .lt) (hswap : cmp b a = (cmp a b).swap)
    (hswap' : cmp' b a = (cmp' a b).swap) : cmp a b = cmp' a b := by
  rw [hswap, hswap'] at hba
  revert hab hba
  cases cmp a b <;> cases cmp' a b <;> simp

theorem consistent_iff [OrientedCmp cmp] : Consistent cmp l ↔
    ∀ a ∈ l, ∀ b ∈ l, ∀ c ∈ l, cmp a b ≠ .gt → cmp b c ≠ .gt → cmp a c ≠ .gt :=
  ⟨Consistent.trans, fun h => ⟨fun _ _ _ _ => OrientedCmp.eq_swap, h⟩⟩

theorem consistent_of_transCmp [TransCmp cmp] : Consistent cmp l :=
  consistent_iff.mpr fun _ _ _ _ _ _ hab hbc =>
    Ordering.isLE_iff_ne_gt.mp (TransCmp.isLE_trans (Ordering.isLE_iff_ne_gt.mpr hab)
      (Ordering.isLE_iff_ne_gt.mpr hbc))

theorem consistent_swap (h : Consistent cmp l) : Consistent (fun a b => (cmp a b).swap) l where
  swap a ha b hb := by rw [h.swap a ha b hb]
  trans a ha b hb c hc hab hbc := by
    rw [← h.swap a ha b hb] at hab
    rw [← h.swap b hb c hc] at hbc
    rw [← h.swap a ha c hc]
    exact h.trans c hc b hb a ha hbc hab

theorem consistent_map {f : γ → α} {l : List γ} :
    Consistent cmp (l.map f) ↔ Consistent (fun a b => cmp (f a) (f b)) l := by
  constructor
  · intro h
    exact ⟨fun a ha b hb => h.swap _ (List.mem_map_of_mem ha) _ (List.mem_map_of_mem hb),
      fun a ha b hb c hc => h.trans _ (List.mem_map_of_mem ha) _ (List.mem_map_of_mem hb) _
        (List.mem_map_of_mem hc)⟩
  · intro h
    refine ⟨fun a ha b hb => ?_, fun a ha b hb c hc => ?_⟩
    · obtain ⟨x, hx, rfl⟩ := List.mem_map.mp ha
      obtain ⟨y, hy, rfl⟩ := List.mem_map.mp hb
      exact h.swap x hx y hy
    · obtain ⟨x, hx, rfl⟩ := List.mem_map.mp ha
      obtain ⟨y, hy, rfl⟩ := List.mem_map.mp hb
      obtain ⟨z, hz, rfl⟩ := List.mem_map.mp hc
      exact h.trans x hx y hy z hz

end

/-! ### Comparisons in turn -/

def inTurn (a b : α) : List (α → α → Ordering) → Ordering
  | [] => .eq
  | cmp :: rest => (cmp a b).then (inTurn a b rest)

theorem inTurn_eq_eq {a b : α} : ∀ {cmps : List (α → α → Ordering)},
    inTurn a b cmps = .eq ↔ ∀ cmp ∈ cmps, cmp a b = .eq
  | [] => iff_of_true rfl nofun
  | cmp :: rest => by rw [inTurn, Ordering.then_eq_eq, inTurn_eq_eq, List.forall_mem_cons]

variable {l : List α}

theorem consistent_inTurn : ∀ {cmps : List (α → α → Ordering)},
    (∀ cmp ∈ cmps, Consistent cmp l) → Consistent (fun a b => inTurn a b cmps) l
  | [], _ => ⟨fun _ _ _ _ => rfl, nofun⟩
  | _ :: _, h =>
    have ⟨hfirst, hrest⟩ := List.forall_mem_cons.mp h
    hfirst.then (consistent_inTurn hrest)

/-! ### Exact and coarse readings -/

section

variable [LinearOrder β] [LinearOrder γ] (exact : α → Option β) (coarse : α → γ)

def exactOr (a b : α) : Ordering :=
  match exact a, exact b with
  | some x, some y => compare x y
  | _, _ => compare (coarse a) (coarse b)

variable {exact coarse} {a b : α} {x y : β}

theorem exactOr_of_exact (ha : exact a = some x) (hb : exact b = some y) :
    exactOr exact coarse a b = compare x y := by
  rw [exactOr, ha, hb]

theorem exactOr_of_not_exact (h : ¬ ((exact a).isSome ∧ (exact b).isSome)) :
    exactOr exact coarse a b = compare (coarse a) (coarse b) := by
  rw [exactOr]
  split
  next ha hb => exact absurd ⟨by rw [ha]; rfl, by rw [hb]; rfl⟩ h
  next => rfl

instance : OrientedCmp (exactOr exact coarse) where
  eq_swap {a b} := by
    by_cases h : (exact a).isSome ∧ (exact b).isSome
    · obtain ⟨x, hx⟩ := Option.isSome_iff_exists.mp h.1
      obtain ⟨y, hy⟩ := Option.isSome_iff_exists.mp h.2
      rw [exactOr_of_exact hx hy, exactOr_of_exact hy hx]
      exact OrientedCmp.eq_swap
    · rw [exactOr_of_not_exact h, exactOr_of_not_exact (mt And.symm h)]
      exact OrientedCmp.eq_swap

variable {round : β → γ} (hmono : Monotone round)
  (hround : ∀ {a : α} {x : β}, exact a = some x → coarse a = round x)
include hmono hround

theorem coarse_le (h : exactOr exact coarse a b ≠ .gt) : coarse a ≤ coarse b := by
  by_cases hexact : (exact a).isSome ∧ (exact b).isSome
  · obtain ⟨x, hx⟩ := Option.isSome_iff_exists.mp hexact.1
    obtain ⟨y, hy⟩ := Option.isSome_iff_exists.mp hexact.2
    rw [exactOr_of_exact hx hy, compare_le_iff_le] at h
    rw [hround hx, hround hy]
    exact hmono h
  · rw [exactOr_of_not_exact hexact, compare_le_iff_le] at h
    exact h

theorem consistent_exactOr_iff : Consistent (exactOr exact coarse) l ↔
    ∀ a ∈ l, ∀ b ∈ l, ∀ c ∈ l, ∀ x y, exact a = some x → exact b = some y → exact c = none →
      coarse a = coarse c → coarse b = coarse c → x = y := by
  rw [consistent_iff]
  constructor
  · intro h
    have hle : ∀ a ∈ l, ∀ b ∈ l, ∀ c ∈ l, ∀ x y, exact a = some x → exact b = some y →
        exact c = none → coarse a = coarse c → coarse b = coarse c → x ≤ y := by
      intro a ha b hb c hc x y hx hy hz hac hbc
      have hac' : exactOr exact coarse a c ≠ .gt := by
        rw [exactOr_of_not_exact (by simp [hz]), compare_le_iff_le]
        exact hac.le
      have hcb' : exactOr exact coarse c b ≠ .gt := by
        rw [exactOr_of_not_exact (by simp [hz]), compare_le_iff_le]
        exact hbc.ge
      have hab := h a ha c hc b hb hac' hcb'
      rwa [exactOr_of_exact hx hy, compare_le_iff_le] at hab
    intro a ha b hb c hc x y hx hy hz hac hbc
    exact le_antisymm (hle a ha b hb c hc x y hx hy hz hac hbc)
      (hle b hb a ha c hc y x hy hx hz hbc hac)
  · intro h a ha b hb c hc hab hbc
    have hab' := coarse_le hmono hround hab
    have hbc' := coarse_le hmono hround hbc
    by_cases hexact : (exact a).isSome ∧ (exact c).isSome
    · obtain ⟨x, hx⟩ := Option.isSome_iff_exists.mp hexact.1
      obtain ⟨z, hz⟩ := Option.isSome_iff_exists.mp hexact.2
      rw [exactOr_of_exact hx hz, compare_le_iff_le]
      cases hy : exact b with
      | some y =>
        rw [exactOr_of_exact hx hy, compare_le_iff_le] at hab
        rw [exactOr_of_exact hy hz, compare_le_iff_le] at hbc
        exact hab.trans hbc
      | none =>
        -- what is out of order between exact readings lies between equal coarse ones
        by_contra hlt
        have hca : coarse c ≤ coarse a := by
          rw [hround hz, hround hx]
          exact hmono (not_le.mp hlt).le
        have heq := h a ha c hc b hb x z hx hz hy (le_antisymm hab' (hbc'.trans hca))
          (le_antisymm (hca.trans hab') hbc')
        exact hlt heq.le
    · rw [exactOr_of_not_exact hexact, compare_le_iff_le]
      exact hab'.trans hbc'

end

/-! ### Two kinds of elements -/

section

variable (num : α → Bool) (cmpN cmpT : α → α → Ordering)

def mixed (a b : α) : Ordering :=
  if num a ∧ num b = true then cmpN a b else cmpT a b

/-- Where the second comparison puts an element of the other kind between two of the kind, these are
in their order. -/
structure Separated (l : List α) : Prop where
  lt : ∀ m ∈ l, ∀ n ∈ l, ∀ t ∈ l, num m → num n → num t = false → cmpN m n = .lt →
    cmpT m t = .lt ∨ cmpT n t = .gt
  eq : ∀ m ∈ l, ∀ n ∈ l, ∀ t ∈ l, num m → num n → num t = false → cmpN m n = .eq →
    cmpT m t = cmpT n t

variable {num cmpN cmpT} {a b : α}

theorem mixed_of_num (ha : num a) (hb : num b) : mixed num cmpN cmpT a b = cmpN a b :=
  if_pos ⟨ha, hb⟩

theorem mixed_of_not_left (h : num a = false) : mixed num cmpN cmpT a b = cmpT a b :=
  if_neg fun hnum => Bool.false_ne_true (h.symm.trans hnum.1)

theorem mixed_of_not_right (h : num b = false) : mixed num cmpN cmpT a b = cmpT a b :=
  if_neg fun hnum => Bool.false_ne_true (h.symm.trans hnum.2)

variable [OrientedCmp cmpN] [TransCmp cmpT]

instance : OrientedCmp (mixed num cmpN cmpT) where
  eq_swap {a b} := by
    rw [mixed, mixed]
    by_cases h : num a ∧ num b = true
    · rw [if_pos h, if_pos h.symm]
      exact OrientedCmp.eq_swap
    · rw [if_neg h, if_neg (mt And.symm h)]
      exact OrientedCmp.eq_swap

theorem separated_of_consistent (h : Consistent (mixed num cmpN cmpT) l) :
    Separated num cmpN cmpT l where
  lt m hm n hn t ht hnm hnn hnt hmn := by
    have htrans := h.trans n hn t ht m hm
    have hswap : cmpT t m = (cmpT m t).swap := OrientedCmp.eq_swap
    rw [mixed_of_not_right hnt, mixed_of_not_left hnt, mixed_of_num hnn hnm,
      OrientedCmp.gt_of_lt hmn, hswap] at htrans
    revert htrans
    cases cmpT n t <;> cases cmpT m t <;> simp
  eq m hm n hn t ht hnm hnn hnt hmn := by
    have hmn' : mixed num cmpN cmpT m n = .eq := (mixed_of_num hnm hnn).trans hmn
    have hnm' : mixed num cmpN cmpT n m = .eq := OrientedCmp.eq_symm hmn'
    have hleft := h.trans m hm n hn t ht
    have hleft' := h.trans n hn m hm t ht
    have hright := h.trans t ht m hm n hn
    have hright' := h.trans t ht n hn m hm
    rw [h.swap m hm t ht, h.swap n hn t ht] at hright hright'
    rw [hmn', mixed_of_not_right hnt, mixed_of_not_right hnt] at hleft hright
    rw [hnm', mixed_of_not_right hnt, mixed_of_not_right hnt] at hleft' hright'
    revert hleft hleft' hright hright'
    cases cmpT n t <;> cases cmpT m t <;> simp

/-- A comparison of some elements beside one of all is consistent when each is, and the two kinds
are separated. -/
theorem consistent_mixed_iff : Consistent (mixed num cmpN cmpT) l ↔
    Consistent cmpN (l.filter num) ∧ Separated num cmpN cmpT l := by
  constructor
  · intro h
    refine ⟨consistent_iff.mpr fun a ha b hb c hc => ?_, separated_of_consistent h⟩
    obtain ⟨ha, hna⟩ := List.mem_filter.mp ha
    obtain ⟨hb, hnb⟩ := List.mem_filter.mp hb
    obtain ⟨hc, hnc⟩ := List.mem_filter.mp hc
    have htrans := h.trans a ha b hb c hc
    rwa [mixed_of_num hna hnb, mixed_of_num hnb hnc, mixed_of_num hna hnc] at htrans
  · rintro ⟨hnums, hsep⟩
    have hswap : ∀ a b, cmpT b a = (cmpT a b).swap := fun _ _ => OrientedCmp.eq_swap
    refine consistent_iff.mpr fun a ha b hb c hc => ?_
    cases hna : num a with
    | false =>
      rw [mixed_of_not_left hna, mixed_of_not_left hna]
      cases hnb : num b with
      | false =>
        rw [mixed_of_not_left hnb]
        exact consistent_of_transCmp.trans a ha b hb c hc
      | true =>
        cases hnc : num c with
        | false =>
          rw [mixed_of_not_right hnc]
          exact consistent_of_transCmp.trans a ha b hb c hc
        | true =>
          rw [mixed_of_num hnb hnc]
          have hlt := hsep.lt b hb c hc a ha hnb hnc hna
          have heq := hsep.eq b hb c hc a ha hnb hnc hna
          rw [hswap a b, hswap a c] at hlt heq
          revert hlt heq
          cases cmpN b c <;> cases cmpT a b <;> cases cmpT a c <;> simp
    | true =>
      cases hnb : num b with
      | false =>
        rw [mixed_of_not_right hnb, mixed_of_not_left hnb]
        cases hnc : num c with
        | false =>
          rw [mixed_of_not_right hnc]
          exact consistent_of_transCmp.trans a ha b hb c hc
        | true =>
          rw [mixed_of_num hna hnc]
          intro hab hbc hac
          have hsep := hsep.lt c hc a ha b hb hnc hna hnb (OrientedCmp.lt_of_gt hac)
          rw [hswap b c] at hsep
          revert hab hbc hsep
          cases cmpT a b <;> cases cmpT b c <;> simp
      | true =>
        rw [mixed_of_num hna hnb]
        cases hnc : num c with
        | false =>
          rw [mixed_of_not_right hnc, mixed_of_not_right hnc]
          have hlt := hsep.lt a ha b hb c hc hna hnb hnc
          have heq := hsep.eq a ha b hb c hc hna hnb hnc
          revert hlt heq
          cases cmpN a b <;> cases cmpT a c <;> cases cmpT b c <;> simp
        | true =>
          rw [mixed_of_num hnb hnc, mixed_of_num hna hnc]
          exact hnums.trans a (List.mem_filter.mpr ⟨ha, hna⟩) b
            (List.mem_filter.mpr ⟨hb, hnb⟩) c (List.mem_filter.mpr ⟨hc, hnc⟩)

end

end WeakOrder
