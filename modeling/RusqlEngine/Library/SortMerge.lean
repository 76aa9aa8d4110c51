import RusqlEngine.Library.RowList
import Mathlib.Data.List.TakeWhile

/-!
# Joins of sorted lists

Two lists that ascend by their keys are joined in one pass. An outer join goes through one list with
a cursor in the other: it skips what is below the key at hand, and the equal ones are the run at the
cursor. An inner join moves two cursors and pairs blocks of equal keys. Some keys join with nothing.
The comparison need only be transitive.
-/

namespace SortMerge

open Std OrientedCmp
open RowList (InOrder)

variable {α β γ κ : Type*} (cmp : κ → κ → Ordering)

def TransOn (S : Set κ) : Prop :=
  ∀ a ∈ S, ∀ b ∈ S, ∀ c ∈ S, cmp a b ≠ .gt → cmp b c ≠ .gt → cmp a c ≠ .gt

theorem TransOn.mono {cmp : κ → κ → Ordering} {S T : Set κ} (h : TransOn cmp S) (hsub : T ⊆ S) :
    TransOn cmp T :=
  fun a ha b hb c hc => h a (hsub ha) b (hsub hb) c (hsub hc)

def Ascends (key : γ → κ) (l : List γ) : Prop :=
  InOrder (fun a b => cmp (key a) (key b)) l

variable (kl : α → κ) (kr : β → κ) (skip : κ → Bool)

/-- Each element of the first list with the run of its key in the second. -/
def runs : List α → List β → List (α × List β)
  | [], _ => []
  | a :: as, bs =>
    let rest := bs.dropWhile fun b => cmp (kr b) (kl a) = .lt
    (a, if skip (kl a) then [] else rest.takeWhile fun b => cmp (kr b) (kl a) = .eq) ::
      runs as rest

/-- The pairs of the blocks of equal keys. -/
def blocks [ReflCmp cmp] : List α → List β → List (α × β)
  | [], _ => []
  | _, [] => []
  | a :: as, b :: bs =>
    if skip (kl a) then blocks as (b :: bs)
    else if skip (kr b) then blocks (a :: as) bs
    else
      match cmp (kl a) (kr b) with
      | .lt => blocks as (b :: bs)
      | .gt => blocks (a :: as) bs
      | .eq =>
        let left := (a :: as).takeWhile fun x => cmp (kl x) (kl a) = .eq
        let right := (b :: bs).takeWhile fun y => cmp (kr y) (kl a) = .eq
        (left.flatMap fun x => right.map fun y => (x, y)) ++
          blocks ((a :: as).dropWhile fun x => cmp (kl x) (kl a) = .eq)
            ((b :: bs).dropWhile fun y => cmp (kr y) (kl a) = .eq)
termination_by as bs => as.length + bs.length
decreasing_by
  all_goals simp only [List.length_cons]
  all_goals try omega
  -- the first block holds its own first element
  rw [List.dropWhile_cons_of_pos (by rw [decide_eq_true_eq]; exact ReflCmp.compare_self)]
  have hleft := (List.dropWhile_suffix (l := as) fun x => cmp (kl x) (kl a) = .eq).length_le
  have hright := (List.dropWhile_suffix (l := b :: bs) fun y => cmp (kr y) (kl a) = .eq).length_le
  rw [List.length_cons] at hright
  omega

def joins (a : α) (b : β) : Bool :=
  !skip (kl a) && !skip (kr b) && cmp (kl a) (kr b) == .eq

def pairs (as : List α) (bs : List β) : List (α × β) :=
  as.flatMap fun a => (bs.filter (joins cmp kl kr skip a)).map fun b => (a, b)

section

variable {cmp} [OrientedCmp cmp] {S : Set κ} (h : TransOn cmp S) {a b c : κ}
include h

theorem TransOn.lt_of_lt_of_le (ha : a ∈ S) (hb : b ∈ S) (hc : c ∈ S) (hab : cmp a b = .lt)
    (hbc : cmp b c ≠ .gt) : cmp a c = .lt := by
  by_contra hac
  have hca : cmp c a ≠ .gt := fun hgt => hac (lt_of_gt hgt)
  exact h b hb c hc a ha hbc hca (gt_of_lt hab)

theorem TransOn.lt_of_le_of_lt (ha : a ∈ S) (hb : b ∈ S) (hc : c ∈ S) (hab : cmp a b ≠ .gt)
    (hbc : cmp b c = .lt) : cmp a c = .lt := by
  by_contra hac
  have hca : cmp c a ≠ .gt := fun hgt => hac (lt_of_gt hgt)
  exact h c hc a ha b hb hca hab (gt_of_lt hbc)

theorem TransOn.eq_trans (ha : a ∈ S) (hb : b ∈ S) (hc : c ∈ S) (hab : cmp a b = .eq)
    (hbc : cmp b c = .eq) : cmp a c = .eq := by
  have hle : cmp a c ≠ .gt := h a ha b hb c hc (by rw [hab]; decide) (by rw [hbc]; decide)
  have hge : cmp c a ≠ .gt := by
    refine h c hc b hb a ha ?_ ?_
    · rw [eq_symm hbc]
      decide
    · rw [eq_symm hab]
      decide
  cases hac : cmp a c with
  | lt => exact absurd (gt_of_lt hac) hge
  | eq => rfl
  | gt => exact absurd hac hle

end

section

variable {cmp} [OrientedCmp cmp] {S : Set κ} (h : TransOn cmp S) {key : γ → κ} {l : List γ} {k : κ}
include h

theorem filter_dropWhile {k' : κ} (hl : ∀ x ∈ l, key x ∈ S) (hk : k ∈ S) (hk' : k' ∈ S)
    (hle : cmp k k' ≠ .gt) :
    (l.dropWhile fun x => cmp (key x) k = .lt).filter (fun x => cmp (key x) k' = .eq) =
      l.filter fun x => cmp (key x) k' = .eq := by
  induction l with
  | nil => rfl
  | cons x l ih =>
    by_cases hx : cmp (key x) k = .lt
    · have hlt : cmp (key x) k' = .lt := h.lt_of_lt_of_le (hl x List.mem_cons_self) hk hk' hx hle
      rw [List.dropWhile_cons_of_pos (by rwa [decide_eq_true_eq]), ih fun y hy => hl y (.tail _ hy),
        List.filter_cons_of_neg (by simp [hlt])]
    · rw [List.dropWhile_cons_of_neg (by rwa [decide_eq_true_eq])]

theorem not_lt_of_mem_dropWhile (hsorted : Ascends cmp key l) (hl : ∀ x ∈ l, key x ∈ S)
    (hk : k ∈ S) : ∀ x ∈ l.dropWhile (fun x => cmp (key x) k = .lt), cmp (key x) k ≠ .lt := by
  induction l with
  | nil => exact nofun
  | cons x l ih =>
    have htail : ∀ y ∈ l, key y ∈ S := fun y hy => hl y (.tail _ hy)
    obtain ⟨hhead, hsorted⟩ := List.pairwise_cons.mp hsorted
    by_cases hx : cmp (key x) k = .lt
    · rw [List.dropWhile_cons_of_pos (by rwa [decide_eq_true_eq])]
      exact ih hsorted htail
    · rw [List.dropWhile_cons_of_neg (by rwa [decide_eq_true_eq])]
      intro y hy hyk
      rcases List.mem_cons.mp hy with rfl | hy
      · exact hx hyk
      · exact hx (h.lt_of_le_of_lt (hl x List.mem_cons_self) (htail y hy) hk (hhead y hy) hyk)

theorem lt_of_mem_dropWhile (hsorted : Ascends cmp key l) (hl : ∀ x ∈ l, key x ∈ S) (hk : k ∈ S)
    (hge : ∀ x ∈ l, cmp (key x) k ≠ .lt) :
    ∀ x ∈ l.dropWhile (fun x => cmp (key x) k = .eq), cmp k (key x) = .lt := by
  induction l with
  | nil => exact nofun
  | cons x l ih =>
    have htail : ∀ y ∈ l, key y ∈ S := fun y hy => hl y (.tail _ hy)
    obtain ⟨hhead, hsorted⟩ := List.pairwise_cons.mp hsorted
    by_cases hx : cmp (key x) k = .eq
    · rw [List.dropWhile_cons_of_pos (by rwa [decide_eq_true_eq])]
      exact ih hsorted htail fun y hy => hge y (.tail _ hy)
    · rw [List.dropWhile_cons_of_neg (by rwa [decide_eq_true_eq])]
      have hgt : cmp k (key x) = .lt := by
        cases hcmp : cmp (key x) k with
        | lt => exact absurd hcmp (hge x List.mem_cons_self)
        | eq => exact absurd hcmp hx
        | gt => exact lt_of_gt hcmp
      intro y hy
      rcases List.mem_cons.mp hy with rfl | hy
      · exact hgt
      · exact h.lt_of_lt_of_le hk (hl x List.mem_cons_self) (htail y hy) hgt (hhead y hy)

omit h [OrientedCmp cmp] in
theorem eq_of_mem_takeWhile {x : γ} (hx : x ∈ l.takeWhile fun x => cmp (key x) k = .eq) :
    cmp (key x) k = .eq := by
  have hx := List.mem_takeWhile_imp hx
  exact of_decide_eq_true hx

theorem takeWhile_eq_filter (hsorted : Ascends cmp key l) (hl : ∀ x ∈ l, key x ∈ S) (hk : k ∈ S)
    (hge : ∀ x ∈ l, cmp (key x) k ≠ .lt) :
    (l.takeWhile fun x => cmp (key x) k = .eq) = l.filter fun x => cmp (key x) k = .eq := by
  have hall : (l.takeWhile fun x => cmp (key x) k = .eq).filter (fun x => cmp (key x) k = .eq) =
      l.takeWhile fun x => cmp (key x) k = .eq :=
    List.filter_eq_self.mpr fun x hx => decide_eq_true (eq_of_mem_takeWhile hx)
  have hnone : (l.dropWhile fun x => cmp (key x) k = .eq).filter (fun x => cmp (key x) k = .eq) =
      [] := by
    refine List.filter_eq_nil_iff.mpr fun x hx heq => ?_
    have hlt := lt_of_mem_dropWhile h hsorted hl hk hge x hx
    rw [eq_symm (of_decide_eq_true heq)] at hlt
    exact absurd hlt (by decide)
  calc
    (l.takeWhile fun x => cmp (key x) k = .eq) =
        ((l.takeWhile fun x => cmp (key x) k = .eq) ++
          l.dropWhile fun x => cmp (key x) k = .eq).filter fun x => cmp (key x) k = .eq := by
      rw [List.filter_append, hall, hnone, List.append_nil]
    _ = l.filter fun x => cmp (key x) k = .eq := by rw [List.takeWhile_append_dropWhile]

omit h in
theorem le_of_mem_cons {x : γ} (hsorted : Ascends cmp key (x :: l)) :
    ∀ y ∈ x :: l, cmp (key x) (key y) ≠ .gt := by
  intro y hy
  rcases List.mem_cons.mp hy with rfl | hy
  · have heq : cmp (key y) (key y) = .eq := ReflCmp.compare_self
    rw [heq]
    decide
  · exact (List.pairwise_cons.mp hsorted).1 y hy

theorem runs_eq {kl : α → κ} {kr : β → κ} {skip : κ → Bool} {as : List α} {bs : List β}
    (has : Ascends cmp kl as) (hbs : Ascends cmp kr bs) (hkl : ∀ a ∈ as, kl a ∈ S)
    (hkr : ∀ b ∈ bs, kr b ∈ S) :
    runs cmp kl kr skip as bs = as.map fun a =>
      (a, if skip (kl a) then [] else bs.filter fun b => cmp (kr b) (kl a) = .eq) := by
  induction as generalizing bs with
  | nil => rfl
  | cons a as ih =>
    obtain ⟨hhead, htail⟩ := List.pairwise_cons.mp has
    have ha : kl a ∈ S := hkl a List.mem_cons_self
    have hrest := List.dropWhile_sublist (l := bs) fun b => cmp (kr b) (kl a) = .lt
    have hrestS : ∀ b ∈ bs.dropWhile (fun b => cmp (kr b) (kl a) = .lt), kr b ∈ S :=
      fun b hb => hkr b (hrest.subset hb)
    have hself : cmp (kl a) (kl a) ≠ .gt := le_of_mem_cons has a List.mem_cons_self
    rw [runs, List.map_cons, takeWhile_eq_filter h (hbs.sublist hrest) hrestS ha
      (not_lt_of_mem_dropWhile h hbs hkr ha), filter_dropWhile h hkr ha ha hself,
      ih htail (hbs.sublist hrest) (fun x hx => hkl x (.tail _ hx)) hrestS]
    congr 1
    refine List.map_congr_left fun x hx => ?_
    rw [filter_dropWhile h hkr ha (hkl x (.tail _ hx)) (hhead x hx)]

end

section

variable {cmp} {kl : α → κ} {kr : β → κ} {skip : κ → Bool} {a : α} {b : β} {as : List α}
  {bs : List β}

theorem joins_iff : joins cmp kl kr skip a b ↔
    skip (kl a) = false ∧ skip (kr b) = false ∧ cmp (kl a) (kr b) = .eq := by
  rw [joins, Bool.and_eq_true, Bool.and_eq_true, Bool.not_eq_true', Bool.not_eq_true', beq_iff_eq,
    and_assoc]

theorem joins_eq_false (h : cmp (kl a) (kr b) ≠ .eq) : joins cmp kl kr skip a b = false :=
  Bool.eq_false_iff.mpr fun hjoins => h (joins_iff.mp hjoins).2.2

theorem pairs_nil : pairs cmp kl kr skip as [] = [] :=
  List.flatMap_eq_nil_iff.mpr fun _ _ => rfl

theorem pairs_cons_left (hnone : ∀ y ∈ bs, joins cmp kl kr skip a y = false) :
    pairs cmp kl kr skip (a :: as) bs = pairs cmp kl kr skip as bs := by
  have hfilter : bs.filter (joins cmp kl kr skip a) = [] :=
    List.filter_eq_nil_iff.mpr fun y hy => by rw [hnone y hy]; exact Bool.false_ne_true
  rw [pairs, List.flatMap_cons, hfilter, List.map_nil, List.nil_append, pairs]

theorem pairs_cons_right (hnone : ∀ x ∈ as, joins cmp kl kr skip x b = false) :
    pairs cmp kl kr skip as (b :: bs) = pairs cmp kl kr skip as bs := by
  refine List.flatMap_congr fun x hx => ?_
  rw [List.filter_cons_of_neg (by rw [hnone x hx]; exact Bool.false_ne_true)]

end

section

variable {cmp} [OrientedCmp cmp] {S : Set κ} (h : TransOn cmp S) {kl : α → κ} {kr : β → κ}
  {skip : κ → Bool} {as : List α} {bs : List β}
include h

/-- Blocks of equal keys, and what stands behind them, join among themselves. -/
theorem pairs_append {k : κ} {as' : List α} {bs' : List β}
    (hskip : ∀ j j', cmp j j' = .eq → skip j = skip j') (hk : skip k = false) (hkS : k ∈ S)
    (hkl : ∀ a ∈ as ++ as', kl a ∈ S) (hkr : ∀ b ∈ bs ++ bs', kr b ∈ S)
    (has : ∀ a ∈ as, cmp (kl a) k = .eq) (hbs : ∀ b ∈ bs, cmp (kr b) k = .eq)
    (has' : ∀ a ∈ as', cmp k (kl a) = .lt) (hbs' : ∀ b ∈ bs', cmp k (kr b) = .lt) :
    pairs cmp kl kr skip (as ++ as') (bs ++ bs') =
      (as.flatMap fun a => bs.map fun b => (a, b)) ++ pairs cmp kl kr skip as' bs' := by
  rw [pairs, List.flatMap_append]
  congr 1
  · refine List.flatMap_congr fun a ha => ?_
    have haS := hkl a (List.mem_append_left _ ha)
    have hblock : bs.filter (joins cmp kl kr skip a) = bs := by
      refine List.filter_eq_self.mpr fun b hb => joins_iff.mpr ⟨?_, ?_, ?_⟩
      · rw [hskip _ _ (has a ha), hk]
      · rw [hskip _ _ (hbs b hb), hk]
      · exact h.eq_trans haS hkS (hkr b (List.mem_append_left _ hb)) (has a ha)
          (eq_symm (hbs b hb))
    have hrest : bs'.filter (joins cmp kl kr skip a) = [] := by
      refine List.filter_eq_nil_iff.mpr fun b hb hjoins => ?_
      have hle : cmp (kl a) k ≠ .gt := by
        rw [has a ha]
        decide
      have hlt := h.lt_of_le_of_lt haS hkS (hkr b (List.mem_append_right _ hb)) hle (hbs' b hb)
      rw [(joins_iff.mp hjoins).2.2] at hlt
      exact absurd hlt (by decide)
    rw [List.filter_append, hblock, hrest, List.append_nil]
  · refine List.flatMap_congr fun a ha => ?_
    have hblock : bs.filter (joins cmp kl kr skip a) = [] := by
      refine List.filter_eq_nil_iff.mpr fun b hb hjoins => ?_
      have hbS := hkr b (List.mem_append_left _ hb)
      have hab := (joins_iff.mp hjoins).2.2
      have heq := h.eq_trans (hkl a (List.mem_append_right _ ha)) hbS hkS hab (hbs b hb)
      have hlt := has' a ha
      rw [eq_symm heq] at hlt
      exact absurd hlt (by decide)
    rw [List.filter_append, hblock, List.nil_append]

/-- The pairs of two lists whose first keys are equal. -/
theorem pairs_of_eq {a : α} {b : β} (hskip : ∀ j j', cmp j j' = .eq → skip j = skip j')
    (has : Ascends cmp kl (a :: as)) (hbs : Ascends cmp kr (b :: bs))
    (hkl : ∀ x ∈ a :: as, kl x ∈ S) (hkr : ∀ y ∈ b :: bs, kr y ∈ S) (ha : skip (kl a) = false)
    (heq : cmp (kl a) (kr b) = .eq) :
    pairs cmp kl kr skip (a :: as) (b :: bs) =
      (((a :: as).takeWhile fun x => cmp (kl x) (kl a) = .eq).flatMap fun x =>
        ((b :: bs).takeWhile fun y => cmp (kr y) (kl a) = .eq).map fun y => (x, y)) ++
      pairs cmp kl kr skip ((a :: as).dropWhile fun x => cmp (kl x) (kl a) = .eq)
        ((b :: bs).dropWhile fun y => cmp (kr y) (kl a) = .eq) := by
  have haS := hkl a List.mem_cons_self
  have hge : ∀ x ∈ a :: as, cmp (kl x) (kl a) ≠ .lt :=
    fun x hx hlt => le_of_mem_cons has x hx (gt_of_lt hlt)
  have hge' : ∀ y ∈ b :: bs, cmp (kr y) (kl a) ≠ .lt := by
    intro y hy hlt
    have hby := h.lt_of_le_of_lt (hkr b List.mem_cons_self) (hkr y hy) haS
      (le_of_mem_cons hbs y hy) hlt
    rw [eq_symm heq] at hby
    exact absurd hby (by decide)
  rw [← pairs_append h hskip ha haS (by rwa [List.takeWhile_append_dropWhile])
    (by rwa [List.takeWhile_append_dropWhile]) (fun x hx => eq_of_mem_takeWhile hx)
    (fun y hy => eq_of_mem_takeWhile hy) (lt_of_mem_dropWhile h has hkl haS hge)
    (lt_of_mem_dropWhile h hbs hkr haS hge'), List.takeWhile_append_dropWhile,
    List.takeWhile_append_dropWhile]

theorem blocks_eq (hskip : ∀ j j', cmp j j' = .eq → skip j = skip j') {as : List α} {bs : List β}
    (has : Ascends cmp kl as) (hbs : Ascends cmp kr bs) (hkl : ∀ a ∈ as, kl a ∈ S)
    (hkr : ∀ b ∈ bs, kr b ∈ S) : blocks cmp kl kr skip as bs = pairs cmp kl kr skip as bs := by
  induction as, bs using blocks.induct cmp kl kr skip with
  | case1 bs => rw [blocks, pairs, List.flatMap_nil]
  | case2 as hne => rw [blocks, pairs_nil]; exact hne
  | case3 a as b bs ha ih =>
    have hnone : ∀ y ∈ b :: bs, joins cmp kl kr skip a y = false := fun y _ => by
      rw [joins, ha, Bool.not_true, Bool.false_and, Bool.false_and]
    rw [blocks, if_pos ha, ih (List.pairwise_cons.mp has).2 hbs
      (fun x hx => hkl x (.tail _ hx)) hkr, pairs_cons_left hnone]
  | case4 a as b bs ha hb ih =>
    have hnone : ∀ x ∈ a :: as, joins cmp kl kr skip x b = false := fun x _ => by
      rw [joins, hb, Bool.not_true, Bool.and_false, Bool.false_and]
    rw [blocks, if_neg ha, if_pos hb, ih has (List.pairwise_cons.mp hbs).2 hkl
      (fun y hy => hkr y (.tail _ hy)), pairs_cons_right hnone]
  | case5 a as b bs ha hb hlt ih =>
    have hnone : ∀ y ∈ b :: bs, joins cmp kl kr skip a y = false := by
      intro y hy
      have hle := le_of_mem_cons hbs y hy
      have hay := h.lt_of_lt_of_le (hkl a List.mem_cons_self) (hkr b List.mem_cons_self)
        (hkr y hy) hlt hle
      exact joins_eq_false (by rw [hay]; decide)
    rw [blocks, if_neg ha, if_neg hb, hlt, pairs_cons_left hnone]
    exact ih (List.pairwise_cons.mp has).2 hbs (fun x hx => hkl x (.tail _ hx)) hkr
  | case6 a as b bs ha hb hgt ih =>
    have hnone : ∀ x ∈ a :: as, joins cmp kl kr skip x b = false := by
      intro x hx
      have hle := le_of_mem_cons has x hx
      have hbx := h.lt_of_lt_of_le (hkr b List.mem_cons_self) (hkl a List.mem_cons_self)
        (hkl x hx) (lt_of_gt hgt) hle
      exact joins_eq_false (by rw [gt_of_lt hbx]; decide)
    rw [blocks, if_neg ha, if_neg hb, hgt, pairs_cons_right hnone]
    exact ih has (List.pairwise_cons.mp hbs).2 hkl fun y hy => hkr y (.tail _ hy)
  | case7 a as b bs ha hb heq ih =>
    have hleft := List.dropWhile_sublist (l := a :: as) fun x => cmp (kl x) (kl a) = .eq
    have hright := List.dropWhile_sublist (l := b :: bs) fun y => cmp (kr y) (kl a) = .eq
    have hrest := ih (has.sublist hleft) (hbs.sublist hright)
      (fun x hx => hkl x (hleft.subset hx)) fun y hy => hkr y (hright.subset hy)
    rw [blocks, if_neg ha, if_neg hb, heq]
    dsimp only
    rw [hrest, pairs_of_eq h hskip has hbs hkl hkr (Bool.eq_false_iff.mpr ha) heq]

end

end SortMerge
