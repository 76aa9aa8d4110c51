import Mathlib.Data.Finmap

/-!
# Filters, nested loops and buckets

A nested loop makes, for every element of one list, some elements out of another. A filter of
the made elements that asks of each only where it came from can be moved in front of the loop.
Buckets hold the elements of a list by their keys, for a loop that looks up what it joins.
-/

namespace Joins

variable {α β γ : Type*} {l : List α} {p : α → Bool} {P : γ → Bool}

theorem flatMap_filter {g : α → List γ} (h : ∀ a ∈ l, ∀ c ∈ g a, P c = p a) :
    (l.flatMap g).filter P = (l.filter p).flatMap g := by
  induction l with
  | nil => rfl
  | cons a l ih =>
    have hrest := ih fun b hb => h b (.tail _ hb)
    have hhead := h a List.mem_cons_self
    rw [List.flatMap_cons, List.filter_append, hrest]
    cases hp : p a with
    | true =>
      rw [List.filter_cons_of_pos hp, List.flatMap_cons]
      congr 1
      exact List.filter_eq_self.mpr fun c hc => (hhead c hc).trans hp
    | false =>
      rw [List.filter_cons_of_neg (by simp [hp])]
      have hnone : (g a).filter P = [] :=
        List.filter_eq_nil_iff.mpr fun c hc => by simp [hhead c hc, hp]
      rw [hnone, List.nil_append]

theorem filterMap_filter {l : List β} {f : β → Option γ} {p : β → Bool}
    (h : ∀ b ∈ l, ∀ c, f b = some c → P c = p b) :
    (l.filterMap f).filter P = (l.filter p).filterMap f := by
  induction l with
  | nil => rfl
  | cons b l ih =>
    have hrest := ih fun x hx => h x (.tail _ hx)
    cases hf : f b with
    | none =>
      rw [List.filterMap_cons_none hf, hrest]
      cases hp : p b with
      | true => rw [List.filter_cons_of_pos hp, List.filterMap_cons_none hf]
      | false => rw [List.filter_cons_of_neg (by simp [hp])]
    | some c =>
      rw [List.filterMap_cons_some hf]
      have hc := h b List.mem_cons_self c hf
      cases hp : p b with
      | true =>
        rw [List.filter_cons_of_pos (hc.trans hp), List.filter_cons_of_pos hp,
          List.filterMap_cons_some hf, hrest]
      | false =>
        rw [List.filter_cons_of_neg (by simp [hc, hp]),
          List.filter_cons_of_neg (by simp [hp]), hrest]

theorem pairs_filter {r : List β} {f : α → β → Option γ} {q : β → Bool}
    (h : ∀ a ∈ l, ∀ b ∈ r, ∀ c, f a b = some c → P c = (p a && q b)) :
    (l.flatMap fun a => r.filterMap (f a)).filter P =
      (l.filter p).flatMap fun a => (r.filter q).filterMap (f a) := by
  induction l with
  | nil => rfl
  | cons a l ih =>
    have hrest := ih fun x hx => h x (.tail _ hx)
    rw [List.flatMap_cons, List.filter_append, hrest]
    cases hp : p a with
    | true =>
      rw [List.filter_cons_of_pos hp, List.flatMap_cons]
      congr 1
      refine filterMap_filter fun b hb c hc => ?_
      rw [h a List.mem_cons_self b hb c hc, hp, Bool.true_and]
    | false =>
      rw [List.filter_cons_of_neg (by simp [hp])]
      have hnone : (r.filterMap (f a)).filter P = [] := by
        refine List.filter_eq_nil_iff.mpr fun c hc => ?_
        obtain ⟨b, hb, hf⟩ := List.mem_filterMap.mp hc
        simp [h a List.mem_cons_self b hb c hf, hp]
      rw [hnone, List.nil_append]

theorem filter_filter_perm_iff {q : α → Bool} :
    ((l.filter p).filter q).Perm (l.filter q) ↔ ∀ a ∈ l, q a → p a := by
  constructor
  · intro h a ha hq
    have hmem := h.mem_iff.mpr (List.mem_filter.mpr ⟨ha, hq⟩)
    exact (List.mem_filter.mp (List.mem_filter.mp hmem).1).2
  · intro h
    rw [List.filter_filter]
    refine List.Perm.of_eq (List.filter_congr fun a ha => ?_)
    cases hq : q a with
    | true => rw [h a ha hq, Bool.and_true]
    | false => rw [Bool.false_and]

section

variable {l : List α} {r : List β} {f : α → β → γ}

theorem flatMap_map_filter (l : List α) (r : List β) (f : α → β → γ) (R : α → β → Bool) :
    (l.flatMap fun a => (r.filter (R a)).map (f a)) =
      ((l.product r).filter fun p => R p.1 p.2).map fun p => f p.1 p.2 := by
  rw [List.product, List.filter_flatMap, List.map_flatMap]
  refine List.flatMap_congr fun a _ => ?_
  rw [List.filter_map, List.map_map]
  rfl

theorem product_filter (l : List α) (r : List β) (p : α → Bool) (q : β → Bool) :
    (l.filter p).product (r.filter q) =
      (l.product r).filter fun pair => p pair.1 && q pair.2 := by
  induction l with
  | nil => rfl
  | cons a l ih =>
    rw [List.product, List.product, List.flatMap_cons, List.filter_append, List.filter_map] at *
    rw [← ih, List.filter_cons]
    cases hp : p a with
    | true =>
      rw [if_pos rfl, List.flatMap_cons]
      congr 2
      refine List.filter_congr fun b _ => ?_
      rw [Function.comp_apply, hp, Bool.true_and]
    | false =>
      have hnone : r.filter ((fun pair : α × β => p pair.1 && q pair.2) ∘ Prod.mk a) = [] :=
        List.filter_eq_nil_iff.mpr fun b _ => by simp [hp]
      rw [if_neg Bool.false_ne_true, hnone, List.map_nil, List.nil_append]

theorem flatMap_of_filter (l : List α) (p : α → Bool) (g : α → List γ) :
    (l.filter p).flatMap g = l.flatMap fun a => if p a then g a else [] := by
  induction l with
  | nil => rfl
  | cons a l ih =>
    rw [List.filter_cons, List.flatMap_cons, ← ih]
    split
    next => rw [List.flatMap_cons]
    next => rfl

theorem map_filter_eq_flatMap (l : List α) (p : α → Bool) (g : α → γ) :
    (l.filter p).map g = l.flatMap fun a => if p a then [g a] else [] := by
  rw [← flatMap_of_filter, List.map_eq_flatMap]

theorem flatMap_map_filter_comm (l : List α) (r : List β) (f : α → β → γ) (R : α → β → Bool) :
    (r.flatMap fun b => (l.filter fun a => R a b).map fun a => f a b).Perm
      (l.flatMap fun a => (r.filter (R a)).map (f a)) := by
  have hcomm := Multiset.bind_bind (r : Multiset β) (l : Multiset α)
    (f := fun b a => ((if R a b then [f a b] else [] : List γ) : Multiset γ))
  simp only [map_filter_eq_flatMap]
  rw [← Multiset.coe_eq_coe]
  simpa only [Multiset.coe_bind] using hcomm

theorem map_filter_perm_iff {g : α → γ} {q : α → Bool}
    (hinj : ∀ a ∈ l, ∀ b ∈ l, g a = g b → a = b) :
    ((l.filter p).map g).Perm ((l.filter q).map g) ↔ ∀ a ∈ l, p a = q a := by
  have hmem : ∀ s : α → Bool, ∀ a ∈ l, g a ∈ (l.filter s).map g ↔ s a := by
    intro s a ha
    constructor
    · intro h
      obtain ⟨b, hb, hba⟩ := List.mem_map.mp h
      obtain ⟨hb, hs⟩ := List.mem_filter.mp hb
      rwa [hinj b hb a ha hba] at hs
    · exact fun hs => List.mem_map_of_mem (List.mem_filter.mpr ⟨ha, hs⟩)
  constructor
  · intro h a ha
    rw [Bool.eq_iff_iff, ← hmem p a ha, ← hmem q a ha]
    exact h.mem_iff
  · intro h
    rw [List.filter_congr h]

end

section

variable {κ : Type} [DecidableEq κ] {μ : Type} (key : μ → Option κ)

/-- An element behind those of its key; one without a key is left out. -/
def addToBucket (buckets : Finmap fun _ : κ => List μ) (x : μ) : Finmap fun _ : κ => List μ :=
  match key x with
  | none => buckets
  | some k => buckets.insert k ((buckets.lookup k).getD [] ++ [x])

def bucketsOf (l : List μ) : Finmap fun _ : κ => List μ :=
  l.foldl (addToBucket key) ∅

theorem bucketsOf_congr {key' : μ → Option κ} {l : List μ} (h : ∀ x ∈ l, key x = key' x) :
    bucketsOf key l = bucketsOf key' l := by
  refine List.foldl_ext _ _ _ fun buckets x hx => ?_
  rw [addToBucket, addToBucket, h x hx]

theorem lookup_bucketsOf (l : List μ) (k : κ) :
    (bucketsOf key l).lookup k = if l.filter (fun x => key x = some k) = [] then none
      else some (l.filter fun x => key x = some k) := by
  induction l using List.reverseRecOn with
  | nil => rfl
  | append_singleton l x ih =>
    rw [bucketsOf, List.foldl_concat, ← bucketsOf, addToBucket, List.filter_append]
    by_cases hx : key x = some k
    · have hone : [x].filter (fun x => key x = some k) = [x] := by simp [hx]
      rw [hx, hone, if_neg (List.append_ne_nil_of_right_ne_nil _ (List.cons_ne_nil x []))]
      simp only [Finmap.lookup_insert, ih]
      split
      next hnone => rw [hnone, Option.getD_none]
      next => rw [Option.getD_some]
    · have hone : [x].filter (fun x => key x = some k) = [] := by simp [hx]
      rw [hone, List.append_nil, ← ih]
      cases hk : key x with
      | none => rfl
      | some k' =>
        have hne : k ≠ k' := by
          rintro rfl
          exact hx hk
        exact Finmap.lookup_insert_of_ne _ hne

theorem lookup_getD_bucketsOf (l : List μ) (k : κ) :
    ((bucketsOf key l).lookup k).getD [] = l.filter fun x => key x = some k := by
  rw [lookup_bucketsOf]
  split
  next h => rw [h, Option.getD_none]
  next => rw [Option.getD_some]

theorem bind_lookup_bucketsOf (l : List μ) (k : Option κ) :
    (k.bind (bucketsOf key l).lookup).getD [] =
      l.filter fun x => k.isSome && decide (key x = k) := by
  cases k with
  | none => simp
  | some k =>
    rw [Option.bind_some, lookup_getD_bucketsOf]
    rfl

end

theorem map_fst_filter_zipIdx (l : List α) (p : α → Bool) :
    (l.zipIdx.filter fun x => p x.1).map Prod.fst = l.filter p := by
  conv_rhs => rw [← List.zipIdx_map_fst 0 l, List.filter_map]
  rfl

theorem eq_of_mem_zipIdx {x y : α × ℕ} (hx : x ∈ l.zipIdx) (hy : y ∈ l.zipIdx) (h : x.2 = y.2) :
    x = y := by
  have hget : some x.1 = some y.1 := by
    rw [← List.mk_mem_zipIdx_iff_getElem?.mp hx, ← List.mk_mem_zipIdx_iff_getElem?.mp hy, h]
  exact Prod.ext (Option.some.inj hget) h

end Joins
