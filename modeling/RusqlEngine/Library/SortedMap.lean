import Mathlib.Data.List.Basic
import Mathlib.Data.List.Pairwise

/-!
# Sorted lists as maps

Entries in strictly ascending order of their keys, under a comparison that is a total preorder:
keys that compare equal are one key. An insertion of a key that is there replaces the value and
keeps the key as it was first written. Each operation is local: entries that all lie below or
above the key are not touched.
-/

namespace SortedMap

open Std OrientedCmp

variable {κ ν : Type*} (cmp : κ → κ → Ordering)

def Sorted (m : List (κ × ν)) : Prop :=
  m.Pairwise fun a b => cmp a.1 b.1 = .lt

def find (k : κ) (m : List (κ × ν)) : Option (κ × ν) :=
  m.find? fun e => cmp e.1 k = .eq

def insert (k : κ) (v : ν) : List (κ × ν) → List (κ × ν)
  | [] => [(k, v)]
  | e :: m =>
    match cmp e.1 k with
    | .lt => e :: insert k v m
    | .eq => (e.1, v) :: m
    | .gt => (k, v) :: e :: m

def erase (k : κ) (m : List (κ × ν)) : List (κ × ν) :=
  m.filter fun e => cmp e.1 k ≠ .eq

def AllBelow (m : List (κ × ν)) (k : κ) : Prop :=
  ∀ e ∈ m, cmp e.1 k = .lt

def AllAbove (m : List (κ × ν)) (k : κ) : Prop :=
  ∀ e ∈ m, cmp k e.1 = .lt

variable {cmp} {k k' : κ} {v : ν} {m l r : List (κ × ν)}

theorem sorted_append :
    Sorted cmp (l ++ r) ↔ Sorted cmp l ∧ Sorted cmp r ∧ ∀ a ∈ l, ∀ b ∈ r, cmp a.1 b.1 = .lt :=
  List.pairwise_append

variable {e : κ × ν}

theorem sorted_cons : Sorted cmp (e :: m) ↔ (∀ b ∈ m, cmp e.1 b.1 = .lt) ∧ Sorted cmp m :=
  List.pairwise_cons

theorem Sorted.filter (p : κ × ν → Bool) (h : Sorted cmp m) : Sorted cmp (m.filter p) :=
  List.Pairwise.filter p h

theorem Sorted.erase (h : Sorted cmp m) : Sorted cmp (erase cmp k m) :=
  h.filter _

theorem find_cons_of_eq (h : cmp e.1 k = .eq) : find cmp k (e :: m) = some e :=
  List.find?_cons_of_pos (decide_eq_true h)

theorem find_cons_of_ne (h : cmp e.1 k ≠ .eq) : find cmp k (e :: m) = find cmp k m :=
  List.find?_cons_of_neg (by simpa using h)

theorem find_eq_none (h : ∀ e ∈ m, cmp e.1 k ≠ .eq) : find cmp k m = none :=
  List.find?_eq_none.mpr fun e he => by simpa using h e he

section

theorem find_of_below (h : AllBelow cmp l k) : find cmp k (l ++ m) = find cmp k m := by
  have hnone : find cmp k l = none := find_eq_none fun e he => by simp [h e he]
  rw [find, List.find?_append]
  exact (congrArg (Option.or · _) hnone).trans (Option.none_or ..)

theorem insert_of_below (h : AllBelow cmp l k) :
    insert cmp k v (l ++ m) = l ++ insert cmp k v m := by
  induction l with
  | nil => rfl
  | cons e l ih =>
    have he : cmp e.1 k = .lt := h e List.mem_cons_self
    rw [List.cons_append, insert, he]
    exact congrArg (e :: ·) (ih fun x hx => h x (List.mem_cons_of_mem e hx))

theorem erase_append : erase cmp k (l ++ r) = erase cmp k l ++ erase cmp k r :=
  List.filter_append ..

theorem erase_eq_self (h : ∀ e ∈ m, cmp e.1 k ≠ .eq) : erase cmp k m = m :=
  List.filter_eq_self.mpr fun e he => decide_eq_true (h e he)

variable [OrientedCmp cmp]

theorem find_of_above (h : AllAbove cmp r k) : find cmp k (m ++ r) = find cmp k m := by
  have hnone : find cmp k r = none :=
    find_eq_none fun e he => by simp [gt_of_lt (h e he)]
  rw [find, List.find?_append]
  exact (congrArg _ hnone).trans (Option.or_none ..)

theorem insert_of_above (h : AllAbove cmp r k) :
    insert cmp k v (m ++ r) = insert cmp k v m ++ r := by
  induction m with
  | nil =>
    cases r with
    | nil => rfl
    | cons e r =>
      have he : cmp e.1 k = .gt := gt_of_lt (h e List.mem_cons_self)
      rw [List.nil_append, insert.eq_def]
      dsimp only
      rw [he]
      rfl
  | cons e m ih =>
    rw [List.cons_append, insert, insert]
    cases cmp e.1 k with
    | lt => exact congrArg (e :: ·) ih
    | eq => rfl
    | gt => rfl

omit [OrientedCmp cmp] in
theorem erase_of_below (h : AllBelow cmp l k) : erase cmp k l = l :=
  erase_eq_self fun e he => by simp [h e he]

theorem erase_of_above (h : AllAbove cmp r k) : erase cmp k r = r :=
  erase_eq_self fun e he => by simp [gt_of_lt (h e he)]

theorem insert_between (hl : AllBelow cmp l k) (hr : AllAbove cmp r k) :
    insert cmp k v (l ++ m ++ r) = l ++ insert cmp k v m ++ r := by
  rw [insert_of_above hr, insert_of_below hl]

theorem erase_between (hl : AllBelow cmp l k) (hr : AllAbove cmp r k) :
    erase cmp k (l ++ m ++ r) = l ++ erase cmp k m ++ r := by
  rw [erase_append, erase_append, erase_of_below hl, erase_of_above hr]

theorem find_between (hl : AllBelow cmp l k) (hr : AllAbove cmp r k) :
    find cmp k (l ++ m ++ r) = find cmp k m := by
  rw [find_of_above hr, find_of_below hl]

end

section

variable [TransCmp cmp]

theorem mem_insert (h : e ∈ insert cmp k v m) : cmp e.1 k = .eq ∨ e ∈ m := by
  induction m with
  | nil =>
    obtain rfl := List.mem_singleton.mp h
    exact .inl ReflCmp.compare_self
  | cons e' m ih =>
    rw [insert] at h
    split at h
    next =>
      rcases List.mem_cons.mp h with rfl | h
      · exact .inr List.mem_cons_self
      · exact (ih h).imp_right (List.mem_cons_of_mem e')
    next heq =>
      rcases List.mem_cons.mp h with rfl | h
      · exact .inl heq
      · exact .inr (List.mem_cons_of_mem e' h)
    next =>
      rcases List.mem_cons.mp h with rfl | h
      · exact .inl ReflCmp.compare_self
      · exact .inr h

theorem Sorted.insert (h : Sorted cmp m) : Sorted cmp (insert cmp k v m) := by
  induction m with
  | nil => exact List.pairwise_singleton ..
  | cons e m ih =>
    obtain ⟨hhead, htail⟩ := sorted_cons.mp h
    rw [SortedMap.insert]
    split
    next hlt =>
      refine sorted_cons.mpr ⟨fun b hb => ?_, ih htail⟩
      rcases mem_insert hb with heq | hb
      · exact TransCmp.lt_of_lt_of_eq hlt (eq_symm heq)
      · exact hhead b hb
    next => exact sorted_cons.mpr ⟨hhead, htail⟩
    next hgt =>
      have hlt : cmp k e.1 = .lt := lt_of_gt hgt
      refine sorted_cons.mpr ⟨fun b hb => ?_, h⟩
      rcases List.mem_cons.mp hb with rfl | hb
      · exact hlt
      · exact TransCmp.lt_trans hlt (hhead b hb)

theorem Sorted.find_eq_some_iff (h : Sorted cmp m) :
    find cmp k m = some e ↔ e ∈ m ∧ cmp e.1 k = .eq := by
  constructor
  · intro hfind
    exact ⟨List.mem_of_find?_eq_some hfind, by simpa using List.find?_some hfind⟩
  · rintro ⟨hmem, heq⟩
    obtain ⟨l, r, rfl⟩ := List.append_of_mem hmem
    obtain ⟨-, -, hcross⟩ := sorted_append.mp h
    have hbelow : AllBelow cmp l k := fun x hx =>
      TransCmp.lt_of_lt_of_eq (hcross x hx e List.mem_cons_self) heq
    rw [find_of_below hbelow, find, List.find?_cons_of_pos (by simpa using heq)]

theorem find_congr (h : cmp k k' = .eq) : find cmp k m = find cmp k' m := by
  refine congrArg (fun p => m.find? p) (funext fun e => ?_)
  rw [TransCmp.congr_right h]

theorem find_insert_self (h : Sorted cmp m) :
    find cmp k (insert cmp k v m) = some (((find cmp k m).map (·.1)).getD k, v) := by
  induction m with
  | nil => simp [find, insert, ReflCmp.compare_self]
  | cons e m ih =>
    obtain ⟨hhead, htail⟩ := sorted_cons.mp h
    rw [insert]
    split
    next hlt =>
      have hne : cmp e.1 k ≠ .eq := by simp [hlt]
      rw [find_cons_of_ne hne, find_cons_of_ne hne]
      exact ih htail
    next heq =>
      rw [find_cons_of_eq heq, find_cons_of_eq (e := (e.1, v)) heq]
      rfl
    next hgt =>
      have hnone : find cmp k (e :: m) = none := by
        refine find_eq_none fun b hb => ?_
        have hlt : cmp k e.1 = .lt := lt_of_gt hgt
        have hb : cmp k b.1 = .lt := by
          rcases List.mem_cons.mp hb with rfl | hb
          · exact hlt
          · exact TransCmp.lt_trans hlt (hhead b hb)
        simp [gt_of_lt hb]
      rw [hnone, find_cons_of_eq (e := (k, v)) ReflCmp.compare_self]
      rfl

theorem find_insert_of_ne (h : cmp k k' ≠ .eq) :
    find cmp k' (insert cmp k v m) = find cmp k' m := by
  induction m with
  | nil => simp [find, insert, h]
  | cons e m ih =>
    rw [insert]
    split
    next =>
      by_cases heq : cmp e.1 k' = .eq
      · rw [find_cons_of_eq heq, find_cons_of_eq heq]
      · rw [find_cons_of_ne heq, find_cons_of_ne heq, ih]
    next heq =>
      have hne : cmp e.1 k' ≠ .eq := by
        rw [TransCmp.congr_left heq]
        exact h
      rw [find_cons_of_ne (e := (e.1, v)) hne, find_cons_of_ne hne]
    next => exact find_cons_of_ne (e := (k, v)) h

theorem find_insert (h : Sorted cmp m) : find cmp k' (insert cmp k v m) =
    if cmp k k' = .eq then some (((find cmp k m).map (·.1)).getD k, v) else find cmp k' m := by
  split
  next heq => rw [← find_congr heq, find_insert_self h]
  next hne => exact find_insert_of_ne hne

theorem find_erase : find cmp k' (erase cmp k m) =
    if cmp k k' = .eq then none else find cmp k' m := by
  split
  next heq =>
    refine find_eq_none fun e he => ?_
    obtain ⟨-, hne⟩ := List.mem_filter.mp he
    rw [← TransCmp.congr_right heq]
    simpa using hne
  next hne =>
    induction m with
    | nil => rfl
    | cons e m ih =>
      rw [erase, List.filter_cons]
      split
      next =>
        by_cases heq : cmp e.1 k' = .eq
        · rw [find_cons_of_eq heq, find_cons_of_eq heq]
        · rw [find_cons_of_ne heq, find_cons_of_ne heq]
          exact ih
      next hgone =>
        have heq : cmp e.1 k = .eq := by simpa using hgone
        have hmiss : cmp e.1 k' ≠ .eq := by
          rw [TransCmp.congr_left heq]
          exact hne
        rw [find_cons_of_ne hmiss]
        exact ih

end

theorem insert_perm : ∀ {m : List (κ × ν)}, (∀ e ∈ m, cmp e.1 k ≠ .eq) →
    (insert cmp k v m).Perm ((k, v) :: m)
  | [], _ => List.Perm.refl _
  | e :: m, h => by
      rw [SortedMap.insert]
      split
      next =>
        have hrest : ∀ x ∈ m, cmp x.1 k ≠ .eq := fun x hx => h x (.tail _ hx)
        exact ((insert_perm hrest).cons e).trans (List.Perm.swap ..)
      next heq => exact absurd heq (h e List.mem_cons_self)
      next => exact List.Perm.refl _

theorem Sorted.erase_perm [TransCmp cmp] (h : Sorted cmp m) (he : e ∈ m) (hk : cmp e.1 k = .eq) :
    m.Perm (e :: SortedMap.erase cmp k m) := by
  obtain ⟨front, back, rfl⟩ := List.append_of_mem he
  obtain ⟨_, hback, hfront⟩ := sorted_append.mp h
  have hbelow : AllBelow cmp front k := fun x hx =>
    TransCmp.lt_of_lt_of_eq (hfront x hx e List.mem_cons_self) hk
  have habove : AllAbove cmp back k := fun x hx =>
    TransCmp.lt_of_eq_of_lt (eq_symm hk) ((sorted_cons.mp hback).1 x hx)
  have hdrop : SortedMap.erase cmp k (e :: back) = back := by
    rw [SortedMap.erase, List.filter_cons_of_neg (by simp [hk])]
    exact erase_of_above habove
  rw [erase_append, erase_of_below hbelow, hdrop]
  exact List.perm_middle

end SortedMap
