import Mathlib.Data.Finset.Basic
import Mathlib.Data.List.AList

/-!
# Maps that give up their oldest entry

A store is a map whose entries are listed in some order. Every entry bears a stamp, and the entry
with the smallest stamp is the one that makes room for another.
-/

namespace Eviction

abbrev Store (κ α : Type*) := AList fun _ : κ => α

/-- The entry found so far, or one with a smaller stamp. -/
def older {κ : Type*} (best : Option (κ × ℕ)) (e : κ × ℕ) : Option (κ × ℕ) :=
  match best with
  | none => some e
  | some b => if e.2 < b.2 then some e else some b

def oldest {κ : Type*} (stamps : List (κ × ℕ)) : Option κ :=
  (stamps.foldl older none).map Prod.fst

theorem foldl_older {κ : Type*} : ∀ (stamps : List (κ × ℕ)) (b : κ × ℕ),
    ∃ e ∈ b :: stamps, stamps.foldl older (some b) = some e ∧ ∀ x ∈ b :: stamps, e.2 ≤ x.2
  | [], b => ⟨b, List.mem_singleton_self b, rfl, by simp⟩
  | x :: stamps, b => by
      by_cases hlt : x.2 < b.2
      · obtain ⟨e, he, hfold, hmin⟩ := foldl_older stamps x
        refine ⟨e, List.mem_cons_of_mem b he, by rw [List.foldl_cons, older, if_pos hlt, hfold], ?_⟩
        have hx : e.2 ≤ x.2 := hmin x List.mem_cons_self
        intro y hy
        rcases List.mem_cons.mp hy with rfl | hy
        · exact hx.trans hlt.le
        · exact hmin y hy
      · obtain ⟨e, he, hfold, hmin⟩ := foldl_older stamps b
        have hb : e.2 ≤ b.2 := hmin b List.mem_cons_self
        refine ⟨e, ?_, by rw [List.foldl_cons, older, if_neg hlt, hfold], ?_⟩
        · rcases List.mem_cons.mp he with rfl | he
          · exact List.mem_cons_self
          · exact List.mem_cons_of_mem b (List.mem_cons_of_mem x he)
        · intro y hy
          rcases List.mem_cons.mp hy with rfl | hy
          · exact hb
          · rcases List.mem_cons.mp hy with rfl | hy
            · omega
            · exact hmin y (List.mem_cons_of_mem b hy)

theorem exists_oldest {κ : Type*} {stamps : List (κ × ℕ)} (h : stamps ≠ []) :
    ∃ e ∈ stamps, oldest stamps = some e.1 ∧ ∀ x ∈ stamps, e.2 ≤ x.2 := by
  cases stamps with
  | nil => exact absurd rfl h
  | cons b stamps =>
    obtain ⟨e, he, hfold, hmin⟩ := foldl_older stamps b
    exact ⟨e, he, by rw [oldest, List.foldl_cons, older, hfold, Option.map_some], hmin⟩

section

variable {κ : Type*}

def stamps (m : Store κ ℕ) : List (κ × ℕ) :=
  m.entries.map fun e => (e.1, e.2)

theorem stamps_eq_nil {m : Store κ ℕ} : stamps m = [] ↔ m.keys = [] := by
  rw [stamps, List.map_eq_nil_iff, AList.keys, List.keys, List.map_eq_nil_iff]

theorem mem_of_mem_stamps {m : Store κ ℕ} {e : κ × ℕ} (h : e ∈ stamps m) : e.1 ∈ m := by
  obtain ⟨⟨k, n⟩, hmem, rfl⟩ := List.mem_map.mp h
  exact AList.mem_keys.mpr (List.mem_map.mpr ⟨⟨k, n⟩, hmem, rfl⟩)

end

section

variable {κ α β : Type*} [DecidableEq κ]

def size (m : Store κ α) : ℕ :=
  m.keys.length

/-- The map without the entries of a set of keys. -/
def eraseAll (ks : Finset κ) (m : Store κ α) : Store κ α where
  entries := m.entries.filter fun e => e.1 ∉ ks
  nodupKeys := m.nodupKeys.sublist List.filter_sublist

def SameKeys (m : Store κ α) (m' : Store κ β) : Prop :=
  ∀ k, k ∈ m ↔ k ∈ m'

variable {m : Store κ α} {m' : Store κ β} {k j : κ} {ks : Finset κ}

theorem lookup_eraseAll : (eraseAll ks m).lookup k = if k ∈ ks then none else m.lookup k := by
  refine Option.ext fun v => ?_
  have hmem : v ∈ (eraseAll ks m).lookup k ↔ v ∈ m.lookup k ∧ k ∉ ks := by
    rw [AList.mem_lookup_iff, AList.mem_lookup_iff]
    simp only [eraseAll, List.mem_filter, decide_eq_true_eq]
  rw [← Option.mem_def, hmem]
  split_ifs with hk
  · simp [hk]
  · simp [hk]

theorem mem_eraseAll : k ∈ eraseAll ks m ↔ k ∈ m ∧ k ∉ ks := by
  rw [← AList.lookup_isSome, lookup_eraseAll, ← AList.lookup_isSome]
  split_ifs with hk
  · simp [hk]
  · simp [hk]

theorem size_eraseAll_le : size (eraseAll ks m) ≤ size m :=
  (List.filter_sublist.map Sigma.fst).length_le

theorem size_erase (h : k ∈ m) : size (m.erase k) + 1 = size m := by
  rw [size, AList.keys_erase, List.length_erase_of_mem (AList.mem_keys.mp h), size]
  exact Nat.sub_add_cancel (List.length_pos_of_mem (AList.mem_keys.mp h))

theorem size_erase_le : size (m.erase k) ≤ size m := by
  rw [size, AList.keys_erase]
  exact List.length_erase_le

theorem size_insert {v : α} (h : k ∉ m) : size (m.insert k v) = size m + 1 := by
  rw [size, AList.keys_insert, List.erase_of_not_mem (mt AList.mem_keys.mpr h), List.length_cons,
    size]

theorem lookup_erase_eq_some {v : α} (h : (m.erase k).lookup j = some v) :
    m.lookup j = some v ∧ j ≠ k := by
  by_cases hj : j = k
  · subst hj
    rw [AList.lookup_erase] at h
    cases h
  · exact ⟨(AList.lookup_erase_ne hj).symm.trans h, hj⟩

theorem SameKeys.erase (h : SameKeys m m') (k : κ) : SameKeys (m.erase k) (m'.erase k) := by
  intro j
  rw [AList.mem_erase, AList.mem_erase, h j]

theorem SameKeys.insert (h : SameKeys m m') (k : κ) (v : α) (w : β) :
    SameKeys (m.insert k v) (m'.insert k w) := by
  intro j
  rw [AList.mem_insert, AList.mem_insert, h j]

theorem SameKeys.eraseAll (h : SameKeys m m') (ks : Finset κ) :
    SameKeys (eraseAll ks m) (Eviction.eraseAll ks m') := by
  intro j
  rw [mem_eraseAll, mem_eraseAll, h j]

end

end Eviction
