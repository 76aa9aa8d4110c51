import Mathlib.Data.Finmap
import Mathlib.Data.List.Sort

/-!
# Maps whose entries move to other keys

Entries of a finite map are taken out and put back under the keys a function gives them. An entry
that is already there is not replaced. What is no key that moves and no key that is moved to stays
as it is, and an entry that is there and does not move stays in any case.
-/

namespace KeyMap

open Finmap

variable {κ α : Type} [DecidableEq κ]

def emplace (m : Finmap fun _ : κ => α) (k : κ) (v : α) : Finmap fun _ : κ => α :=
  if k ∈ m then m else m.insert k v

/-- The entry of `k`, changed by `g`, under `f k`. -/
def moveKey (f : κ → κ) (g : α → α) (m : Finmap fun _ : κ => α) (k : κ) :
    Finmap fun _ : κ => α :=
  match m.lookup k with
  | none => m
  | some v => emplace (m.erase k) (f k) (g v)

def moveKeys (f : κ → κ) (g : α → α) (keys : List κ) (m : Finmap fun _ : κ => α) :
    Finmap fun _ : κ => α :=
  keys.foldl (moveKey f g) m

def eraseAll (keys : List κ) (m : Finmap fun _ : κ => α) : Finmap fun _ : κ => α :=
  keys.foldl (fun m k => m.erase k) m

/-- The members of a finite set in order, computed by insertion. -/
def sortedList {β : Type} [LinearOrder β] (s : Finset β) : List β :=
  Quotient.liftOn s.val (List.insertionSort (· ≤ ·)) fun l l' h =>
    List.Perm.eq_of_pairwise' (List.pairwise_insertionSort _ l) (List.pairwise_insertionSort _ l')
      (((List.perm_insertionSort _ l).trans h).trans (List.perm_insertionSort _ l').symm)

theorem mem_sortedList {β : Type} [LinearOrder β] {s : Finset β} {x : β} :
    x ∈ sortedList s ↔ x ∈ s := by
  obtain ⟨⟨l⟩, hl⟩ := s
  exact (List.perm_insertionSort _ l).mem_iff

variable {f : κ → κ} {g : α → α} {keys : List κ} {m : Finmap fun _ : κ => α} {j k : κ} {v : α}

theorem lookup_emplace : (emplace m k v).lookup j =
    (m.lookup j).or (if j = k then some v else none) := by
  rw [emplace]
  split_ifs with hk hj hj
  · subst hj
    obtain ⟨w, hw⟩ := mem_iff.mp hk
    rw [hw, Option.some_or]
  · rw [Option.or_none]
  · subst hj
    rw [lookup_insert, lookup_eq_none.mpr hk, Option.none_or]
  · rw [lookup_insert_of_ne _ hj, Option.or_none]

theorem lookup_moveKey_of_ne (hjk : j ≠ k) (hfk : f k ≠ j ∨ j ∈ m) :
    (moveKey f g m k).lookup j = m.lookup j := by
  rw [moveKey]
  cases hk : m.lookup k with
  | none => rfl
  | some v =>
    simp only [lookup_emplace, lookup_erase_ne hjk]
    rcases hfk with hne | hmem
    · rw [if_neg (Ne.symm hne), Option.or_none]
    · obtain ⟨w, hw⟩ := mem_iff.mp hmem
      rw [hw, Option.some_or]

theorem lookup_moveKeys (hkeys : j ∉ keys) (hf : (∀ k ∈ keys, f k ≠ j) ∨ j ∈ m) :
    (moveKeys f g keys m).lookup j = m.lookup j := by
  induction keys generalizing m with
  | nil => rfl
  | cons k keys ih =>
    rw [List.mem_cons, not_or] at hkeys
    have hstep : (moveKey f g m k).lookup j = m.lookup j :=
      lookup_moveKey_of_ne hkeys.1 (hf.imp_left fun h => h k List.mem_cons_self)
    rw [moveKeys, List.foldl_cons]
    refine (ih hkeys.2 (hf.imp (fun h x hx => h x (.tail _ hx)) fun h => ?_)).trans hstep
    rw [← lookup_isSome, hstep, lookup_isSome]
    exact h

theorem mem_moveKey (h : j ∈ moveKey f g m k) : (j ∈ m ∧ j ≠ k) ∨ f k = j := by
  rw [← lookup_isSome, moveKey] at h
  cases hk : m.lookup k with
  | none =>
    rw [hk] at h
    refine .inl ⟨lookup_isSome.mp h, ?_⟩
    rintro rfl
    rw [hk] at h
    cases h
  | some v =>
    simp only [hk, lookup_emplace] at h
    by_cases hj : j = f k
    · exact .inr hj.symm
    · rw [if_neg hj, Option.or_none, lookup_isSome, mem_erase] at h
      exact .inl ⟨h.2, h.1⟩

theorem mem_moveKeys (h : j ∈ moveKeys f g keys m) : (j ∈ m ∧ j ∉ keys) ∨ ∃ k ∈ keys, f k = j := by
  induction keys generalizing m with
  | nil => exact .inl ⟨h, by simp⟩
  | cons k keys ih =>
    rcases ih h with ⟨hj, hkeys⟩ | ⟨k', hk', hfk⟩
    · rcases mem_moveKey hj with ⟨hm, hne⟩ | hf
      · exact .inl ⟨hm, by simp [hne, hkeys]⟩
      · exact .inr ⟨k, List.mem_cons_self, hf⟩
    · exact .inr ⟨k', List.mem_cons_of_mem _ hk', hfk⟩

theorem lookup_moveKeys_eq_some (h : (moveKeys f g keys m).lookup j = some v) :
    m.lookup j = some v ∨ ∃ w, v = g w := by
  induction keys generalizing m with
  | nil => exact .inl h
  | cons k keys ih =>
    rcases ih h with hstep | hg
    · rw [moveKey] at hstep
      cases hk : m.lookup k with
      | none =>
        rw [hk] at hstep
        exact .inl hstep
      | some w =>
        simp only [hk, lookup_emplace] at hstep
        rcases Option.or_eq_some_iff.mp hstep with hold | ⟨-, hnew⟩
        · by_cases hj : j = k
          · rw [hj, lookup_erase] at hold
            cases hold
          · rw [lookup_erase_ne hj] at hold
            exact .inl hold
        · split_ifs at hnew
          exact .inr ⟨w, (Option.some.inj hnew).symm⟩
    · exact .inr hg

theorem lookup_eraseAll : (eraseAll keys m).lookup j = if j ∈ keys then none else m.lookup j := by
  induction keys generalizing m with
  | nil => rfl
  | cons k keys ih =>
    rw [eraseAll, List.foldl_cons]
    refine (ih (m := m.erase k)).trans ?_
    by_cases hj : j = k
    · subst hj
      rw [lookup_erase]
      simp
    · rw [lookup_erase_ne hj]
      simp [hj]

end KeyMap
