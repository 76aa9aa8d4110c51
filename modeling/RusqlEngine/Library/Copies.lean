import RusqlEngine.Library.RowList
import Mathlib.Data.List.Count

/-!
# Copies in a list

The elements of a list by their keys, with as many copies of each key as there are. A bound on the
copies keeps the first ones, in the order of the list; what it leaves behind are the later ones.
-/

namespace Copies

variable {α κ : Type*} [DecidableEq κ] {key : α → κ}

def copies (key : α → κ) (l : List α) (k : κ) : ℕ :=
  (l.map key).count k

def spend (bound : κ → ℕ) (k : κ) : κ → ℕ :=
  fun k' => if k' = k then bound k - 1 else bound k'

/-- The first copies of each key, as many as the bound has. -/
def firstCopies (key : α → κ) : (κ → ℕ) → List α → List α
  | _, [] => []
  | bound, x :: xs =>
    if 0 < bound (key x) then x :: firstCopies key (spend bound (key x)) xs
    else firstCopies key bound xs

/-- The copies behind the first ones. -/
def laterCopies (key : α → κ) : (κ → ℕ) → List α → List α
  | _, [] => []
  | bound, x :: xs =>
    if 0 < bound (key x) then laterCopies key (spend bound (key x)) xs
    else x :: laterCopies key bound xs

theorem copies_cons (x : α) (xs : List α) (k : κ) :
    copies key (x :: xs) k = copies key xs k + if k = key x then 1 else 0 := by
  rw [copies, copies, List.map_cons, List.count_cons]
  simp only [beq_iff_eq, eq_comm (a := key x)]

theorem copies_append (l l' : List α) (k : κ) :
    copies key (l ++ l') k = copies key l k + copies key l' k := by
  rw [copies, copies, copies, List.map_append, List.count_append]

theorem copies_map (l : List α) : copies id (l.map key) = copies key l :=
  funext fun k => by rw [copies, List.map_id, copies]

theorem copies_pos_iff {l : List α} {k : κ} : 0 < copies key l k ↔ k ∈ l.map key :=
  List.count_pos_iff

/-- As many copies are kept as there are, up to the bound. -/
theorem copies_firstCopies (k : κ) : ∀ (bound : κ → ℕ) (l : List α),
    copies key (firstCopies key bound l) k = min (bound k) (copies key l k)
  | bound, [] => (Nat.min_zero _).symm
  | bound, x :: xs => by
      rw [firstCopies, copies_cons]
      by_cases hx : 0 < bound (key x)
      · rw [if_pos hx, copies_cons, copies_firstCopies k]
        by_cases hk : k = key x
        · rw [if_pos hk, spend, if_pos hk, hk]
          omega
        · rw [if_neg hk, spend, if_neg hk]
          rfl
      · rw [if_neg hx, copies_firstCopies k]
        by_cases hk : k = key x
        · rw [hk]
          omega
        · rw [if_neg hk, Nat.add_zero]

theorem copies_laterCopies (k : κ) : ∀ (bound : κ → ℕ) (l : List α),
    copies key (laterCopies key bound l) k = copies key l k - bound k
  | bound, [] => (Nat.zero_sub _).symm
  | bound, x :: xs => by
      rw [laterCopies, copies_cons]
      by_cases hx : 0 < bound (key x)
      · rw [if_pos hx, copies_laterCopies k]
        by_cases hk : k = key x
        · rw [if_pos hk, spend, if_pos hk, hk]
          omega
        · rw [if_neg hk, spend, if_neg hk]
          rfl
      · rw [if_neg hx, copies_cons, copies_laterCopies k]
        by_cases hk : k = key x
        · rw [hk]
          omega
        · rw [if_neg hk, Nat.add_zero, Nat.add_zero]

theorem firstCopies_congr : ∀ {bound bound' : κ → ℕ} {l : List α},
    (∀ k, min (bound k) (copies key l k) = min (bound' k) (copies key l k)) →
      firstCopies key bound l = firstCopies key bound' l
  | _, _, [], _ => rfl
  | bound, bound', x :: xs, h => by
      have hx : 0 < bound (key x) ↔ 0 < bound' (key x) := by
        have := h (key x)
        rw [copies_cons, if_pos rfl] at this
        omega
      rw [firstCopies, firstCopies]
      by_cases hpos : 0 < bound (key x)
      · rw [if_pos hpos, if_pos (hx.mp hpos), firstCopies_congr]
        intro k
        have hk := h k
        rw [copies_cons] at hk
        rw [spend, spend]
        split_ifs at hk ⊢ with hkey
        · rw [hkey] at hk ⊢
          omega
        · exact hk
      · rw [if_neg hpos, if_neg (mt hx.mpr hpos), firstCopies_congr]
        intro k
        have hk := h k
        rw [copies_cons] at hk
        split_ifs at hk with hkey
        · rw [hkey]
          omega
        · exact hk

theorem firstCopies_eq_self : ∀ {bound : κ → ℕ} {l : List α},
    (∀ k, copies key l k ≤ bound k) → firstCopies key bound l = l
  | _, [], _ => rfl
  | bound, x :: xs, h => by
      have hx : 0 < bound (key x) := by
        have := h (key x)
        rw [copies_cons, if_pos rfl] at this
        omega
      rw [firstCopies, if_pos hx, firstCopies_eq_self]
      intro k
      have hk := h k
      rw [copies_cons] at hk
      rw [spend]
      split_ifs at hk ⊢ with hkey
      · rw [← hkey]
        omega
      · exact hk

/-- The first element of each key that has not been seen. -/
theorem firstOfEach_eq : ∀ (seen : List κ) (l : List α),
    RowList.firstOfEach key seen l = firstCopies key (fun k => if k ∈ seen then 0 else 1) l
  | _, [] => rfl
  | seen, x :: xs => by
      rw [RowList.firstOfEach, firstCopies]
      by_cases hx : key x ∈ seen
      · rw [if_pos hx, if_pos hx, if_neg (Nat.lt_irrefl 0), firstOfEach_eq]
      · have hspend : spend (fun k => if k ∈ seen then 0 else 1) (key x) =
            fun k => if k ∈ key x :: seen then 0 else 1 := by
          funext k
          rw [spend]
          by_cases hk : k = key x <;> simp [hk, hx]
        rw [if_neg hx, if_neg hx, if_pos Nat.one_pos, firstOfEach_eq, hspend]

end Copies
