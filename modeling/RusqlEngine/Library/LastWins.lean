import Mathlib.Data.List.Basic

/-!
# Sequences in which a later entry replaces an earlier one

`put same l x` removes from `l` what `x` replaces and appends `x`; of a sequence put in turn its
`survivors` are left. `greedy linked`, one pass from the end, leaves out an entry linked to one it
has kept; it gives the survivors exactly where every replaced entry is linked to a survivor
(`LinkedThrough`).
-/

namespace LastWins

variable {α : Type*} (same linked : α → α → Bool)

/-- `same y x`: the newer entry `x` replaces the entry `y`. -/
def put (l : List α) (x : α) : List α :=
  l.filter (fun y => !same y x) ++ [x]

def survivors : List α → List α
  | [] => []
  | x :: xs => if xs.any (same x) then survivors xs else x :: survivors xs

def greedy : List α → List α
  | [] => []
  | x :: xs => if (greedy xs).any (linked x) then greedy xs else x :: greedy xs

def LinkedThrough : List α → Prop
  | [] => True
  | x :: xs => xs.any (same x) = (survivors same xs).any (linked x) ∧ LinkedThrough xs

theorem foldl_put (xs l : List α) :
    xs.foldl (put same) l = l.filter (fun y => !xs.any (same y)) ++ survivors same xs := by
  induction xs generalizing l with
  | nil => simp [survivors]
  | cons x xs ih =>
    rw [List.foldl_cons, ih, put, List.filter_append, List.filter_filter, List.append_assoc]
    have hold : l.filter (fun y => !xs.any (same y) && !same y x) =
        l.filter fun y => !(x :: xs).any (same y) := by
      refine List.filter_congr fun y _ => ?_
      rw [List.any_cons, Bool.not_or, Bool.and_comm]
    rw [hold, survivors]
    cases hany : xs.any (same x) with
    | false => simp [hany]
    | true => simp [hany]

theorem survivors_map {β : Type*} (f : β → α) (xs : List β) :
    survivors same (xs.map f) = (survivors (fun x y => same (f x) (f y)) xs).map f := by
  induction xs with
  | nil => rfl
  | cons x xs ih =>
    have hany : (xs.map f).any (same (f x)) = xs.any fun y => same (f x) (f y) := by
      rw [List.any_map]
      rfl
    rw [List.map_cons, survivors, survivors, hany, ih]
    split <;> rfl

theorem greedy_sublist (xs : List α) : (greedy linked xs).Sublist xs := by
  induction xs with
  | nil => exact List.Sublist.refl _
  | cons x xs ih =>
    rw [greedy]
    split
    · exact ih.cons x
    · exact ih.cons_cons x

variable {same linked}

theorem greedy_eq_survivors {xs : List α} (h : LinkedThrough same linked xs) :
    greedy linked xs = survivors same xs := by
  induction xs with
  | nil => rfl
  | cons x xs ih =>
    rw [greedy, survivors, ih h.2, h.1]

theorem survivors_sublist_greedy {xs : List α} (hlink : ∀ x ∈ xs, ∀ y ∈ xs, linked x y → same x y) :
    (survivors same xs).Sublist (greedy linked xs) := by
  induction xs with
  | nil => exact List.Sublist.refl _
  | cons x xs ih =>
    have hsub := ih fun y hy z hz =>
      hlink y (.tail _ hy) z (.tail _ hz)
    rw [greedy, survivors]
    split
    · split
      · exact hsub
      · exact hsub.cons x
    · rename_i hkeep
      have hkept : (greedy linked xs).any (linked x) ≠ true := by
        intro hany
        obtain ⟨y, hy, hxy⟩ := List.any_eq_true.mp hany
        have hin : y ∈ xs := (greedy_sublist linked xs).subset hy
        exact hkeep (List.any_eq_true.mpr
          ⟨y, hin, hlink x List.mem_cons_self y (.tail _ hin) hxy⟩)
      rw [if_neg hkept]
      exact hsub.cons_cons x

theorem linkedThrough_of_greedy_eq {xs : List α} (hlink : ∀ x ∈ xs, ∀ y ∈ xs, linked x y → same x y)
    (h : greedy linked xs = survivors same xs) : LinkedThrough same linked xs := by
  induction xs with
  | nil => trivial
  | cons x xs ih =>
    have hrest : ∀ y ∈ xs, ∀ z ∈ xs, linked y z → same y z :=
      fun y hy z hz => hlink y (.tail _ hy) z (.tail _ hz)
    have hlen := (survivors_sublist_greedy hrest).length_le
    rw [greedy, survivors] at h
    cases hany : (greedy linked xs).any (linked x) <;> cases hsame : xs.any (same x) <;>
      simp only [hany, hsame, if_true, Bool.false_eq_true, if_false] at h
    · have heq := List.cons.inj h
      exact ⟨by rw [hsame, ← heq.2, hany], ih hrest heq.2⟩
    · have := congrArg List.length h
      simp only [List.length_cons] at this
      omega
    · obtain ⟨y, hy, hxy⟩ := List.any_eq_true.mp hany
      have hin : y ∈ xs := (greedy_sublist linked xs).subset hy
      have hreplaced : xs.any (same x) := List.any_eq_true.mpr
        ⟨y, hin, hlink x List.mem_cons_self y (.tail _ hin) hxy⟩
      rw [hsame] at hreplaced
      cases hreplaced
    · exact ⟨by rw [hsame, ← h, hany], ih hrest h⟩

end LastWins
