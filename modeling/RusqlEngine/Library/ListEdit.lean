import Mathlib.Data.List.Basic

/-!
# Edits of a list at the border of two parts

A position is given as the length of what stands before it, so that an edit of an append is read
off without arithmetic.
-/

namespace ListEdit

variable {α : Type*} (front back : List α) (w x y : α)

theorem getElem?_length : (front ++ x :: back)[front.length]? = some x := by
  rw [List.getElem?_append_right (Nat.le_refl _), Nat.sub_self, List.getElem?_cons_zero]

theorem getElem?_length_succ : (front ++ w :: x :: back)[front.length + 1]? = some x := by
  rw [List.getElem?_append_right (Nat.le_add_right _ 1), Nat.add_sub_cancel_left,
    List.getElem?_cons_succ, List.getElem?_cons_zero]

theorem set_length : (front ++ x :: back).set front.length y = front ++ y :: back := by
  rw [List.set_append_right front.length y (Nat.le_refl _), Nat.sub_self, List.set_cons_zero]

theorem set_length_succ :
    (front ++ w :: x :: back).set (front.length + 1) y = front ++ w :: y :: back := by
  rw [List.set_append_right (front.length + 1) y (Nat.le_add_right _ 1), Nat.add_sub_cancel_left,
    List.set_cons_succ, List.set_cons_zero]

theorem insertIdx_length : (front ++ back).insertIdx front.length x = front ++ x :: back := by
  induction front with
  | nil => rfl
  | cons y front ih =>
    rw [List.cons_append, List.length_cons, List.insertIdx_succ_cons, ih, List.cons_append]

theorem insertIdx_length_succ :
    (front ++ w :: back).insertIdx (front.length + 1) x = front ++ w :: x :: back := by
  induction front with
  | nil => rfl
  | cons y front ih =>
    rw [List.cons_append, List.length_cons, List.insertIdx_succ_cons, ih, List.cons_append]

theorem eraseIdx_length : (front ++ x :: back).eraseIdx front.length = front ++ back := by
  rw [List.eraseIdx_append_of_length_le (Nat.le_refl _), Nat.sub_self, List.eraseIdx_cons_zero]

theorem eraseIdx_length_succ :
    (front ++ w :: x :: back).eraseIdx (front.length + 1) = front ++ w :: back := by
  rw [List.eraseIdx_append_of_length_le (Nat.le_add_right _ 1), Nat.add_sub_cancel_left,
    List.eraseIdx_cons_succ, List.eraseIdx_cons_zero]

theorem findIdx?_length {p : α → Bool} (hfront : ∀ y ∈ front, p y = false) (hx : p x) :
    (front ++ x :: back).findIdx? p = some front.length := by
  rw [List.findIdx?_append, List.findIdx?_eq_none_iff.mpr hfront, List.findIdx?_cons, if_pos hx]
  exact congrArg some (Nat.zero_add _)

theorem getLast?_cons_or (first : α) (rest : List α) (otherwise : Option α) :
    (first :: rest).getLast?.or otherwise = rest.getLast?.or (some first) := by
  cases rest with
  | nil => rfl
  | cons second rest =>
    rw [List.getLast?_cons_cons, List.getLast?_cons]
    rfl

theorem exists_concat {xs : List α} (h : 0 < xs.length) : ∃ front last, xs = front ++ [last] := by
  rcases List.eq_nil_or_concat xs with rfl | ⟨front, last, rfl⟩
  · exact absurd h (Nat.lt_irrefl 0)
  · exact ⟨front, last, List.concat_eq_append⟩

/-- What stands before the first element without the property, and what stands after it, are read
off the list. -/
theorem append_cons_inj_of_forall {p : α → Prop} {xs ys rest rest' : List α} {x y : α}
    (hxs : ∀ a ∈ xs, p a) (hys : ∀ a ∈ ys, p a) (hx : ¬ p x) (hy : ¬ p y)
    (h : xs ++ x :: rest = ys ++ y :: rest') : xs = ys ∧ x = y ∧ rest = rest' := by
  induction xs generalizing ys with
  | nil =>
    cases ys with
    | nil => exact ⟨rfl, List.cons.inj h⟩
    | cons d ys => exact absurd ((List.cons.inj h).1 ▸ hys d List.mem_cons_self) hx
  | cons c xs ih =>
    cases ys with
    | nil => exact absurd ((List.cons.inj h).1 ▸ hxs c List.mem_cons_self) hy
    | cons d ys =>
      obtain ⟨rfl, htail⟩ := List.cons.inj h
      obtain ⟨rfl, hend⟩ := ih (fun b hb => hxs b (.tail _ hb))
        (fun b hb => hys b (.tail _ hb)) htail
      exact ⟨rfl, hend⟩

end ListEdit
