import Mathlib.Data.List.TakeWhile
import Mathlib.Tactic.Common

/-!
# Bisection

`partitionPoint p xs` halves the list until it finds where `p` stops to hold. On a list that is
split by `p` the answer is where it is split; on any other list it is some position.
-/

namespace Bisect

/-- The loop over the `len` positions from `first` on. -/
def bisect (p : ℕ → Bool) (first len : ℕ) : ℕ :=
  if len = 0 then first
  else if p (first + len / 2) then bisect p (first + len / 2 + 1) (len - len / 2 - 1)
  else bisect p first (len / 2)
termination_by len

def partitionPoint {α : Type*} (p : α → Bool) (xs : List α) : ℕ :=
  bisect (fun i => (xs[i]?).any p) 0 xs.length

theorem bisect_eq {p : ℕ → Bool} {border : ℕ} (first len : ℕ) (hfirst : first ≤ border)
    (hlast : border ≤ first + len) (hp : ∀ i < first + len, p i = decide (i < border)) :
    bisect p first len = border := by
  induction first, len using bisect.induct p with
  | case1 first =>
    rw [bisect, if_pos rfl]
    omega
  | case2 first len hlen hmid ih =>
    rw [bisect, if_neg hlen, if_pos hmid]
    have hbefore : first + len / 2 < border := by
      simpa [hp (first + len / 2) (by omega)] using hmid
    exact ih (by omega) (by omega) fun i hi => hp i (by omega)
  | case3 first len hlen hmid ih =>
    rw [bisect, if_neg hlen, if_neg hmid]
    have hafter : ¬ first + len / 2 < border := by
      simpa [hp (first + len / 2) (by omega)] using hmid
    exact ih hfirst (by omega) fun i hi => hp i (by omega)

variable {α : Type*} {p : α → Bool} {front back : List α}

theorem partitionPoint_append (hfront : ∀ x ∈ front, p x) (hback : ∀ x ∈ back, p x = false) :
    partitionPoint p (front ++ back) = front.length := by
  apply bisect_eq
  · exact Nat.zero_le _
  · simp
  · intro i hi
    rw [Nat.zero_add] at hi
    by_cases hlt : i < front.length
    · rw [List.getElem?_append_left hlt, List.getElem?_eq_getElem hlt]
      simp [hlt, hfront]
    · have hle : front.length ≤ i := Nat.le_of_not_lt hlt
      have hin : i - front.length < back.length := by
        rw [List.length_append] at hi
        omega
      rw [List.getElem?_append_right hle, List.getElem?_eq_getElem hin]
      simp [hlt, hback]

/-- A list that a relation orders is split by what holds of each element before one that it
holds of. -/
theorem exists_split {r : α → α → Prop} (hp : ∀ x y, r x y → p y → p x) :
    ∀ {xs : List α}, xs.Pairwise r → ∃ front back, xs = front ++ back ∧
      (∀ x ∈ front, p x) ∧ ∀ x ∈ back, p x = false
  | [], _ => ⟨[], [], rfl, nofun, nofun⟩
  | x :: xs, h => by
      obtain ⟨hx, hxs⟩ := List.pairwise_cons.mp h
      by_cases hpx : p x = true
      · obtain ⟨front, back, rfl, hfront, hback⟩ := exists_split hp hxs
        exact ⟨x :: front, back, rfl, List.forall_mem_cons.mpr ⟨hpx, hfront⟩, hback⟩
      · refine ⟨[], x :: xs, rfl, nofun, List.forall_mem_cons.mpr ⟨by simpa using hpx, ?_⟩⟩
        intro y hy
        by_contra hpy
        exact hpx (hp x y (hx y hy) (by simpa using hpy))

end Bisect
