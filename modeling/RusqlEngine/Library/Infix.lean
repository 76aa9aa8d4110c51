import Mathlib.Data.List.Infix

/-!
# Words inside a longer text

Where a word stands in a text that was put together from pieces: a character that the word does
not have cannot stand inside it, and a piece none of whose characters begins (or ends) the word
can be left off in front (or behind).
-/

namespace Infix

variable {α : Type*} {w l₁ l₂ : List α} {x : α}

theorem prefix_of_notMem (hx : x ∉ w) (h : w <+: l₁ ++ x :: l₂) : w <+: l₁ := by
  induction l₁ generalizing w with
  | nil =>
    cases w with
    | nil => exact List.nil_prefix
    | cons y w =>
      obtain ⟨rfl, -⟩ := List.cons_prefix_cons.mp h
      exact absurd List.mem_cons_self hx
  | cons a l₁ ih =>
    cases w with
    | nil => exact List.nil_prefix
    | cons y w =>
      obtain ⟨rfl, htail⟩ := List.cons_prefix_cons.mp h
      exact List.cons_prefix_cons.mpr ⟨rfl, ih (fun hw => hx (.tail _ hw)) htail⟩

theorem infix_or_of_notMem (hx : x ∉ w) (h : w <:+: l₁ ++ x :: l₂) : w <:+: l₁ ∨ w <:+: l₂ := by
  induction l₁ with
  | nil =>
    rcases List.infix_cons_iff.mp h with hpre | hrest
    · exact .inl (prefix_of_notMem hx (show w <+: [] ++ x :: l₂ from hpre)).isInfix
    · exact .inr hrest
  | cons a l₁ ih =>
    rcases List.infix_cons_iff.mp h with hpre | hrest
    · exact .inl (prefix_of_notMem hx (show w <+: (a :: l₁) ++ x :: l₂ from hpre)).isInfix
    · exact (ih hrest).imp_left fun hin => hin.trans (List.suffix_cons a l₁).isInfix

theorem infix_of_skip_left (hw : w ≠ []) (hskip : ∀ c ∈ l₁, w.head? ≠ some c)
    (h : w <:+: l₁ ++ l₂) : w <:+: l₂ := by
  induction l₁ with
  | nil => exact h
  | cons a l₁ ih =>
    rcases List.infix_cons_iff.mp h with hpre | hrest
    · cases w with
      | nil => exact absurd rfl hw
      | cons y w =>
        obtain ⟨rfl, -⟩ := List.cons_prefix_cons.mp hpre
        exact absurd rfl (hskip y List.mem_cons_self)
    · exact ih (fun c hc => hskip c (.tail _ hc)) hrest

theorem infix_of_skip_right (hw : w ≠ []) (hskip : ∀ c ∈ l₂, w.getLast? ≠ some c)
    (h : w <:+: l₁ ++ l₂) : w <:+: l₁ := by
  rw [← List.reverse_infix, List.reverse_append] at h
  rw [← List.reverse_infix]
  refine infix_of_skip_left (by simpa using hw) (fun c hc => ?_) h
  rw [List.head?_reverse]
  exact hskip c (List.mem_reverse.mp hc)

end Infix
