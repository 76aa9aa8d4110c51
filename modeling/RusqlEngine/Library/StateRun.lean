import Mathlib.Logic.Function.Basic

/-!
# Runs that pass a state on

A computation that reads and writes a state and may not come to an end is a function from states
to an optional result with the state behind it. What every step keeps, a sequence keeps.
-/

namespace StateRun

variable {σ α β : Type}

theorem bind_eq_some {m : StateT σ Option α} {f : α → StateT σ Option β} {s s' : σ} {b : β}
    (h : (m >>= f) s = some (b, s')) : ∃ a t, m s = some (a, t) ∧ f a t = some (b, s') := by
  have hbind : (m >>= f) s = (m s).bind fun p => f p.1 p.2 := rfl
  rw [hbind, Option.bind_eq_some_iff] at h
  obtain ⟨⟨a, t⟩, hm, hf⟩ := h
  exact ⟨a, t, hm, hf⟩

theorem pure_eq_some {a a' : α} {s s' : σ}
    (h : (pure a : StateT σ Option α) s = some (a', s')) : a' = a ∧ s' = s := by
  cases h
  exact ⟨rfl, rfl⟩

end StateRun
