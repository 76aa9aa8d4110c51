import Mathlib.Tactic.Common

/-!
# Loops

A loop takes turns until one of them ends it with an answer. It is run for a number of turns at
most; a measure that every turn lowers says how many are enough, and what a turn keeps of the answer
the whole loop keeps.
-/

namespace Loop

variable {σ τ ε : Type*}

/-- The answer of a loop that ends within so many turns. -/
def run (turn : σ → ε ⊕ σ) : ℕ → σ → Option ε
  | 0, _ => none
  | n + 1, s =>
    match turn s with
    | .inl answer => some answer
    | .inr s' => run turn n s'

variable {turn : σ → ε ⊕ σ} {s s' : σ} {answer : ε} {n : ℕ}

theorem run_of_inl (h : turn s = .inl answer) : run turn (n + 1) s = some answer := by
  rw [run, h]

theorem run_of_inr (h : turn s = .inr s') : run turn (n + 1) s = run turn n s' := by
  rw [run, h]

section

variable {inv : σ → Prop} {answers : σ → ε → Prop}

/-- The answer of a loop is right when that of the last turn is, and every turn leaves the question
as it was. -/
theorem answers_of_run (hinv : ∀ s s', inv s → turn s = .inr s' → inv s')
    (hlast : ∀ s e, inv s → turn s = .inl e → answers s e)
    (hturn : ∀ s s' e, inv s → turn s = .inr s' → answers s' e → answers s e) (hs : inv s)
    (h : run turn n s = some answer) : answers s answer := by
  induction n generalizing s with
  | zero => exact nomatch h
  | succ n ih =>
    cases hnext : turn s with
    | inl e =>
      rw [run_of_inl hnext] at h
      exact Option.some.inj h ▸ hlast s e hs hnext
    | inr s' =>
      rw [run_of_inr hnext] at h
      exact hturn s s' answer hs hnext (ih (hinv s s' hs hnext) h)

theorem exists_run {measure : σ → ℕ} (hinv : ∀ s s', inv s → turn s = .inr s' → inv s')
    (hlower : ∀ s s', inv s → turn s = .inr s' → measure s' < measure s) (hs : inv s)
    (hn : measure s < n) : ∃ answer, run turn n s = some answer := by
  induction n generalizing s with
  | zero => exact absurd hn (Nat.not_lt_zero _)
  | succ n ih =>
    cases hnext : turn s with
    | inl e => exact ⟨e, run_of_inl hnext⟩
    | inr s' =>
      rw [run_of_inr hnext]
      exact ih (hinv s s' hs hnext) (by have := hlower s s' hs hnext; omega)

end

theorem run_map {turn' : τ → ε ⊕ τ} {f : σ → τ} (h : ∀ s, turn' (f s) = (turn s).map id f) (n : ℕ)
    (s : σ) : run turn' n (f s) = run turn n s := by
  induction n generalizing s with
  | zero => rfl
  | succ n ih =>
    rw [run, run, h]
    cases turn s with
    | inl e => rfl
    | inr s' => exact ih s'

end Loop
