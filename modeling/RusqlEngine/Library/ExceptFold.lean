import Mathlib.Data.List.Basic

/-!
# Folds that may fail

A left fold in `Except` that succeeds has succeeded at every element, so an invariant that
every successful step keeps holds at the end.
-/

namespace ExceptFold

variable {ε α : Type*}

theorem bind_eq_ok_iff {ε α β : Type _} {x : Except ε α} {f : α → Except ε β} {b : β} :
    (x >>= f) = .ok b ↔ ∃ a, x = .ok a ∧ f a = .ok b := by
  constructor
  · intro h
    cases x with
    | error e => exact nomatch h
    | ok a => exact ⟨a, rfl, h⟩
  · rintro ⟨a, rfl, h⟩
    exact h

theorem mapError_eq_ok_iff {ε' : Type*} {x : Except ε α} {g : ε → ε'} {a : α} :
    x.mapError g = .ok a ↔ x = .ok a := by
  cases x <;> simp [Except.mapError]

theorem eq_ok_of_toOption {x : Except ε α} {a : α} (h : x.toOption = some a) : x = .ok a := by
  cases x with
  | error e => cases h
  | ok b => rw [Option.some.inj h]

theorem mapM_eq_ok {ε α β : Type _} {f : α → Except ε β} {g : α → β} {l : List α} {l' : List β}
    (hg : ∀ a ∈ l, ∀ b, f a = .ok b → b = g a) (h : l.mapM f = .ok l') :
    l' = l.map g ∧ ∀ a ∈ l, f a = .ok (g a) := by
  induction l generalizing l' with
  | nil =>
    rw [List.mapM_nil] at h
    cases h
    exact ⟨rfl, nofun⟩
  | cons a l ih =>
    rw [List.mapM_cons] at h
    obtain ⟨b, hb, h⟩ := bind_eq_ok_iff.mp h
    obtain ⟨rest, hrest, h⟩ := bind_eq_ok_iff.mp h
    cases h
    obtain ⟨rfl, hall⟩ := ih (fun a' ha' => hg a' (.tail _ ha')) hrest
    obtain rfl := hg a List.mem_cons_self b hb
    exact ⟨rfl, List.forall_mem_cons.mpr ⟨hb, hall⟩⟩

theorem length_mapM {ε α β : Type _} {f : α → Except ε β} {l : List α} {l' : List β}
    (h : l.mapM f = .ok l') : l.length = l'.length := by
  induction l generalizing l' with
  | nil =>
    rw [List.mapM_nil] at h
    cases h
    rfl
  | cons a l ih =>
    rw [List.mapM_cons] at h
    obtain ⟨b, hb, h⟩ := bind_eq_ok_iff.mp h
    obtain ⟨rest, hrest, h⟩ := bind_eq_ok_iff.mp h
    cases h
    rw [List.length_cons, List.length_cons, ih hrest]

theorem eq_ok_of_mem_zip {ε α β : Type _} {f : α → Except ε β} {l : List α} {l' : List β}
    (h : l.mapM f = .ok l') : ∀ p ∈ l.zip l', f p.1 = .ok p.2 := by
  induction l generalizing l' with
  | nil => simp
  | cons a l ih =>
    rw [List.mapM_cons] at h
    obtain ⟨b, hb, h⟩ := bind_eq_ok_iff.mp h
    obtain ⟨rest, hrest, h⟩ := bind_eq_ok_iff.mp h
    cases h
    exact List.forall_mem_cons.mpr ⟨hb, ih hrest⟩

variable {σ : Type*} {step : σ → α → Except ε σ}

theorem foldlM_invariant {P : σ → Prop} : ∀ {xs : List α} {s s' : σ},
    (∀ x ∈ xs, ∀ s s', P s → step s x = .ok s' → P s') → P s → xs.foldlM step s = .ok s' → P s'
  | [], s, s', _, hs, h => by
      obtain rfl : s = s' := Except.ok.inj h
      exact hs
  | x :: xs, s, s', hstep, hs, h => by
      rw [List.foldlM_cons] at h
      obtain ⟨t, hx, ht⟩ := bind_eq_ok_iff.mp h
      exact foldlM_invariant (fun y hy => hstep y (.tail _ hy))
        (hstep x List.mem_cons_self s t hs hx) ht

/-- What the step at one element establishes and the later ones keep holds at the end. -/
theorem foldlM_establishes {P Q : σ → Prop} {x : α} : ∀ {xs : List α} {s s' : σ}, x ∈ xs →
    (∀ y ∈ xs, ∀ s s', P s → step s y = .ok s' → P s') →
    (∀ s s', P s → step s x = .ok s' → Q s') →
    (∀ y ∈ xs, ∀ s s', P s → Q s → step s y = .ok s' → Q s') → P s →
    xs.foldlM step s = .ok s' → Q s'
  | [], _, _, hx, _, _, _, _, _ => (List.not_mem_nil hx).elim
  | y :: xs, s, s', hx, hstep, hgain, hkeep, hs, h => by
      rw [List.foldlM_cons] at h
      obtain ⟨t, hy, ht⟩ := bind_eq_ok_iff.mp h
      have hPt : P t := hstep y List.mem_cons_self s t hs hy
      have hstep' := fun z (hz : z ∈ xs) => hstep z (.tail _ hz)
      have hkeep' := fun z (hz : z ∈ xs) => hkeep z (.tail _ hz)
      rcases List.mem_cons.mp hx with rfl | hx
      · have hboth : P s' ∧ Q s' :=
          foldlM_invariant (P := fun s => P s ∧ Q s)
            (fun z hz s s' hPQ hz' =>
              ⟨hstep' z hz s s' hPQ.1 hz', hkeep' z hz s s' hPQ.1 hPQ.2 hz'⟩)
            ⟨hPt, hgain s t hs hy⟩ ht
        exact hboth.2
      · exact foldlM_establishes hx hstep' hgain hkeep' hPt ht

/-- Steps that cannot tell two states apart end in states that cannot be told apart, or in the
same failure. -/
theorem foldlM_map_congr {τ : Type*} {view : σ → τ} : ∀ {xs : List α} {s s' : σ},
    (∀ x ∈ xs, ∀ s s', view s = view s' → (step s x).map view = (step s' x).map view) →
    view s = view s' → (xs.foldlM step s).map view = (xs.foldlM step s').map view
  | [], _, _, _, h => congrArg Except.ok h
  | x :: xs, s, s', hstep, h => by
      have hx := hstep x List.mem_cons_self s s' h
      rw [List.foldlM_cons, List.foldlM_cons]
      cases hs : step s x with
      | error e =>
        cases hs' : step s' x with
        | error e' =>
          rw [hs, hs'] at hx
          have he : e = e' := Except.error.inj hx
          rw [he]
        | ok t' => simp [hs, hs', Except.map] at hx
      | ok t =>
        cases hs' : step s' x with
        | error e' => simp [hs, hs', Except.map] at hx
        | ok t' =>
          rw [hs, hs'] at hx
          exact foldlM_map_congr (fun y hy => hstep y (.tail _ hy))
            (Except.ok.inj hx)

end ExceptFold
