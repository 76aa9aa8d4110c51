import Mathlib.Logic.Relation
import Mathlib.Data.List.Basic

/-!
# Guarded runs of a partial transition function

A system is a partial function `step : σ → α → Option σ`. A run is restricted by
a condition `ok` on the state before a step and on the step itself; the
unrestricted runs are those with `anyStep`. An invariant is proved once for one
step and then holds along every run.
-/

namespace Transition

def Moves {σ α : Type*} (step : σ → α → Option σ) (ok : σ → α → Prop) (s s' : σ) : Prop :=
  ∃ a, ok s a ∧ step s a = some s'

def Reaches {σ α : Type*} (step : σ → α → Option σ) (ok : σ → α → Prop) : σ → σ → Prop :=
  Relation.ReflTransGen (Moves step ok)

def anyStep {σ α : Type*} (_ : σ) (_ : α) : Prop := True

/-- The state a list of steps leads to. -/
def exec {σ α : Type*} (step : σ → α → Option σ) : σ → List α → Option σ
  | s, [] => some s
  | s, a :: as => (step s a).bind fun s' => exec step s' as

/-- Every step of the list meets the condition where it is taken. -/
def execOk {σ α : Type*} (step : σ → α → Option σ) (ok : σ → α → Prop) : σ → List α → Prop
  | _, [] => True
  | s, a :: as => ok s a ∧ ∀ s', step s a = some s' → execOk step ok s' as

/-- The property holds at the start and in every state the list of steps goes through. -/
def throughout {σ α : Type*} (step : σ → α → Option σ) (P : σ → Prop) : σ → List α → Prop
  | s, [] => P s
  | s, a :: as => P s ∧ ∀ s', step s a = some s' → throughout step P s' as

/-- In every state that the list of steps goes through a second system shows, which with each step
takes one of its own or stays where it is. -/
def refines {σ α τ : Type*} (step : σ → α → Option σ) (shows : σ → τ → Prop)
    (taken : τ → τ → Prop) :
    σ → τ → List α → Prop
  | s, t, [] => shows s t
  | s, t, a :: as => shows s t ∧ ∀ s', step s a = some s' →
      ∃ t', Relation.ReflGen taken t t' ∧ refines step shows taken s' t' as

variable {σ α : Type*} {step : σ → α → Option σ} {ok : σ → α → Prop}

theorem Reaches.refl (s : σ) : Reaches step ok s s :=
  Relation.ReflTransGen.refl

theorem Reaches.trans {s₀ s₁ s₂ : σ} (h₁ : Reaches step ok s₀ s₁) (h₂ : Reaches step ok s₁ s₂) :
    Reaches step ok s₀ s₂ :=
  Relation.ReflTransGen.trans h₁ h₂

theorem Reaches.single {s s' : σ} (a : α) (hok : ok s a) (h : step s a = some s') :
    Reaches step ok s s' :=
  Relation.ReflTransGen.single ⟨a, hok, h⟩

variable {P : σ → Prop}

theorem Reaches.invariant (hstep : ∀ s a s', P s → ok s a → step s a = some s' → P s') {s s' : σ}
    (hs : P s) (h : Reaches step ok s s') : P s' := by
  induction h with
  | refl => exact hs
  | tail _ hmove ih =>
    obtain ⟨a, hok, ha⟩ := hmove
    exact hstep _ a _ ih hok ha

theorem Reaches.of_exec :
    ∀ {s s' : σ} (as : List α), execOk step ok s as → exec step s as = some s' →
      Reaches step ok s s'
  | s, s', [], _, h => by
      cases h
      exact Reaches.refl s
  | s, s', a :: as, hok, h => by
      obtain ⟨s₁, h₁, h₂⟩ := Option.bind_eq_some_iff.mp h
      exact (Reaches.single a hok.1 h₁).trans (Reaches.of_exec as (hok.2 s₁ h₁) h₂)

theorem execOk_cons {s s' : σ} {a : α} {as : List α} (hok : ok s a) (h : step s a = some s')
    (hrest : execOk step ok s' as) : execOk step ok s (a :: as) := by
  refine ⟨hok, fun t ht => ?_⟩
  obtain rfl := Option.some.inj (h.symm.trans ht)
  exact hrest

theorem execOk_of_forall :
    ∀ {s : σ} (as : List α), (∀ a ∈ as, ∀ s, ok s a) → execOk step ok s as
  | _, [], _ => trivial
  | s, a :: as, h => ⟨h a List.mem_cons_self s, fun _ _ =>
    execOk_of_forall as fun b hb => h b (.tail _ hb)⟩

theorem execOk_anyStep (step : σ → α → Option σ) (s : σ) (as : List α) : execOk step anyStep s as :=
  execOk_of_forall as fun _ _ _ => trivial

theorem throughout_start :
    ∀ {s : σ} (as : List α), throughout step P s as → P s
  | _, [], h => h
  | _, _ :: _, h => h.1

theorem throughout_end :
    ∀ {s s' : σ} (as : List α), throughout step P s as → exec step s as = some s' → P s'
  | _, _, [], h, hexec => by
      cases hexec
      exact h
  | _, s', _ :: as, h, hexec => by
      obtain ⟨s₁, h₁, h₂⟩ := Option.bind_eq_some_iff.mp hexec
      exact throughout_end as (h.2 s₁ h₁) h₂

/-- Where the steps that meet the condition keep an invariant with the property, and no other step
keeps the property, it holds throughout exactly the runs of such steps. -/
theorem throughout_of_invariant {J : σ → Prop} (hP : ∀ s, J s → P s)
    (hstep : ∀ s a s', J s → step s a = some s' → J s') :
    ∀ {s : σ} (as : List α), J s → throughout step P s as
  | s, [], hs => hP s hs
  | s, a :: as, hs =>
    ⟨hP s hs, fun s' hs' => throughout_of_invariant hP hstep as (hstep s a s' hs hs')⟩

theorem throughout_iff_of_invariant {J : σ → Prop} (hP : ∀ s, J s → P s)
    (hstep : ∀ s a s', J s → ok s a → step s a = some s' → J s')
    (hok : ∀ s a, J s → (∀ s', step s a = some s' → P s') → ok s a) :
    ∀ {s : σ} (as : List α), J s → (throughout step P s as ↔ execOk step ok s as)
  | s, [], hs => iff_of_true (hP s hs) trivial
  | s, a :: as, hs => by
      have hrest : ok s a → ∀ s', step s a = some s' →
          (throughout step P s' as ↔ execOk step ok s' as) := fun ha s' hs' =>
        throughout_iff_of_invariant hP hstep hok as (hstep s a s' hs ha hs')
      constructor
      · intro h
        have ha : ok s a := hok s a hs fun s' hs' => throughout_start as (h.2 s' hs')
        exact ⟨ha, fun s' hs' => (hrest ha s' hs').mp (h.2 s' hs')⟩
      · intro h
        exact ⟨hP s hs, fun s' hs' => (hrest h.1 s' hs').mpr (h.2 s' hs')⟩

/-- One step of the simulation relation for each step of the first system. -/
theorem refines_of_simulation {τ : Type*} {shows R : σ → τ → Prop} {taken : τ → τ → Prop}
    (hshows : ∀ s t, R s t → shows s t)
    (hstep : ∀ s t a s', R s t → step s a = some s' → ∃ t', Relation.ReflGen taken t t' ∧ R s' t') :
    ∀ {s : σ} {t : τ} (as : List α), R s t → refines step shows taken s t as
  | s, t, [], h => hshows s t h
  | s, t, a :: as, h => by
      refine ⟨hshows s t h, fun s' hs' => ?_⟩
      obtain ⟨t', htaken, ht'⟩ := hstep s t a s' h hs'
      exact ⟨t', htaken, refines_of_simulation hshows hstep as ht'⟩

/-- Where each step keeps the property exactly when it meets the condition, the property holds
throughout exactly the runs of such steps. -/
theorem throughout_iff_execOk {I : σ → Prop} (hinv : ∀ s a s', I s → step s a = some s' → I s')
    (hstep : ∀ s a, I s → P s → (ok s a ↔ ∀ s', step s a = some s' → P s')) {s : σ} (as : List α)
    (hi : I s) (hp : P s) : throughout step P s as ↔ execOk step ok s as :=
  throughout_iff_of_invariant (J := fun s => I s ∧ P s) (fun _ hs => hs.2)
    (fun s a s' hs ha hs' => ⟨hinv s a s' hs.1 hs', (hstep s a hs.1 hs.2).mp ha s' hs'⟩)
    (fun s a hs h => (hstep s a hs.1 hs.2).mpr h) as ⟨hi, hp⟩

end Transition
