import Mathlib.Data.Finset.Card
import Mathlib.Data.Nat.Find

/-!
# Chains of a partial function

A relation is acyclic when no chain of it comes back to where it starts. The chain of a partial
function is followed one link at a time; with a set of the points already met the walk ends on
every finite domain, and it finds the goal exactly when the chain leads there.
-/

namespace Chain

open Relation

variable {α : Type*}

def Acyclic (r : α → α → Prop) : Prop :=
  ∀ a, ¬ TransGen r a a

variable {r q : α → α → Prop}

theorem Acyclic.mono (hq : Acyclic q) (h : ∀ a b, r a b → q a b) : Acyclic r := by
  intro a ha
  exact hq a (TransGen.mono h _ _ ha)

theorem Acyclic.of_sink {c : α} (hq : Acyclic q) (hc : ∀ b, ¬ r c b)
    (h : ∀ a b, r a b → q a b ∨ b = c) : Acyclic r := by
  have hold : ∀ a b, TransGen r a b → b = c ∨ TransGen q a b := by
    intro a b hab
    induction hab with
    | single hlink =>
      rcases h _ _ hlink with hlink | rfl
      · exact .inr (TransGen.single hlink)
      · exact .inl rfl
    | tail _ hlink ih =>
      rcases ih with rfl | ih
      · exact absurd hlink (hc _)
      · rcases h _ _ hlink with hlink | rfl
        · exact .inr (ih.tail hlink)
        · exact .inl rfl
  intro a ha
  rcases hold a a ha with rfl | hcycle
  · obtain ⟨b, hlink, -⟩ := TransGen.head'_iff.mp ha
    exact hc b hlink
  · exact hq a hcycle

theorem Acyclic.of_source {c : α} (hq : Acyclic q) (hc : ∀ b, r c b → ¬ ReflTransGen q b c)
    (h : ∀ a b, a ≠ c → r a b → q a b) : Acyclic r := by
  have hback : ∀ b, ReflTransGen r b c → ReflTransGen q b c := by
    intro b hb
    induction hb using ReflTransGen.head_induction_on with
    | refl => exact ReflTransGen.refl
    | @head x y hlink _ ih =>
      by_cases hx : x = c
      · exact hx ▸ ReflTransGen.refl
      · exact ih.head (h x y hx hlink)
  have hthrough : ∀ a b, ReflTransGen r a b →
      ReflTransGen q a b ∨ ReflTransGen r a c ∧ ReflTransGen r c b := by
    intro a b hab
    induction hab using ReflTransGen.head_induction_on with
    | refl => exact .inl ReflTransGen.refl
    | @head x y hlink hrest ih =>
      by_cases hx : x = c
      · subst hx
        exact .inr ⟨ReflTransGen.refl, hrest.head hlink⟩
      · rcases ih with ih | ⟨hto, hfrom⟩
        · exact .inl (ih.head (h x y hx hlink))
        · exact .inr ⟨hto.head hlink, hfrom⟩
  have hcycle : ¬ TransGen r c c := by
    intro hcc
    obtain ⟨b, hlink, hrest⟩ := TransGen.head'_iff.mp hcc
    exact hc b hlink (hback b hrest)
  intro a ha
  obtain ⟨b, hlink, hrest⟩ := TransGen.head'_iff.mp ha
  by_cases hac : a = c
  · exact hcycle (hac ▸ ha)
  · rcases hthrough b a hrest with hpath | ⟨hto, hfrom⟩
    · exact hq a (TransGen.head' (h a b hac hlink) hpath)
    · exact hcycle ((TransGen.tail' hfrom hlink).trans_left hto)

theorem lift_of_between {a b : α} (hab : ReflTransGen r a b)
    (h : ∀ x y, ReflTransGen r a x → r x y → ReflTransGen r y b → q x y) : ReflTransGen q a b := by
  induction hab using ReflTransGen.head_induction_on with
  | refl => exact ReflTransGen.refl
  | head hlink hrest ih =>
    exact (ih fun x y hx => h x y (hx.head hlink)).head
      (h _ _ ReflTransGen.refl hlink hrest)

def Follows (next : α → Option α) (a b : α) : Prop :=
  next a = some b

/-- The point `n` links further. -/
def climb (next : α → Option α) : ℕ → α → Option α
  | 0, a => some a
  | n + 1, a => (next a).bind (climb next n)

variable {next : α → Option α}

theorem exists_climb {a b : α} (h : ReflTransGen (Follows next) a b) :
    ∃ n, climb next n a = some b := by
  induction h using ReflTransGen.head_induction_on with
  | refl => exact ⟨0, rfl⟩
  | head hlink _ ih =>
    obtain ⟨n, hn⟩ := ih
    refine ⟨n + 1, ?_⟩
    rw [climb, hlink]
    exact hn

variable [DecidableEq α]

/-- Follows the chain until it meets the goal, a point met before, or its end. -/
def walk (next : α → Option α) (goal : α) : ℕ → Finset α → α → Bool
  | 0, _, _ => false
  | fuel + 1, visited, a =>
    if a = goal then true
    else if a ∈ visited then false
    else
      match next a with
      | none => false
      | some b => walk next goal fuel (insert a visited) b

theorem leads_of_walk {goal : α} :
    ∀ {fuel : ℕ} {visited : Finset α} {a : α}, walk next goal fuel visited a →
      ReflTransGen (Follows next) a goal
  | 0, _, _, h => nomatch h
  | fuel + 1, visited, a, h => by
      rw [walk] at h
      split at h
      next hgoal => exact hgoal ▸ ReflTransGen.refl
      next =>
        split at h
        next => exact absurd h Bool.false_ne_true
        next =>
          split at h
          next => exact absurd h Bool.false_ne_true
          next b hb => exact (leads_of_walk h).head hb

/-- The walk reaches a goal `n` links away that is no nearer, when all it has visited lies further
away and its fuel covers what is left. -/
theorem walk_of_climb {goal : α} {domain : Finset α}
    (hdomain : ∀ a b, next a = some b → a ∈ domain) :
    ∀ {n fuel : ℕ} {visited : Finset α} {a : α}, climb next n a = some goal →
      (∀ i < n, climb next i a ≠ some goal) →
      (∀ x ∈ visited, ∀ i ≤ n, climb next i x ≠ some goal) →
      (domain \ visited).card < fuel → walk next goal fuel visited a = true
  | _, 0, _, _, _, _, _, hfuel => absurd hfuel (Nat.not_lt_zero _)
  | 0, fuel + 1, visited, a, hn, _, _, _ => by
      rw [walk, if_pos (Option.some.inj hn)]
  | n + 1, fuel + 1, visited, a, hn, hleast, hfar, hfuel => by
      have hgoal : a ≠ goal := fun h => hleast 0 n.succ_pos (congrArg some h)
      have hfresh : a ∉ visited := fun h => hfar a h (n + 1) le_rfl hn
      obtain ⟨b, hb, hrest⟩ := Option.bind_eq_some_iff.mp hn
      have hclimb : ∀ i, climb next (i + 1) a = climb next i b := by
        intro i
        rw [climb, hb]
        rfl
      have hcard : (domain \ insert a visited).card < (domain \ visited).card := by
        apply Finset.card_lt_card
        rw [Finset.sdiff_insert]
        exact Finset.erase_ssubset
          (Finset.mem_sdiff.mpr ⟨hdomain a b hb, hfresh⟩)
      rw [walk, if_neg hgoal, if_neg hfresh, hb]
      apply walk_of_climb hdomain hrest
      · intro i hi
        rw [← hclimb]
        exact hleast (i + 1) (Nat.succ_lt_succ hi)
      · intro x hx i hi
        rcases Finset.mem_insert.mp hx with rfl | hx
        · exact hleast i (Nat.lt_succ_of_le hi)
        · exact hfar x hx i (hi.trans n.le_succ)
      · omega

/-- With more fuel than the domain has points the walk finds the goal exactly when the chain
leads there. -/
theorem walk_eq_true_iff {goal a : α} {domain : Finset α} {fuel : ℕ}
    (hdomain : ∀ a b, next a = some b → a ∈ domain) (hfuel : domain.card < fuel) :
    walk next goal fuel ∅ a ↔ ReflTransGen (Follows next) a goal := by
  refine ⟨leads_of_walk, fun h => ?_⟩
  have hex := exists_climb h
  apply walk_of_climb hdomain (Nat.find_spec hex)
  · intro i hi
    exact Nat.find_min hex hi
  · intro x hx
    exact absurd hx (Finset.notMem_empty x)
  · rwa [Finset.sdiff_empty]

end Chain
