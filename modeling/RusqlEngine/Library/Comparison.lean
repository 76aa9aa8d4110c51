import Mathlib.Data.List.Forall2
import Mathlib.Order.Basic

/-!
# Comparisons that may run in a circle

A comparison in which equal elements can stand for one another is transitive exactly where three
elements do not follow each other in a circle. Lists compared place by place inherit this, and they
run in a circle only where their elements do, at the first place at which not all are equal.
-/

namespace Comparison

open Std OrientedCmp

variable {α : Type*}

/-- Elements that are equal compare alike with every other. -/
class Congruent (cmp : α → α → Ordering) : Prop extends OrientedCmp cmp where
  congr_left {a b c : α} : cmp a b = .eq → cmp a c = cmp b c

instance {cmp : α → α → Ordering} [TransCmp cmp] : Congruent cmp where
  congr_left := TransCmp.congr_left

def Cycle (cmp : α → α → Ordering) (a b c : α) : Prop :=
  cmp a b = .lt ∧ cmp b c = .lt ∧ cmp c a = .lt

section

variable {cmp : α → α → Ordering} {a b c : α}

theorem Congruent.congr_right [Congruent cmp] (h : cmp a b = .eq) : cmp c a = cmp c b := by
  calc
    cmp c a = (cmp a c).swap := eq_swap
    _ = (cmp b c).swap := congrArg Ordering.swap (Congruent.congr_left h)
    _ = cmp c b := eq_swap.symm

theorem not_cycle [TransCmp cmp] : ¬ Cycle cmp a b c :=
  fun ⟨hab, hbc, hca⟩ =>
    not_lt_of_lt (TransCmp.lt_trans hab hbc) hca

theorem isLE_trans_iff [Congruent cmp] :
    ((cmp a b).isLE → (cmp b c).isLE → (cmp a c).isLE) ↔ ¬ Cycle cmp a b c := by
  constructor
  · rintro htrans ⟨hab, hbc, hca⟩
    have hac : (cmp a c).isLE := htrans (by rw [hab]; rfl) (by rw [hbc]; rfl)
    exact not_isLE_of_lt hca hac
  · intro hcycle hab hbc
    cases h : cmp a b with
    | gt => rw [h] at hab; exact absurd hab (by decide)
    | eq => rwa [Congruent.congr_left h]
    | lt =>
      cases h' : cmp b c with
      | gt => rw [h'] at hbc; exact absurd hbc (by decide)
      | eq => rwa [← Congruent.congr_right h']
      | lt =>
        by_contra hac
        exact hcycle ⟨h, h', lt_of_not_isLE hac⟩

theorem transCmp_of_not_cycle [Congruent cmp] (h : ∀ a b c, ¬ Cycle cmp a b c) : TransCmp cmp where
  isLE_trans hab hbc := isLE_trans_iff.mpr (h _ _ _) hab hbc

end

/-- Lists place by place, each place from `i` on with a comparison of its own; a list at its end is
before one that goes on. -/
def lex (cmp : ℕ → α → α → Ordering) : ℕ → List α → List α → Ordering
  | _, [], [] => .eq
  | _, [], _ :: _ => .lt
  | _, _ :: _, [] => .gt
  | i, a :: as, b :: bs => (cmp i a b).then (lex cmp (i + 1) as bs)

/-- Three lists run in a circle at the first place at which not all are equal. -/
def CycleIn (cmp : ℕ → α → α → Ordering) : ℕ → List α → List α → List α → Prop
  | i, a :: as, b :: bs, c :: cs =>
    Cycle (cmp i) a b c ∨ (cmp i a b = .eq ∧ cmp i b c = .eq ∧ CycleIn cmp (i + 1) as bs cs)
  | _, _, _, _ => False

section

variable {cmp : ℕ → α → α → Ordering}

theorem lex_eq_swap [∀ i, Congruent (cmp i)] :
    ∀ (i : ℕ) (as bs : List α), lex cmp i as bs = (lex cmp i bs as).swap
  | _, [], [] => rfl
  | _, [], _ :: _ => rfl
  | _, _ :: _, [] => rfl
  | i, a :: as, b :: bs => by
      rw [lex, lex, Ordering.swap_then, ← eq_swap, ← lex_eq_swap]

theorem lex_congr_left [∀ i, Congruent (cmp i)] : ∀ {i : ℕ} {as bs cs : List α},
    lex cmp i as bs = .eq → lex cmp i as cs = lex cmp i bs cs
  | _, [], [], _, _ => rfl
  | _, a :: as, b :: bs, [], _ => rfl
  | i, a :: as, b :: bs, c :: cs, h => by
      obtain ⟨hhead, htail⟩ := Ordering.then_eq_eq.mp h
      rw [lex, lex, Congruent.congr_left hhead, lex_congr_left htail]
  | _, [], _ :: _, _, h => nomatch h
  | _, _ :: _, [], _, h => nomatch h

instance [∀ i, Congruent (cmp i)] (i : ℕ) : Congruent (lex cmp i) where
  eq_swap := lex_eq_swap i _ _
  congr_left := lex_congr_left

theorem lex_eq_lt_cons {i : ℕ} {a b : α} {as bs : List α} :
    lex cmp i (a :: as) (b :: bs) = .lt ↔
      cmp i a b = .lt ∨ cmp i a b = .eq ∧ lex cmp (i + 1) as bs = .lt :=
  Ordering.then_eq_lt

/-- The heads of three lists in a circle are in a circle, or all equal. -/
theorem cycle_lex_iff [∀ i, Congruent (cmp i)] : ∀ {i : ℕ} {as bs cs : List α},
    Cycle (lex cmp i) as bs cs ↔ CycleIn cmp i as bs cs
  | i, a :: as, b :: bs, c :: cs => by
      rw [CycleIn, ← cycle_lex_iff, Cycle, lex_eq_lt_cons, lex_eq_lt_cons, lex_eq_lt_cons]
      constructor
      · rintro ⟨hab | ⟨hab, has⟩, hbc | ⟨hbc, hbs⟩, hca | ⟨hca, hcs⟩⟩
        case inl.inl.inl => exact .inl ⟨hab, hbc, hca⟩
        case inr.inr.inr => exact .inr ⟨hab, hbc, has, hbs, hcs⟩
        case inl.inl.inr =>
          rw [Congruent.congr_right hca] at hbc
          exact absurd hab (not_lt_of_lt hbc)
        case inl.inr.inl =>
          rw [Congruent.congr_right hbc] at hab
          exact absurd hca (not_lt_of_lt hab)
        case inl.inr.inr =>
          rw [Congruent.congr_right hbc, eq_symm hca] at hab
          exact absurd hab (by decide)
        case inr.inl.inl =>
          rw [← Congruent.congr_left hab] at hbc
          exact absurd hca (not_lt_of_lt hbc)
        case inr.inl.inr =>
          rw [← Congruent.congr_left hab, eq_symm hca] at hbc
          exact absurd hbc (by decide)
        case inr.inr.inl =>
          rw [Congruent.congr_right hab, eq_symm hbc] at hca
          exact absurd hca (by decide)
      · rintro (⟨hab, hbc, hca⟩ | ⟨hab, hbc, has, hbs, hcs⟩)
        · exact ⟨.inl hab, .inl hbc, .inl hca⟩
        · have hac : cmp i a c = .eq := (Congruent.congr_left hab).trans hbc
          exact ⟨.inr ⟨hab, has⟩, .inr ⟨hbc, hbs⟩, .inr ⟨eq_symm hac, hcs⟩⟩
  | _, [], [], _ => ⟨fun h => (nomatch h.1), False.elim⟩
  | _, [], _ :: _, [] => ⟨fun h => (nomatch h.2.1), False.elim⟩
  | _, [], _ :: _, _ :: _ => ⟨fun h => (nomatch h.2.2), False.elim⟩
  | _, _ :: _, [], _ => ⟨fun h => (nomatch h.1), False.elim⟩
  | _, _ :: _, _ :: _, [] => ⟨fun h => (nomatch h.2.1), False.elim⟩

theorem not_cycleIn [∀ i, TransCmp (cmp i)] :
    ∀ {i : ℕ} {as bs cs : List α}, ¬ CycleIn cmp i as bs cs
  | _, _ :: _, _ :: _, _ :: _, h => h.elim not_cycle fun ⟨_, _, h⟩ => not_cycleIn h
  | _, [], _, _, h => h
  | _, _ :: _, [], _, h => h
  | _, _ :: _, _ :: _, [], h => h

instance [∀ i, TransCmp (cmp i)] (i : ℕ) : TransCmp (lex cmp i) :=
  transCmp_of_not_cycle fun _ _ _ h => not_cycleIn (cycle_lex_iff.mp h)

theorem lex_append : ∀ {i : ℕ} {as bs as' bs' : List α}, as.length = bs.length →
    lex cmp i (as ++ as') (bs ++ bs') = (lex cmp i as bs).then (lex cmp (i + as.length) as' bs')
  | _, [], [], _, _, _ => rfl
  | i, a :: as, b :: bs, as', bs', h => by
      rw [List.cons_append, List.cons_append, lex, lex, lex_append (Nat.succ.inj h),
        Ordering.then_assoc, List.length_cons, Nat.add_right_comm, Nat.add_assoc]

/-- Lists are equal place by place. -/
theorem lex_eq_eq {c : α → α → Ordering} : ∀ {i : ℕ} {as bs : List α},
    lex (fun _ => c) i as bs = .eq ↔ List.Forall₂ (fun a b => c a b = .eq) as bs
  | _, [], [] => iff_of_true rfl .nil
  | i, a :: as, b :: bs => by
      rw [lex, Ordering.then_eq_eq, lex_eq_eq, List.forall₂_cons]
  | _, [], _ :: _ => ⟨nofun, nofun⟩
  | _, _ :: _, [] => ⟨nofun, nofun⟩

end

end Comparison
