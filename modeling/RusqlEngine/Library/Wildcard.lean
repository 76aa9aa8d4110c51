import Mathlib.Data.List.Forall2
import Mathlib.Tactic.Ring
import RusqlEngine.Library.Loop

/-!
# Patterns with wildcards

A pattern is a list of tokens that take any run, one item of any kind, or an item the same as
theirs. A list matches when it can be divided among them. The matcher reads from the front and,
where it cannot go on, lets the last token that takes any run take one item more; that it never goes
back to an earlier one loses no match.
-/

namespace Wildcard

inductive Token (β : Type*)
  | any
  | one
  | item (b : β)
deriving DecidableEq

variable {α β : Type*}

def Token.isAny : Token β → Bool
  | .any => true
  | _ => false

def fits (same : β → α → Bool) : Token β → α → Bool
  | .any, _ => false
  | .one, _ => true
  | .item b, c => same b c

/-- The part of a list that a token takes. -/
def Takes (same : β → α → Bool) : Token β → List α → Prop
  | .any, _ => True
  | .one, part => ∃ c, part = [c]
  | .item b, part => ∃ c, part = [c] ∧ same b c

/-- The list can be divided among the tokens. -/
def Matches (same : β → α → Bool) (tokens : List (Token β)) (v : List α) : Prop :=
  ∃ parts : List (List α), parts.flatten = v ∧ List.Forall₂ (Takes same) tokens parts

/-- The matcher: what is left of the list and of the tokens, and what was left of them behind the
last `%`. -/
structure State (α β : Type*) where
  rest : List α
  tokens : List (Token β)
  star : Option (List (Token β) × List α)

namespace State

/-- The last token that takes any run takes one item more. -/
def retry (s : State α β) : Bool ⊕ State α β :=
  match s.star with
  | some (tokens, mark) => .inr ⟨mark.tail, tokens, some (tokens, mark.tail)⟩
  | none => .inl false

def turn (same : β → α → Bool) (s : State α β) : Bool ⊕ State α β :=
  match s.rest, s.tokens with
  | [], tokens => .inl (tokens.all Token.isAny)
  | c :: rest, .any :: tokens => .inr ⟨c :: rest, tokens, some (tokens, c :: rest)⟩
  | c :: rest, t :: tokens =>
    if fits same t c then .inr ⟨rest, tokens, s.star⟩ else s.retry
  | _ :: _, [] => s.retry

end State

section

variable {same : β → α → Bool} {t : Token β} {tokens : List (Token β)} {v : List α} {c : α}

theorem matches_nil : Matches same [] v ↔ v = [] := by
  constructor
  · rintro ⟨parts, rfl, h⟩
    rw [List.forall₂_nil_left_iff.mp h, List.flatten_nil]
  · rintro rfl
    exact ⟨[], rfl, .nil⟩

theorem matches_cons : Matches same (t :: tokens) v ↔
    ∃ part rest, v = part ++ rest ∧ Takes same t part ∧ Matches same tokens rest := by
  constructor
  · rintro ⟨parts, rfl, h⟩
    obtain ⟨part, parts, htakes, hrest, rfl⟩ := List.forall₂_cons_left_iff.mp h
    exact ⟨part, parts.flatten, rfl, htakes, parts, rfl, hrest⟩
  · rintro ⟨part, rest, rfl, htakes, parts, rfl, hrest⟩
    exact ⟨part :: parts, rfl, .cons htakes hrest⟩

theorem matches_any : Matches same (.any :: tokens) v ↔
    ∃ part rest, v = part ++ rest ∧ Matches same tokens rest := by
  rw [matches_cons]
  simp only [Takes, true_and]

theorem matches_any_cons : Matches same (.any :: tokens) (c :: v) ↔
    Matches same tokens (c :: v) ∨ Matches same (.any :: tokens) v := by
  rw [matches_any, matches_any]
  constructor
  · rintro ⟨_ | ⟨d, part⟩, rest, hv, h⟩
    · exact .inl (hv ▸ h)
    · exact .inr ⟨part, rest, (List.cons.inj hv).2, h⟩
  · rintro (h | ⟨part, rest, rfl, h⟩)
    · exact ⟨[], c :: v, rfl, h⟩
    · exact ⟨c :: part, rest, rfl, h⟩

theorem matches_any_nil : Matches same (.any :: tokens) [] ↔ Matches same tokens [] := by
  rw [matches_any]
  constructor
  · rintro ⟨part, rest, hv, h⟩
    rwa [(List.append_eq_nil_iff.mp hv.symm).2] at h
  · exact fun h => ⟨[], [], rfl, h⟩

theorem matches_any_append (u : List α) (h : Matches same (.any :: tokens) v) :
    Matches same (.any :: tokens) (u ++ v) := by
  obtain ⟨part, rest, rfl, hm⟩ := matches_any.mp h
  exact matches_any.mpr ⟨u ++ part, rest, (List.append_assoc ..).symm, hm⟩

theorem matches_single (ht : t ≠ .any) : Matches same (t :: tokens) v ↔
    ∃ c rest, v = c :: rest ∧ fits same t c ∧ Matches same tokens rest := by
  rw [matches_cons]
  cases t with
  | any => exact absurd rfl ht
  | one =>
    constructor
    · rintro ⟨_, rest, rfl, ⟨c, rfl⟩, h⟩
      exact ⟨c, rest, rfl, rfl, h⟩
    · rintro ⟨c, rest, rfl, -, h⟩
      exact ⟨[c], rest, rfl, ⟨c, rfl⟩, h⟩
  | item b =>
    constructor
    · rintro ⟨_, rest, rfl, ⟨c, rfl, hsame⟩, h⟩
      exact ⟨c, rest, rfl, hsame, h⟩
    · rintro ⟨c, rest, rfl, hsame, h⟩
      exact ⟨[c], rest, rfl, ⟨c, rfl, hsame⟩, h⟩

theorem matches_empty : Matches same tokens [] ↔ tokens.all Token.isAny := by
  induction tokens with
  | nil => simp [matches_nil]
  | cons t tokens ih =>
    by_cases ht : t = .any
    · rw [ht, matches_any_nil, ih, List.all_cons]
      rfl
    · rw [matches_single ht, List.all_cons]
      have hfalse : t.isAny = false := by
        cases t with
        | any => exact absurd rfl ht
        | one => rfl
        | item b => rfl
      simp [hfalse]

theorem not_any_of_fits (h : fits same t c) : t ≠ .any := by
  rintro rfl
  exact nomatch h

theorem matches_append {front : List (Token β)} (hfront : ∀ t ∈ front, t ≠ .any) :
    Matches same (front ++ tokens) v ↔ ∃ part rest, v = part ++ rest ∧
      List.Forall₂ (fun t c => fits same t c = true) front part ∧ Matches same tokens rest := by
  induction front generalizing v with
  | nil =>
    constructor
    · exact fun h => ⟨[], v, rfl, .nil, h⟩
    · rintro ⟨part, rest, rfl, hpart, h⟩
      rwa [List.forall₂_nil_left_iff.mp hpart]
  | cons t front ih =>
    obtain ⟨ht, hfront⟩ := List.forall_mem_cons.mp hfront
    rw [List.cons_append, matches_single ht]
    constructor
    · rintro ⟨c, rest, rfl, hc, h⟩
      obtain ⟨part, rest, rfl, hpart, h⟩ := (ih hfront).mp h
      exact ⟨c :: part, rest, rfl, .cons hc hpart, h⟩
    · rintro ⟨part, rest, rfl, hpart, h⟩
      obtain ⟨c, others, hc, hothers, rfl⟩ := List.forall₂_cons_left_iff.mp hpart
      exact ⟨c, others ++ rest, rfl, hc, (ih hfront).mpr ⟨others, rest, rfl, hothers, h⟩⟩

theorem Matches.imp {same' : β → α → Bool} (hm : Matches same tokens v)
    (h : ∀ b c, .item b ∈ tokens → c ∈ v → same b c → same' b c) : Matches same' tokens v := by
  obtain ⟨parts, rfl, hm⟩ := hm
  refine ⟨parts, rfl, ?_⟩
  induction hm with
  | nil => exact .nil
  | @cons t part tokens parts htakes _ ih =>
    refine .cons ?_ (ih fun b c hb hc => h b c (List.mem_cons_of_mem t hb) ?_)
    · cases t with
      | any => trivial
      | one => exact htakes
      | item b =>
        obtain ⟨c, rfl, hsame⟩ := htakes
        exact ⟨c, rfl, h b c List.mem_cons_self (by simp) hsame⟩
    · rw [List.flatten_cons]
      exact List.mem_append_right part hc

end

namespace State

variable {same : β → α → Bool} {s s' : State α β}

/-- Behind the last token that takes any run, the tokens that have been passed fit what has. -/
def Passed (same : β → α → Bool) (s : State α β) : Prop :=
  ∀ tokens mark, s.star = some (tokens, mark) → ∃ front part,
    tokens = front ++ s.tokens ∧ mark = part ++ s.rest ∧
      List.Forall₂ (fun t c => fits same t c = true) front part

/-- What the matcher still has to find out. -/
def Wanted (same : β → α → Bool) (s : State α β) : Prop :=
  match s.star with
  | none => Matches same s.tokens s.rest
  | some (tokens, mark) => Matches same (.any :: tokens) mark

def Settled (same : β → α → Bool) (s : State α β) (answer : Bool) : Prop :=
  answer = true ↔ s.Wanted same

theorem not_any_of_passed {front : List (Token β)} {part : List α}
    (h : List.Forall₂ (fun t c => fits same t c = true) front part) : ∀ t ∈ front, t ≠ .any := by
  induction h with
  | nil => simp
  | cons hfits _ ih => exact List.forall_mem_cons.mpr ⟨not_any_of_fits hfits, ih⟩

variable {tokens : List (Token β)} {mark : List α}

theorem wanted_now (h : s.Passed same) (hstar : s.star = some (tokens, mark)) :
    Matches same tokens mark ↔ Matches same s.tokens s.rest := by
  obtain ⟨front, part, rfl, rfl, hfront⟩ := h _ _ hstar
  rw [matches_append (not_any_of_passed hfront)]
  constructor
  · rintro ⟨part', rest, hmark, hfront', hm⟩
    have hlen : part.length = part'.length := hfront.length_eq.symm.trans hfront'.length_eq
    rwa [(List.append_inj hmark hlen).2]
  · exact fun hm => ⟨part, s.rest, rfl, hfront, hm⟩

theorem wanted_of_end (h : s.Passed same) (hrest : s.rest = []) :
    s.Wanted same ↔ Matches same s.tokens [] := by
  rw [Wanted]
  cases hstar : s.star with
  | none => rw [hrest]
  | some star =>
    obtain ⟨tokens, mark⟩ := star
    obtain ⟨front, part, rfl, rfl, hfront⟩ := h _ _ hstar
    constructor
    · intro hm
      obtain ⟨lead, rest, hmark, hm⟩ := matches_any.mp hm
      obtain ⟨part', rest', rfl, hfront', hm⟩ :=
        (matches_append (not_any_of_passed hfront)).mp hm
      -- as many items as there are tokens: the token before them takes none
      have hlen : part.length = part'.length := hfront.length_eq.symm.trans hfront'.length_eq
      have hall := congrArg List.length hmark
      rw [hrest, List.append_nil, List.length_append, List.length_append] at hall
      rwa [List.length_eq_zero_iff.mp (by omega : rest'.length = 0)] at hm
    · intro hm
      rw [hrest]
      exact matches_any.mpr ⟨[], part ++ [], rfl,
        (matches_append (not_any_of_passed hfront)).mpr ⟨part, [], rfl, hfront, hm⟩⟩

theorem wanted_of_any (h : s.Passed same) (hany : s.tokens = .any :: tokens) :
    s.Wanted same ↔ Matches same (.any :: tokens) s.rest := by
  rw [Wanted]
  cases hstar : s.star with
  | none => rw [hany]
  | some star =>
    obtain ⟨before, mark⟩ := star
    obtain ⟨front, part, rfl, rfl, hfront⟩ := h _ _ hstar
    rw [hany]
    constructor
    · intro hm
      obtain ⟨lead, rest, hmark, hm⟩ := matches_any.mp hm
      obtain ⟨part', rest', rfl, hfront', hm⟩ :=
        (matches_append (not_any_of_passed hfront)).mp hm
      -- the tokens in front fit no earlier, so what is behind them now is behind them then
      have hlen : part.length = part'.length := hfront.length_eq.symm.trans hfront'.length_eq
      rw [← List.append_assoc] at hmark
      rcases List.append_eq_append_iff.mp hmark with ⟨extra, -, hover⟩ | ⟨extra, hshort, hover⟩
      · rw [hover]
        exact matches_any_append extra hm
      · have hzero : extra = [] := by
          have := congrArg List.length hshort
          rw [List.length_append, List.length_append] at this
          exact List.length_eq_zero_iff.mp (by omega)
        rwa [hover, hzero, List.nil_append] at hm
    · intro hm
      exact matches_any.mpr ⟨[], part ++ s.rest, rfl,
        (matches_append (not_any_of_passed hfront)).mpr ⟨part, s.rest, rfl, hfront, hm⟩⟩

theorem wanted_of_not (h : s.Passed same) {c : α} (hstar : s.star = some (tokens, c :: mark))
    (hnot : ¬ Matches same s.tokens s.rest) :
    s.Wanted same ↔ Matches same (.any :: tokens) mark := by
  rw [Wanted, hstar]
  dsimp only
  rw [matches_any_cons, wanted_now h hstar, or_iff_right hnot]

/-- What a turn can do. -/
theorem turn_cases (s : State α β) :
    (s.rest = [] ∧ s.turn same = .inl (s.tokens.all Token.isAny)) ∨
    (s.rest ≠ [] ∧ ∃ tokens, s.tokens = .any :: tokens ∧
      s.turn same = .inr ⟨s.rest, tokens, some (tokens, s.rest)⟩) ∨
    (∃ c rest t tokens, s.rest = c :: rest ∧ s.tokens = t :: tokens ∧ fits same t c ∧
      s.turn same = .inr ⟨rest, tokens, s.star⟩) ∨
    (s.rest ≠ [] ∧ ¬ Matches same s.tokens s.rest ∧ s.turn same = s.retry) := by
  obtain ⟨rest, tokens, star⟩ := s
  cases rest with
  | nil => exact .inl ⟨rfl, rfl⟩
  | cons c rest =>
    refine .inr ?_
    cases tokens with
    | nil =>
      refine .inr (.inr ⟨List.cons_ne_nil _ _, fun hm => ?_, rfl⟩)
      exact List.cons_ne_nil _ _ (matches_nil.mp hm)
    | cons t tokens =>
      by_cases ht : t = .any
      · subst ht
        exact .inl ⟨List.cons_ne_nil _ _, tokens, rfl, rfl⟩
      · have hturn : turn same ⟨c :: rest, t :: tokens, star⟩ =
            if fits same t c then .inr ⟨rest, tokens, star⟩
            else retry ⟨c :: rest, t :: tokens, star⟩ := by
          cases t with
          | any => exact absurd rfl ht
          | one => rfl
          | item b => rfl
        refine .inr ?_
        by_cases hfits : fits same t c = true
        · refine .inl ⟨c, rest, t, tokens, rfl, rfl, hfits, ?_⟩
          rw [hturn, if_pos hfits]
        · refine .inr ⟨List.cons_ne_nil _ _, fun hm => ?_, ?_⟩
          · obtain ⟨d, rest', hrest, hd, -⟩ := (matches_single ht).mp hm
            obtain ⟨rfl, -⟩ := List.cons.inj hrest
            exact hfits hd
          · rw [hturn, if_neg hfits]

theorem Passed.mark_ne_nil (h : s.Passed same) (hrest : s.rest ≠ [])
    (hstar : s.star = some (tokens, mark)) : mark ≠ [] := by
  obtain ⟨front, part, -, rfl, -⟩ := h _ _ hstar
  exact List.append_ne_nil_of_right_ne_nil _ hrest

theorem turn_passed (h : s.Passed same) (hturn : s.turn same = .inr s') :
    s'.Passed same ∧ (s'.Wanted same ↔ s.Wanted same) := by
  rcases turn_cases s with ⟨-, hlast⟩ | ⟨-, tokens, hany, hnext⟩ |
    ⟨c, rest, t, tokens, hrest, htokens, hfits, hnext⟩ | ⟨hrest, hnot, hnext⟩
  · exact nomatch hlast.symm.trans hturn
  · obtain rfl := Sum.inr.inj (hnext.symm.trans hturn)
    refine ⟨?_, (wanted_of_any h hany).symm⟩
    intro before mark hstar
    obtain ⟨rfl, rfl⟩ := Prod.mk.inj (Option.some.inj hstar)
    exact ⟨[], [], rfl, rfl, .nil⟩
  · obtain rfl := Sum.inr.inj (hnext.symm.trans hturn)
    constructor
    · intro before mark hstar
      obtain ⟨front, part, rfl, rfl, hfront⟩ := h _ _ hstar
      refine ⟨front ++ [t], part ++ [c], ?_, ?_, List.rel_append hfront (.cons hfits .nil)⟩
      · rw [htokens, List.append_assoc, List.singleton_append]
      · rw [hrest, List.append_assoc, List.singleton_append]
    · rw [Wanted, Wanted]
      cases hstar : s.star with
      | none =>
        dsimp only
        rw [hrest, htokens, matches_single (not_any_of_fits hfits)]
        constructor
        · exact fun hm => ⟨c, rest, rfl, hfits, hm⟩
        · rintro ⟨d, rest', hcons, -, hm⟩
          rwa [(List.cons.inj hcons).2]
      | some star => rfl
  · rw [hturn, retry] at hnext
    cases hstar : s.star with
    | none =>
      rw [hstar] at hnext
      exact nomatch hnext
    | some star =>
      obtain ⟨tokens, mark⟩ := star
      rw [hstar] at hnext
      obtain rfl := Sum.inr.inj hnext
      obtain ⟨c, mark, rfl⟩ := List.exists_cons_of_ne_nil (h.mark_ne_nil hrest hstar)
      refine ⟨?_, (wanted_of_not h hstar hnot).symm⟩
      intro before mark' hstar'
      obtain ⟨rfl, rfl⟩ := Prod.mk.inj (Option.some.inj hstar')
      exact ⟨[], [], rfl, rfl, .nil⟩

theorem turn_last (h : s.Passed same) {answer : Bool} (hturn : s.turn same = .inl answer) :
    s.Settled same answer := by
  rw [Settled]
  rcases turn_cases s with ⟨hrest, hlast⟩ | ⟨-, tokens, -, hnext⟩ |
    ⟨c, rest, t, tokens, -, -, -, hnext⟩ | ⟨hrest, hnot, hnext⟩
  · obtain rfl := Sum.inl.inj (hlast.symm.trans hturn)
    rw [wanted_of_end h hrest, matches_empty]
  · exact nomatch hnext.symm.trans hturn
  · exact nomatch hnext.symm.trans hturn
  · rw [hturn, retry] at hnext
    cases hstar : s.star with
    | none =>
      rw [hstar] at hnext
      obtain rfl := Sum.inl.inj hnext
      rw [Wanted, hstar]
      exact iff_of_false Bool.false_ne_true hnot
    | some star =>
      rw [hstar] at hnext
      exact nomatch hnext

/-- The turns left at most for a list of length `n`: every token that takes any run is begun once at
every place, and goes on item by item. -/
def turnsLeft (n : ℕ) (s : State α β) : ℕ :=
  match s.star with
  | none => ((s.tokens.length + 1) * (n + 1) + n) * (n + 1) + s.rest.length
  | some (tokens, mark) => (tokens.length * (n + 1) + mark.length) * (n + 1) + s.rest.length

/-- What is left of the list is no longer than at the start. -/
structure Fitting (same : β → α → Bool) (n : ℕ) (s : State α β) : Prop where
  passed : s.Passed same
  rest : s.rest.length ≤ n
  mark : ∀ tokens mark, s.star = some (tokens, mark) → mark.length ≤ n

theorem Fitting.turn {n : ℕ} (h : s.Fitting same n) (hturn : s.turn same = .inr s') :
    s'.Fitting same n ∧ turnsLeft n s' < turnsLeft n s := by
  have hpassed := (turn_passed h.passed hturn).1
  rcases turn_cases s with ⟨-, hlast⟩ | ⟨-, tokens, hany, hnext⟩ |
    ⟨c, rest, t, tokens, hrest, htokens, hfits, hnext⟩ | ⟨hrest, hnot, hnext⟩
  · exact nomatch hlast.symm.trans hturn
  · obtain rfl := Sum.inr.inj (hnext.symm.trans hturn)
    refine ⟨⟨hpassed, h.rest, ?_⟩, ?_⟩
    · intro before mark hstar
      obtain ⟨-, rfl⟩ := Prod.mk.inj (Option.some.inj hstar)
      exact h.rest
    · have hle := h.rest
      have hstep {k : ℕ} (hk : tokens.length + 1 ≤ k) (m : ℕ) :
          (tokens.length * (n + 1) + s.rest.length) * (n + 1) + s.rest.length <
            (k * (n + 1) + m) * (n + 1) + s.rest.length := by
        have hmul : (tokens.length + 1) * (n + 1) ≤ k * (n + 1) := Nat.mul_le_mul_right _ hk
        rw [Nat.succ_mul] at hmul
        refine Nat.add_lt_add_right (Nat.mul_lt_mul_of_pos_right ?_ (Nat.succ_pos n)) _
        omega
      rw [turnsLeft, turnsLeft]
      cases hstar : s.star with
      | none => exact hstep (by rw [hany, List.length_cons]; omega) n
      | some star =>
        obtain ⟨before, mark⟩ := star
        obtain ⟨front, part, rfl, -, -⟩ := h.passed _ _ hstar
        refine hstep ?_ mark.length
        rw [List.length_append, hany, List.length_cons]
        omega
  · obtain rfl := Sum.inr.inj (hnext.symm.trans hturn)
    have hrestLen : s.rest.length = rest.length + 1 := by rw [hrest, List.length_cons]
    have hle := h.rest
    refine ⟨⟨hpassed, by change rest.length ≤ n; omega, h.mark⟩, ?_⟩
    rw [turnsLeft, turnsLeft]
    cases s.star with
    | none =>
      dsimp only
      have htok : tokens.length + 1 + 1 = s.tokens.length + 1 := by
        rw [htokens, List.length_cons]
      have hmul : (tokens.length + 1) * (n + 1) ≤ (s.tokens.length + 1) * (n + 1) :=
        Nat.mul_le_mul_right _ (by omega)
      have hmul' : ((tokens.length + 1) * (n + 1) + n) * (n + 1) ≤
          ((s.tokens.length + 1) * (n + 1) + n) * (n + 1) := Nat.mul_le_mul_right _ (by omega)
      omega
    | some star =>
      dsimp only
      omega
  · rw [hturn, retry] at hnext
    cases hstar : s.star with
    | none =>
      rw [hstar] at hnext
      exact nomatch hnext
    | some star =>
      obtain ⟨tokens, mark⟩ := star
      rw [hstar] at hnext
      obtain rfl := Sum.inr.inj hnext
      obtain ⟨c, mark, rfl⟩ := List.exists_cons_of_ne_nil (h.passed.mark_ne_nil hrest hstar)
      have hmark := h.mark _ _ hstar
      rw [List.length_cons] at hmark
      refine ⟨⟨hpassed, ?_, ?_⟩, ?_⟩
      · change mark.length ≤ n
        omega
      · intro before mark' hstar'
        obtain ⟨-, rfl⟩ := Prod.mk.inj (Option.some.inj hstar')
        change mark.length ≤ n
        omega
      · rw [turnsLeft, turnsLeft, hstar]
        dsimp only [List.tail_cons]
        have hmul : (tokens.length * (n + 1) + (c :: mark).length) * (n + 1) =
            (tokens.length * (n + 1) + mark.length) * (n + 1) + (n + 1) := by
          rw [List.length_cons, ← Nat.add_assoc, Nat.succ_mul]
        have hpos : 0 < s.rest.length := List.length_pos_iff.mpr hrest
        omega

end State

variable {same : β → α → Bool} {tokens : List (Token β)} {v : List α}

def start (tokens : List (Token β)) (v : List α) : State α β :=
  ⟨v, tokens, none⟩

theorem start_fitting : (start tokens v).Fitting same v.length where
  passed _ _ h := nomatch h
  rest := Nat.le_refl _
  mark _ _ h := nomatch h

def turns (tokens v : ℕ) : ℕ :=
  (tokens + 2) * (v + 1) * (v + 1)

theorem turnsLeft_start : (start tokens v).turnsLeft v.length < turns tokens.length v.length := by
  change ((tokens.length + 1) * (v.length + 1) + v.length) * (v.length + 1) + v.length < _
  rw [turns]
  have hmul : (tokens.length + 2) * (v.length + 1) * (v.length + 1) =
      ((tokens.length + 1) * (v.length + 1) + v.length) * (v.length + 1) + (v.length + 1) := by
    ring
  omega

theorem run_start {n : ℕ} (hn : turns tokens.length v.length ≤ n) : ∃ answer : Bool,
    Loop.run (State.turn same) n (start tokens v) = some answer ∧
      (answer ↔ Matches same tokens v) := by
  obtain ⟨answer, hrun⟩ := Loop.exists_run (fun s s' hs h => (State.Fitting.turn hs h).1)
    (fun s s' hs h => (State.Fitting.turn hs h).2) start_fitting
      (Nat.lt_of_lt_of_le turnsLeft_start hn)
  have hsettled : (start tokens v).Settled same answer :=
    Loop.answers_of_run (fun s s' hs h => (State.turn_passed hs h).1)
      (fun s e hs h => State.turn_last hs h)
      (fun s s' e hs h he => Iff.trans he (State.turn_passed hs h).2) start_fitting.passed hrun
  exact ⟨answer, hrun, hsettled⟩

end Wildcard
