import RusqlEngine.Library.Wildcard
import RusqlEngine.CollationKey

/-!
# LIKE

`like` walks over value and pattern and, where they part, back to the last `%`. It has one walk over
code points and one over the bytes of texts that are all ASCII, which takes the weights from a table
of 128 entries.
-/

namespace RusqlEngine.UnicodeCollation

open Wildcard
open Buffer (Bytes)

def percent : ℕ := 0x25

def underscore : ℕ := 0x5F

def backslash : ℕ := 0x5C

/-- Where the loop is: the value from `vi` on and the pattern from `pi` on; behind a `%`, the
pattern from there on and the value from `mark` on. -/
structure LikeState where
  value : List ℕ
  pattern : List ℕ
  star : Option (List ℕ × List ℕ)

def escaped : List ℕ → Option (ℕ × List ℕ)
  | b :: x :: rest => if b = backslash then some (x, rest) else none
  | _ => none

namespace LikeState

/-- The last `%` takes one character more. -/
def retry (s : LikeState) : Bool ⊕ LikeState :=
  match s.star with
  | some (pattern, mark) => .inr ⟨mark.tail, pattern, some (pattern, mark.tail)⟩
  | none => .inl false

/-- A turn of the loop, and where the value is at its end the loop over the `%` that are left. -/
def turn (same : ℕ → ℕ → Bool) (s : LikeState) : Bool ⊕ LikeState :=
  match s.value with
  | [] => .inl (s.pattern.dropWhile (· = percent)).isEmpty
  | c :: value =>
    if s.pattern.head? = some percent then
      .inr ⟨c :: value, s.pattern.tail, some (s.pattern.tail, c :: value)⟩
    else
      match escaped s.pattern with
      | some (x, rest) => if same x c then .inr ⟨value, rest, s.star⟩ else s.retry
      | none =>
        match s.pattern with
        | b :: rest => if b = underscore || same b c then .inr ⟨value, rest, s.star⟩ else s.retry
        | [] => s.retry

end LikeState

/-- The loop, with as many turns as it can take. -/
def likeWalk (same : ℕ → ℕ → Bool) (value pattern : List ℕ) : Option Bool :=
  Loop.run (LikeState.turn same) (turns pattern.length value.length) ⟨value, pattern, none⟩

variable (table : Table)

def sameWeights (a b : ℕ) : Bool :=
  a = b || table.weightsOf a = table.weightsOf b

/-- The entries `n` and `w` of the ASCII table. -/
def asciiCount (c : ℕ) : ℕ :=
  (table.asciiWeights (Fin.ofNat 256 c)).length

def asciiWeight (c : ℕ) : Weight :=
  (table.asciiWeights (Fin.ofNat 256 c)).headD 0

/-- The lambda `same` of `like_ascii`. -/
def sameAscii (a b : ℕ) : Bool :=
  a = b || asciiCount table a = asciiCount table b &&
    (asciiCount table a = 0 || asciiWeight table a = asciiWeight table b)

def allAscii (s : Bytes) : Bool :=
  s.all fun c => c < 0x80

def likeAscii (value pattern : Bytes) : Option Bool :=
  likeWalk (sameAscii table) (value.map Fin.val) (pattern.map Fin.val)

/-- The code points of a text behind the bytes that belong to one already read. -/
def codePointsFrom : ℕ → Bytes → List ℕ
  | _, [] => []
  | skip + 1, _ :: s => codePointsFrom skip s
  | 0, c :: s => (decode c s).1 :: codePointsFrom ((decode c s).2 - 1) s

def codePoints (s : Bytes) : List ℕ :=
  codePointsFrom 0 s

def like (value pattern : Bytes) : Option Bool :=
  if isNullText value then some false
  else if allAscii value && allAscii pattern then likeAscii table value pattern
  else likeWalk (sameWeights table) (codePoints value) (codePoints pattern)

/-! ### What a pattern says -/

def plainToken (b : ℕ) : Wildcard.Token ℕ :=
  if b = percent then .any else if b = underscore then .one else .item b

/-- The tokens of a pattern: behind a backslash a character stands for itself, and so does a
backslash at the end. -/
def tokens : List ℕ → List (Wildcard.Token ℕ)
  | [] => []
  | [b] => [plainToken b]
  | b :: x :: rest =>
    if b = backslash then .item x :: tokens rest else plainToken b :: tokens (x :: rest)

section

variable {same : ℕ → ℕ → Bool}

theorem tokens_cons {b : ℕ} {rest : List ℕ} (h : escaped (b :: rest) = none) :
    tokens (b :: rest) = plainToken b :: tokens rest := by
  cases rest with
  | nil => rfl
  | cons x rest =>
    have hb : b ≠ backslash := by
      rintro rfl
      exact nomatch h
    rw [tokens, if_neg hb]

theorem tokens_escaped {pattern rest : List ℕ} {x : ℕ} (h : escaped pattern = some (x, rest)) :
    tokens pattern = .item x :: tokens rest := by
  match pattern with
  | [] => exact nomatch h
  | [_] => exact nomatch h
  | b :: y :: rest' =>
    rw [escaped] at h
    split at h
    next hb =>
      obtain ⟨rfl, rfl⟩ := Prod.mk.inj (Option.some.inj h)
      rw [tokens, if_pos hb]
    next => exact nomatch h

theorem escaped_percent (rest : List ℕ) : escaped (percent :: rest) = none := by
  cases rest with
  | nil => rfl
  | cons x rest =>
    have hne : percent ≠ backslash := by decide
    rw [escaped, if_neg hne]

theorem length_tokens_le : ∀ pattern : List ℕ, (tokens pattern).length ≤ pattern.length
  | [] => Nat.le_refl _
  | [_] => Nat.le_refl _
  | b :: x :: rest => by
      rw [tokens]
      split
      · exact Nat.succ_le_succ ((length_tokens_le rest).trans (Nat.le_succ _))
      · exact Nat.succ_le_succ (length_tokens_le (x :: rest))

/-- Only a pattern of `%` leaves nothing over. -/
theorem all_isAny_tokens : ∀ pattern : List ℕ,
    (tokens pattern).all Token.isAny = (pattern.dropWhile (· = percent)).isEmpty
  | [] => rfl
  | b :: rest => by
      by_cases hb : b = percent
      · subst hb
        rw [tokens_cons (escaped_percent rest), List.dropWhile_cons_of_pos (by simp),
          List.all_cons, all_isAny_tokens rest]
        rfl
      · rw [List.dropWhile_cons_of_neg (by simpa using hb)]
        cases hesc : escaped (b :: rest) with
        | some found =>
          obtain ⟨x, rest'⟩ := found
          rw [tokens_escaped hesc]
          rfl
        | none =>
          rw [tokens_cons hesc, List.all_cons, plainToken, if_neg hb]
          split <;> rfl

def LikeState.read (s : LikeState) : State ℕ ℕ :=
  ⟨s.value, tokens s.pattern, s.star.map fun star => (tokens star.1, star.2)⟩

theorem LikeState.read_retry (s : LikeState) : s.read.retry = s.retry.map id read := by
  rw [retry, State.retry, read]
  cases s.star <;> rfl

theorem LikeState.read_turn (s : LikeState) : s.read.turn same = (s.turn same).map id read := by
  obtain ⟨value, pattern, star⟩ := s
  cases value with
  | nil => exact congrArg Sum.inl (all_isAny_tokens pattern)
  | cons c value =>
    cases pattern with
    | nil => exact read_retry ⟨c :: value, [], star⟩
    | cons b rest =>
      have hretry := read_retry ⟨c :: value, b :: rest, star⟩
      by_cases hb : b = percent
      · subst hb
        have hread : tokens (percent :: rest) = .any :: tokens rest :=
          tokens_cons (escaped_percent rest)
        rw [turn, read, State.turn]
        simp only [hread, List.head?_cons, if_true]
        rfl
      · have hhead : (b :: rest).head? ≠ some percent := fun h => hb (Option.some.inj h)
        cases hesc : escaped (b :: rest) with
        | some found =>
          obtain ⟨x, rest'⟩ := found
          rw [read, tokens_escaped hesc] at hretry ⊢
          rw [turn, State.turn]
          by_cases hsame : same x c = true
          · simp only [if_neg hhead, hesc, fits, hsame, if_true]
            rfl
          · simp only [if_neg hhead, hesc, fits, hsame, Bool.false_eq_true, if_false]
            exact hretry
        | none =>
          rw [read, tokens_cons hesc] at hretry ⊢
          rw [turn, State.turn]
          simp only [if_neg hhead, hesc]
          by_cases hone : b = underscore
          · simp only [fits, hone, decide_true, Bool.true_or, if_true]
            rfl
          · have htoken : plainToken b = .item b := by
              rw [plainToken, if_neg hb, if_neg hone]
            rw [htoken] at hretry
            by_cases hsame : same b c = true
            · simp only [htoken, fits, hone, hsame, Bool.or_true, if_true]
              rfl
            · simp only [htoken, fits, hone, hsame, decide_false, Bool.or_false,
                Bool.false_eq_true, if_false]
              exact hretry

/-- The loop comes to an end, and finds out whether the value can be divided among the tokens of the
pattern. -/
theorem likeWalk_spec (same : ℕ → ℕ → Bool) (value pattern : List ℕ) : ∃ answer : Bool,
    likeWalk same value pattern = some answer ∧
      (answer ↔ Matches same (tokens pattern) value) := by
  have henough : turns (tokens pattern).length value.length ≤
      turns pattern.length value.length :=
    Nat.mul_le_mul_right _ (Nat.mul_le_mul_right _ (Nat.add_le_add_right (length_tokens_le _) 2))
  obtain ⟨answer, hrun, hanswer⟩ : ∃ answer : Bool, Loop.run (State.turn same)
      (turns pattern.length value.length) (start (tokens pattern) value) =
        some answer ∧ (answer ↔ Matches same (tokens pattern) value) :=
    run_start henough
  refine ⟨answer, ?_, hanswer⟩
  rw [likeWalk, ← Loop.run_map LikeState.read_turn]
  exact hrun

end

end RusqlEngine.UnicodeCollation
