import Mathlib.Data.Nat.Digits.Lemmas
import RusqlEngine.Library.DigitText

/-!
# Numerals

A numeral is a text of digits that does not start with a zero, or the text `0`. There is exactly one
for every number, and numerals are compared by their lengths and then digit by digit.
-/

namespace DigitText

def numeral (n : ℕ) : List (Fin 256) :=
  padded 1 n

structure IsNumeral (s : List (Fin 256)) : Prop where
  digits : ∀ b ∈ s, IsDigit b
  nonempty : s ≠ []
  lead : s.head? = some 0x30 → s = [0x30]

theorem value_numeral (n : ℕ) : value (numeral n) = n :=
  value_padded 1 n

theorem numeral_injective : Function.Injective numeral :=
  padded_injective 1

variable {n : ℕ}

theorem numeral_of_pos (h : 0 < n) : numeral n = (Nat.digits 10 n).reverse.map digitByte := by
  have hlen : 1 ≤ (Nat.digits 10 n).length :=
    List.length_pos_iff.mpr (Nat.digits_ne_nil_iff_ne_zero.mpr h.ne')
  rw [numeral, padded, Nat.sub_eq_zero_of_le hlen, List.replicate_zero, List.nil_append]

theorem digit_mem_numeral {b : Fin 256} (h : b ∈ numeral n) : IsDigit b :=
  isDigit_of_mem_padded h

theorem length_numeral_pos (n : ℕ) : 0 < (numeral n).length :=
  le_length_padded 1 n

theorem length_numeral_le_iff {k : ℕ} (hk : 0 < k) : (numeral n).length ≤ k ↔ n < 10 ^ k := by
  rcases Nat.eq_zero_or_pos n with rfl | hn
  · exact iff_of_true hk (Nat.pow_pos (by decide))
  · rw [numeral_of_pos hn, List.length_map, List.length_reverse]
    exact Nat.digits_length_le_iff (by decide) n

theorem lt_of_length_numeral_lt {m : ℕ} (h : (numeral m).length < (numeral n).length) : m < n := by
  have hm : m < 10 ^ (numeral m).length := (length_numeral_le_iff (length_numeral_pos m)).mp le_rfl
  have hn : 10 ^ (numeral m).length ≤ n :=
    not_lt.mp fun hlt => h.not_ge ((length_numeral_le_iff (length_numeral_pos m)).mpr hlt)
  exact hm.trans_le hn

variable {s : List (Fin 256)}

theorem eq_of_value_eq {t : List (Fin 256)} (hlen : s.length = t.length) (hs : ∀ b ∈ s, IsDigit b)
    (ht : ∀ b ∈ t, IsDigit b) (h : value s = value t) : s = t := by
  have hcompare := compare_value hlen hs ht
  rw [Nat.compare_eq_eq.mpr h] at hcompare
  exact Std.LawfulEqCmp.compare_eq_iff_eq.mp hcompare.symm

theorem eq_numeral_of_lead {b : Fin 256} (hs : ∀ c ∈ b :: s, IsDigit c) (hb : b ≠ 0x30) :
    b :: s = numeral (value (b :: s)) := by
  have hleast : 10 ^ s.length ≤ value (b :: s) := le_value (hs b List.mem_cons_self) hb
  have hlong : (numeral (value (b :: s))).length ≤ s.length + 1 :=
    (length_numeral_le_iff (Nat.succ_pos _)).mpr (value_lt hs)
  have hshort : s.length < (numeral (value (b :: s))).length := by
    rcases Nat.eq_zero_or_pos s.length with hzero | hpos
    · exact hzero ▸ length_numeral_pos _
    · exact not_le.mp fun hle => ((length_numeral_le_iff hpos).mp hle).not_ge hleast
  exact eq_of_value_eq (hlong.antisymm hshort).symm hs (fun _ => digit_mem_numeral)
    (value_numeral _).symm

theorem value_zero_cons (s : List (Fin 256)) : value (0x30 :: s) = value s := by
  rw [value_cons, show ((0x30 : Fin 256).val - 0x30) = 0 from rfl, Nat.zero_mul, Nat.zero_add]

theorem IsNumeral.eq_numeral (h : IsNumeral s) : s = numeral (value s) := by
  obtain ⟨b, t, rfl⟩ := List.exists_cons_of_ne_nil h.nonempty
  by_cases hb : b = 0x30
  · rw [h.lead (congrArg some hb)]
    rfl
  · exact eq_numeral_of_lead h.digits hb

theorem isNumeral_numeral (n : ℕ) : IsNumeral (numeral n) where
  digits _ := digit_mem_numeral
  nonempty := padded_ne_nil one_pos n
  lead h := by
    obtain ⟨t, ht⟩ := List.head?_eq_some_iff.mp h
    have hvalue : value t = n := by
      rw [← value_numeral n, ht, value_zero_cons]
    have hdigits : ∀ b ∈ t, IsDigit b := fun b hb =>
      digit_mem_numeral (ht ▸ List.mem_cons_of_mem _ hb)
    rw [ht]
    rcases Nat.eq_zero_or_pos t.length with hzero | hpos
    · rw [List.length_eq_zero_iff.mp hzero]
    · have hle := (length_numeral_le_iff hpos).mpr (hvalue ▸ value_lt hdigits)
      rw [ht, List.length_cons] at hle
      exact absurd hle (Nat.not_succ_le_self _)

theorem dropWhile_zeros_eq (hs : ∀ b ∈ s, IsDigit b) :
    s.dropWhile (· = 0x30) = if value s = 0 then [] else numeral (value s) := by
  induction s with
  | nil => rfl
  | cons b s ih =>
    obtain ⟨hb, hs'⟩ := List.forall_mem_cons.mp hs
    rw [List.dropWhile_cons]
    by_cases hzero : b = 0x30
    · rw [if_pos (decide_eq_true hzero), ih hs', hzero, value_zero_cons]
    · have hpos : value (b :: s) ≠ 0 :=
        ((Nat.pow_pos (by decide)).trans_le (le_value hb hzero)).ne'
      rw [if_neg (by simpa using hzero), if_neg hpos]
      exact eq_numeral_of_lead hs hzero

def reversed (n : ℕ) : List (Fin 256) :=
  (Nat.digits 10 n).map digitByte

theorem reversed_zero : reversed 0 = [] :=
  rfl

theorem reversed_of_pos (h : 0 < n) : reversed n = digitByte (n % 10) :: reversed (n / 10) := by
  rw [reversed, Nat.digits_def' (by decide) h]
  rfl

theorem numeral_reverse (h : 0 < n) : (numeral n).reverse = reversed n := by
  rw [numeral_of_pos h, ← List.map_reverse, List.reverse_reverse, reversed]

end DigitText
