import Mathlib.Data.Nat.Digits.Defs
import Mathlib.Data.List.TakeWhile
import RusqlEngine.Library.ListEdit

/-!
# Length-prefixed tuples

A tuple of texts is written as one text: each part after its size in bytes and a
colon. No two tuples are written alike.
-/

namespace LengthPrefix

def part (text : String) : String :=
  toString text.utf8ByteSize ++ ":" ++ text

def encode : List String → String
  | [] => ""
  | text :: rest => part text ++ encode rest

theorem toList_part_append (text rest : String) :
    (part text ++ rest).toList =
      Nat.toDigits 10 text.utf8ByteSize ++ ':' :: (text ++ rest).toList := by
  simp [part]

theorem encode_cons_ne_nil (text : String) (rest : List String) : encode (text :: rest) ≠ "" := by
  intro h
  have hlist := congrArg String.toList h
  rw [encode, toList_part_append] at hlist
  simp at hlist

theorem colon_not_mem_toDigits (n : Nat) : ':' ∉ Nat.toDigits 10 n := by
  intro h
  have hdigit := Nat.isDigit_of_mem_toDigits (by decide) (by decide) h
  revert hdigit
  decide

theorem split_at_mark {mark : Char} {xs ys rest rest' : List Char} (hx : mark ∉ xs)
    (hy : mark ∉ ys) (h : xs ++ mark :: rest = ys ++ mark :: rest') : xs = ys ∧ rest = rest' := by
  obtain ⟨hparts, -, hrest⟩ := ListEdit.append_cons_inj_of_forall
    (fun _ hc => ne_of_mem_of_not_mem hc hx) (fun _ hc => ne_of_mem_of_not_mem hc hy)
    (fun h => h rfl) (fun h => h rfl) h
  exact ⟨hparts, hrest⟩

theorem eq_of_append_eq {a b rest rest' : String} (hsize : a.utf8ByteSize = b.utf8ByteSize)
    (h : (a ++ rest).toList = (b ++ rest').toList) : a = b ∧ rest = rest' := by
  have hlist : a.toList ++ rest.toList = b.toList ++ rest'.toList := by simpa using h
  have hab : a = b := by
    rcases List.append_eq_append_iff.mp hlist with ⟨d, hd, -⟩ | ⟨d, hd, -⟩
    · have hb : b = a ++ String.ofList d := by
        apply String.toList_injective
        simpa using hd
      have hzero : (String.ofList d).utf8ByteSize = 0 := by
        rw [hb, String.utf8ByteSize_append] at hsize
        omega
      rw [String.utf8ByteSize_eq_zero_iff] at hzero
      rw [hb, hzero, String.append_empty]
    · have ha : a = b ++ String.ofList d := by
        apply String.toList_injective
        simpa using hd
      have hzero : (String.ofList d).utf8ByteSize = 0 := by
        rw [ha, String.utf8ByteSize_append] at hsize
        omega
      rw [String.utf8ByteSize_eq_zero_iff] at hzero
      rw [ha, hzero, String.append_empty]
  subst hab
  exact ⟨rfl, String.toList_injective (List.append_cancel_left hlist)⟩

theorem encode_injective : Function.Injective encode := by
  intro parts parts' h
  induction parts generalizing parts' with
  | nil =>
    cases parts' with
    | nil => rfl
    | cons text rest => exact absurd h.symm (encode_cons_ne_nil text rest)
  | cons text rest ih =>
    cases parts' with
    | nil => exact absurd h (encode_cons_ne_nil text rest)
    | cons text' rest' =>
      have hlist := congrArg String.toList h
      rw [encode, encode, toList_part_append, toList_part_append] at hlist
      obtain ⟨hdigits, htexts⟩ := split_at_mark (colon_not_mem_toDigits _)
        (colon_not_mem_toDigits _) hlist
      have hsize : text.utf8ByteSize = text'.utf8ByteSize := by
        have hnum := congrArg (fun ds => Nat.ofDigitChars 10 ds 0) hdigits
        simpa only [Nat.ofDigitChars_ten_toDigits] using hnum
      obtain ⟨rfl, hrest⟩ := eq_of_append_eq hsize htexts
      rw [ih hrest]

end LengthPrefix
