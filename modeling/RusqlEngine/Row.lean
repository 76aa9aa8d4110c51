import Mathlib.Data.Finmap
import Mathlib.Data.List.TakeWhile

/-!
# Rows and transaction ids as texts

A row is an unordered map from column names to texts. `_xmin` and `_xmax` hold the ids of the
transactions that created and ended the version, written with `std::to_string`; `"0"` in `_xmax` is
a version that nothing has ended. Readers parse the texts with `std::stoull` (`parseTxnId`) or
`std::strtoull` (the buffer pool).
-/

namespace RusqlEngine

/-- `std::unordered_map<std::string, std::string>`. -/
abbrev Row := Finmap fun _ : String => String

namespace Row

def ofCells (cells : List (String × String)) : Row :=
  (cells.map fun c => (⟨c.1, c.2⟩ : Sigma fun _ : String => String)).toFinmap

def find (r : Row) (col : String) : Option String :=
  r.lookup col

/-- `row[col] = v`. -/
def set (r : Row) (col v : String) : Row :=
  r.insert col v

@[simp] theorem find_set (r : Row) (col v : String) : (r.set col v).find col = some v :=
  Finmap.lookup_insert r

@[simp] theorem find_set_of_ne (r : Row) {col col' : String} (v : String) (h : col' ≠ col) :
    (r.set col v).find col' = r.find col' :=
  Finmap.lookup_insert_of_ne r h

theorem ext_find {r r' : Row} (h : ∀ col, r.find col = r'.find col) : r = r' :=
  Finmap.ext_lookup h

@[simp] theorem set_set (r : Row) (col v w : String) : (r.set col v).set col w = r.set col w := by
  apply ext_find
  intro c
  by_cases h : c = col
  · subst c
    simp
  · simp [h]

theorem set_eq_self {r : Row} {col v : String} (h : r.find col = some v) : r.set col v = r := by
  apply ext_find
  intro c
  by_cases hc : c = col
  · subst c
    simp [h]
  · simp [hc]

end Row

/-- The largest value of a `std::uint64_t`. -/
def uint64Max : Nat :=
  2 ^ 64 - 1

/-- `std::to_string` of a transaction id. -/
def stdToString (n : Nat) : String :=
  toString n

/-- `std::isspace` of the C locale. -/
def isSpace (c : Char) : Bool :=
  c.toNat == 32 || (9 ≤ c.toNat && c.toNat ≤ 13)

/-- One leading sign, and what follows it. -/
def takeSign : List Char → Bool × List Char
  | [] => (false, [])
  | c :: cs => if c = '-' then (true, cs) else if c = '+' then (false, cs) else (false, c :: cs)

/-- What `std::strtoull` reads in base ten: white space and one sign are skipped,
the number ends at the first character that is no digit. `none` without a digit. -/
def scanUll (text : String) : Option (Bool × Nat) :=
  let signed := takeSign (text.toList.dropWhile isSpace)
  let digits := signed.2.takeWhile Char.isDigit
  if digits = [] then none else some (signed.1, Nat.ofDigitChars 10 digits 0)

/-- `std::stoull(text)`; `none` where it throws. -/
def stoull (text : String) : Option Nat :=
  (scanUll text).bind fun (neg, n) =>
    if n ≤ uint64Max then some (if neg then (2 ^ 64 - n) % 2 ^ 64 else n) else none

/-- `std::strtoull(text, nullptr, 10)`. -/
def strtoull (text : String) : Nat :=
  match scanUll text with
  | none => 0
  | some (neg, n) =>
    if n ≤ uint64Max then (if neg then (2 ^ 64 - n) % 2 ^ 64 else n) else uint64Max

theorem isSpace_of_isDigit {c : Char} (h : c.isDigit) : isSpace c = false := by
  have h48 : 48 ≤ c.toNat := by
    simp only [Char.isDigit, Bool.and_eq_true, decide_eq_true_eq] at h
    exact UInt32.le_iff_toNat_le.mp h.1
  simp only [isSpace, Bool.or_eq_false_iff, Bool.and_eq_false_iff, beq_eq_false_iff_ne,
    decide_eq_false_iff_not]
  omega

theorem takeSign_of_isDigit {c : Char} (h : c.isDigit) (cs : List Char) :
    takeSign (c :: cs) = (false, c :: cs) := by
  have hminus : c ≠ '-' := by
    rintro rfl
    revert h
    decide
  have hplus : c ≠ '+' := by
    rintro rfl
    revert h
    decide
  simp [takeSign, hminus, hplus]

theorem scanUll_stdToString (n : Nat) : scanUll (stdToString n) = some (false, n) := by
  have hlist : (stdToString n).toList = Nat.toDigits 10 n := Nat.toList_repr
  have hdigit : ∀ c ∈ Nat.toDigits 10 n, c.isDigit := fun c hc =>
    Nat.isDigit_of_mem_toDigits (by decide) (by decide) hc
  have htake : (Nat.toDigits 10 n).takeWhile Char.isDigit = Nat.toDigits 10 n :=
    List.takeWhile_eq_self_iff.mpr hdigit
  obtain ⟨c, cs, hc⟩ : ∃ c cs, Nat.toDigits 10 n = c :: cs :=
    List.exists_cons_of_ne_nil Nat.toDigits_ne_nil
  have hcd : c.isDigit := hdigit c (by simp [hc])
  have hdrop : (Nat.toDigits 10 n).dropWhile isSpace = Nat.toDigits 10 n := by
    simp [hc, isSpace_of_isDigit hcd]
  have hsign : takeSign (Nat.toDigits 10 n) = (false, Nat.toDigits 10 n) := by
    rw [hc]
    exact takeSign_of_isDigit hcd cs
  simp only [scanUll, hlist, hdrop, hsign, htake, Nat.toDigits_ne_nil, if_false,
    Nat.ofDigitChars_ten_toDigits]

theorem stoull_stdToString {n : Nat} (h : n ≤ uint64Max) : stoull (stdToString n) = some n := by
  simp [stoull, scanUll_stdToString, h]

theorem strtoull_stdToString {n : Nat} (h : n ≤ uint64Max) : strtoull (stdToString n) = n := by
  simp [strtoull, scanUll_stdToString, h]

theorem stdToString_injective {m n : Nat} (h : stdToString m = stdToString n) : m = n := by
  have hs := scanUll_stdToString m
  rw [h, scanUll_stdToString] at hs
  simpa using hs.symm

theorem stdToString_zero : stdToString 0 = "0" := rfl

theorem stdToString_eq_zero_iff {n : Nat} : stdToString n = "0" ↔ n = 0 :=
  ⟨fun h => stdToString_injective (n := 0) h, fun h => by
    subst h
    rfl⟩

/-- `parse_txn_id`: `0` for a cell that is absent or is no number. -/
def parseTxnId (row : Row) (col : String) : Nat :=
  match row.find col with
  | none => 0
  | some text => (stoull text).getD 0

/-- `txn_id_of` of the buffer pool. -/
def txnIdOf (row : Row) (field : String) : Nat :=
  match row.find field with
  | none => 0
  | some text => if text = "0" then 0 else strtoull text

end RusqlEngine
