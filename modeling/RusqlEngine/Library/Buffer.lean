import Mathlib.Data.List.Basic
import Mathlib.Tactic.Ring

/-!
# Buffers

Reads from a list at a position, each of which could lie outside of it, and numbers as bytes with
the lowest byte first.
-/

namespace Buffer

/-- `std::uint8_t`. -/
abbrev Byte := Fin 256

-- The numerals of one, two and four bytes.
instance byte_neZero : NeZero 256 := ⟨by decide⟩

instance word_neZero : NeZero 65536 := ⟨by decide⟩

instance dword_neZero : NeZero 4294967296 := ⟨by decide⟩

instance byte_lawfulBEq : LawfulBEq Byte := inferInstance

/-- `std::string` and `std::vector<std::uint8_t>`. -/
abbrev Bytes := List Byte

instance bytes_lawfulBEq : LawfulBEq Bytes := List.instLawfulBEq

inductive ReadFault
  | outside
deriving DecidableEq

abbrev Reading := Except ReadFault

section

variable {α β : Type}

def readAt (buf : List α) (i : ℕ) : Reading α :=
  match buf.drop i with
  | a :: _ => .ok a
  | [] => .error .outside

/-- `len` items from `pos` on are copied. -/
def readSlice (buf : List α) (pos len : ℕ) : Reading (List α) :=
  if pos + len ≤ buf.length then .ok ((buf.drop pos).take len) else .error .outside

def Inside (read : Reading α) : Prop :=
  ∃ a, read = .ok a

theorem inside_ok (a : α) : Inside (.ok a) :=
  ⟨a, rfl⟩

theorem Inside.bind {read : Reading α} {next : α → Reading β} (h : Inside read)
    (hnext : ∀ a, Inside (next a)) : Inside (read >>= next) := by
  obtain ⟨a, rfl⟩ := h
  exact hnext a

theorem ok_bind (a : α) (next : α → Reading β) : ((.ok a : Reading α) >>= next) = next a :=
  rfl

variable {buf : List α}

theorem readAt_of_drop {rest : List α} {i : ℕ} {a : α} (h : buf.drop i = a :: rest) :
    readAt buf i = .ok a := by
  rw [readAt, h]

theorem readAt_of_getElem? {i : ℕ} {a : α} (h : buf[i]? = some a) : readAt buf i = .ok a := by
  obtain ⟨hlt, rfl⟩ := List.getElem?_eq_some_iff.mp h
  exact readAt_of_drop (List.drop_eq_getElem_cons hlt)

theorem readAt_inside {i : ℕ} (h : i + 1 ≤ buf.length) : Inside (readAt buf i) := by
  obtain ⟨a, rest, hdrop⟩ := List.exists_cons_of_ne_nil (mt List.drop_eq_nil_iff.mp (not_le.mpr h))
  exact ⟨a, readAt_of_drop hdrop⟩

theorem readSlice_of_le {pos len : ℕ} (h : pos + len ≤ buf.length) :
    readSlice buf pos len = .ok ((buf.drop pos).take len) :=
  if_pos h

theorem readSlice_inside {pos len : ℕ} (h : pos + len ≤ buf.length) :
    Inside (readSlice buf pos len) :=
  ⟨_, readSlice_of_le h⟩

theorem readSlice_append (before slice rest : List α) :
    readSlice (before ++ (slice ++ rest)) before.length slice.length = .ok slice := by
  rw [readSlice_of_le (by simp only [List.length_append]; omega), List.drop_left, List.take_left]

end

/-- The lowest `k` bytes of a number. -/
def leBytes : ℕ → ℕ → Bytes
  | 0, _ => []
  | k + 1, n => Fin.ofNat 256 n :: leBytes k (n / 256)

def leNat : Bytes → ℕ
  | [] => 0
  | b :: bytes => b.val + 256 * leNat bytes

@[simp]
theorem length_leBytes (k n : ℕ) : (leBytes k n).length = k := by
  induction k generalizing n with
  | zero => rfl
  | succ k ih => rw [leBytes, List.length_cons, ih]

theorem leNat_leBytes {k n : ℕ} (h : n < 256 ^ k) : leNat (leBytes k n) = n := by
  induction k generalizing n with
  | zero =>
    rw [pow_zero] at h
    exact (Nat.lt_one_iff.mp h).symm
  | succ k ih =>
    have hhigh : n / 256 < 256 ^ k := by
      rw [pow_succ] at h
      omega
    rw [leBytes, leNat, ih hhigh, Fin.val_ofNat]
    omega

theorem leNat_lt : ∀ bytes : Bytes, leNat bytes < 256 ^ bytes.length
  | [] => Nat.one_pos
  | b :: bytes => by
      have hrest := leNat_lt bytes
      have hb := b.isLt
      rw [leNat, List.length_cons, pow_succ]
      omega

end Buffer
