import Mathlib.Data.Nat.Digits.Defs
import RusqlEngine.Library.Buffer
import RusqlEngine.Library.ListEdit

/-!
# Numbers as text

Decimal numbers as bytes, with leading zeros up to a width and with a sign. Two numbers written to
one width are written alike only when they are equal, and what follows the digits is found again.
-/

namespace DigitText

def digitByte (d : ℕ) : Fin 256 :=
  Fin.ofNat 256 (0x30 + d)

def IsDigit (b : Fin 256) : Prop :=
  0x30 ≤ b ∧ b ≤ 0x39

instance : DecidablePred IsDigit := fun b => inferInstanceAs (Decidable (0x30 ≤ b ∧ b ≤ 0x39))

theorem isDigit_iff_val {b : Fin 256} : IsDigit b ↔ 0x30 ≤ b.val ∧ b.val ≤ 0x39 :=
  Iff.rfl

/-- A number with at least so many digits. -/
def padded (width n : ℕ) : List (Fin 256) :=
  List.replicate (width - (Nat.digits 10 n).length) (digitByte 0) ++
    (Nat.digits 10 n).reverse.map digitByte

def signed (v : ℤ) : List (Fin 256) :=
  if v < 0 then 0x2D :: padded 1 v.natAbs else padded 1 v.natAbs

def value (text : List (Fin 256)) : ℕ :=
  Nat.ofDigits 10 (text.map fun b => b.val - 0x30).reverse

theorem val_digitByte {d : ℕ} (h : d < 10) : (digitByte d).val = 0x30 + d := by
  rw [digitByte, Fin.val_ofNat]
  omega

theorem isDigit_digitByte {d : ℕ} (h : d < 10) : IsDigit (digitByte d) := by
  rw [IsDigit, Fin.le_def, Fin.le_def, val_digitByte h]
  exact ⟨Nat.le_add_right _ _, Nat.add_le_add_left (Nat.le_of_lt_succ h) _⟩

theorem isDigit_of_mem_padded {width n : ℕ} {b : Fin 256} (h : b ∈ padded width n) : IsDigit b := by
  rcases List.mem_append.mp h with h | h
  · rw [List.eq_of_mem_replicate h]
    exact isDigit_digitByte (by decide)
  · obtain ⟨d, hd, rfl⟩ := List.mem_map.mp h
    exact isDigit_digitByte (Nat.digits_lt_base (by decide) (List.mem_reverse.mp hd))

theorem value_padded (width n : ℕ) : value (padded width n) = n := by
  have hzeros : (List.replicate (width - (Nat.digits 10 n).length) (digitByte 0)).map
      (fun b => b.val - 0x30) = List.replicate (width - (Nat.digits 10 n).length) 0 := by
    rw [List.map_replicate]
    rfl
  have hdigits : ((Nat.digits 10 n).reverse.map digitByte).map (fun b => b.val - 0x30) =
      (Nat.digits 10 n).reverse := by
    rw [List.map_map]
    conv_rhs => rw [← List.map_id (Nat.digits 10 n).reverse]
    apply List.map_congr_left
    intro d hd
    have hlt : d < 10 := Nat.digits_lt_base (by decide) (List.mem_reverse.mp hd)
    rw [Function.comp_apply, val_digitByte hlt, Nat.add_sub_cancel_left, id]
  rw [value, padded, List.map_append, hzeros, hdigits, List.reverse_append, List.reverse_reverse,
    List.reverse_replicate, Nat.ofDigits_append_replicate_zero, Nat.ofDigits_digits]

theorem padded_injective (width : ℕ) : Function.Injective (padded width) := by
  intro n m h
  rw [← value_padded width n, h, value_padded]

theorem le_length_padded (width n : ℕ) : width ≤ (padded width n).length := by
  rw [padded, List.length_append, List.length_replicate, List.length_map, List.length_reverse]
  omega

theorem padded_ne_nil {width : ℕ} (h : 0 < width) (n : ℕ) : padded width n ≠ [] :=
  List.ne_nil_of_length_pos (h.trans_le (le_length_padded width n))

theorem signed_head (v : ℤ) : ∃ b text, signed v = b :: text ∧ (b = 0x2D ∨ IsDigit b) := by
  rw [signed]
  split
  next => exact ⟨_, _, rfl, .inl rfl⟩
  next =>
    obtain ⟨b, text, h⟩ := List.exists_cons_of_ne_nil (padded_ne_nil one_pos v.natAbs)
    exact ⟨b, text, h, .inr (isDigit_of_mem_padded (h ▸ List.mem_cons_self))⟩

theorem padded_ne_minus {width n : ℕ} {text : List (Fin 256)} : padded width n ≠ 0x2D :: text := by
  intro h
  have hdigit : IsDigit 0x2D := isDigit_of_mem_padded (h ▸ List.mem_cons_self)
  exact absurd hdigit (by decide)

theorem signed_injective : Function.Injective signed := by
  intro v w h
  rw [signed, signed] at h
  split at h <;> split at h
  next hv hw =>
    have := padded_injective 1 (List.cons.inj h).2
    omega
  next => exact absurd h.symm padded_ne_minus
  next => exact absurd h padded_ne_minus
  next hv hw =>
    have := padded_injective 1 h
    omega

theorem value_cons (b : Fin 256) (text : List (Fin 256)) :
    value (b :: text) = (b.val - 0x30) * 10 ^ text.length + value text := by
  rw [value, value, List.map_cons, List.reverse_cons, Nat.ofDigits_append, List.length_reverse,
    List.length_map, Nat.ofDigits_singleton, Nat.mul_comm, Nat.add_comm]

theorem value_lt : ∀ {text : List (Fin 256)}, (∀ b ∈ text, IsDigit b) →
    value text < 10 ^ text.length
  | [], _ => Nat.one_pos
  | b :: text, h => by
      have hdigit : b.val - 0x30 ≤ 9 := by
        have := (isDigit_iff_val.mp (h b List.mem_cons_self)).2
        exact Nat.sub_le_of_le_add this
      calc
        value (b :: text) = (b.val - 0x30) * 10 ^ text.length + value text := value_cons b text
        _ < 9 * 10 ^ text.length + 10 ^ text.length :=
          Nat.add_lt_add_of_le_of_lt (Nat.mul_le_mul_right _ hdigit)
            (value_lt fun b hb => h b (.tail _ hb))
        _ = 10 ^ (b :: text).length := by
          rw [List.length_cons, Nat.pow_succ]
          omega

theorem le_value {b : Fin 256} {text : List (Fin 256)} (hb : IsDigit b) (h : b ≠ 0x30) :
    10 ^ text.length ≤ value (b :: text) := by
  have hone : 1 ≤ b.val - 0x30 := by
    have hle := (isDigit_iff_val.mp hb).1
    have hne : b.val ≠ 0x30 := Fin.val_ne_of_ne h
    omega
  calc
    10 ^ text.length ≤ (b.val - 0x30) * 10 ^ text.length := Nat.le_mul_of_pos_left _ hone
    _ ≤ value (b :: text) := value_cons b text ▸ Nat.le_add_right _ _

theorem compare_place {a b m u v : ℕ} (hu : u < m) (hv : v < m) :
    compare (a * m + u) (b * m + v) = (compare a b).then (compare u v) := by
  have hplace {a b u v : ℕ} (hu : u < m) (h : a < b) : a * m + u < b * m + v := by
    calc
      a * m + u < a * m + m := Nat.add_lt_add_left hu _
      _ = (a + 1) * m := (Nat.succ_mul a m).symm
      _ ≤ b * m := Nat.mul_le_mul_right m h
      _ ≤ b * m + v := Nat.le_add_right _ _
  rcases Nat.lt_trichotomy a b with h | rfl | h
  · rw [Nat.compare_eq_lt.mpr h, Nat.compare_eq_lt.mpr (hplace hu h), Ordering.lt_then]
  · rw [Nat.compare_eq_eq.mpr rfl, Ordering.eq_then]
    rcases Nat.lt_trichotomy u v with h | rfl | h
    · rw [Nat.compare_eq_lt.mpr h, Nat.compare_eq_lt.mpr (Nat.add_lt_add_left h _)]
    · rw [Nat.compare_eq_eq.mpr rfl, Nat.compare_eq_eq.mpr rfl]
    · rw [Nat.compare_eq_gt.mpr h, Nat.compare_eq_gt.mpr (Nat.add_lt_add_left h _)]
  · rw [Nat.compare_eq_gt.mpr h, Nat.compare_eq_gt.mpr (hplace hv h), Ordering.gt_then]

theorem compare_value : ∀ {xs ys : List (Fin 256)}, xs.length = ys.length →
    (∀ b ∈ xs, IsDigit b) → (∀ b ∈ ys, IsDigit b) → compare (value xs) (value ys) = compare xs ys
  | [], [], _, _, _ => rfl
  | x :: xs, y :: ys, h, hxs, hys => by
      have hlength : xs.length = ys.length := Nat.succ.inj h
      have hxs' : ∀ b ∈ xs, IsDigit b := fun b hb => hxs b (.tail _ hb)
      have hys' : ∀ b ∈ ys, IsDigit b := fun b hb => hys b (.tail _ hb)
      have hx := (isDigit_iff_val.mp (hxs x List.mem_cons_self)).1
      have hy := (isDigit_iff_val.mp (hys y List.mem_cons_self)).1
      have hhead : compare (x.val - 0x30) (y.val - 0x30) = compare x y := by
        change _ = compare x.val y.val
        rcases Nat.lt_trichotomy x.val y.val with hlt | heq | hgt
        · rw [Nat.compare_eq_lt.mpr hlt, Nat.compare_eq_lt.mpr (Nat.sub_lt_sub_right hx hlt)]
        · rw [heq, Nat.compare_eq_eq.mpr rfl, Nat.compare_eq_eq.mpr rfl]
        · rw [Nat.compare_eq_gt.mpr hgt, Nat.compare_eq_gt.mpr (Nat.sub_lt_sub_right hy hgt)]
      rw [value_cons, value_cons, List.compare_cons_cons, ← compare_value hlength hxs' hys',
        ← hhead, hlength]
      exact compare_place (hlength ▸ value_lt hxs') (value_lt hys')

theorem padded_split {width n m : ℕ} {rest rest' : List (Fin 256)} {x y : Fin 256}
    (hx : ¬ IsDigit x) (hy : ¬ IsDigit y)
    (h : padded width n ++ x :: rest = padded width m ++ y :: rest') :
    n = m ∧ x = y ∧ rest = rest' := by
  obtain ⟨hdigits, hend⟩ := ListEdit.append_cons_inj_of_forall
    (fun _ => isDigit_of_mem_padded) (fun _ => isDigit_of_mem_padded) hx hy h
  exact ⟨padded_injective width hdigits, hend⟩

theorem padded_succ (width n : ℕ) :
    padded (width + 1) n = padded width (n / 10) ++ [digitByte (n % 10)] := by
  rcases Nat.eq_zero_or_pos n with rfl | hn
  · rw [padded, padded, Nat.zero_div, Nat.zero_mod, Nat.digits_zero]
    simp [List.replicate_succ']
  · rw [padded, padded, Nat.digits_def' (by decide) hn, List.length_cons, List.reverse_cons,
      List.map_append, List.map_singleton, Nat.add_sub_add_right, List.append_assoc]

theorem padded_add (width places n : ℕ) :
    padded (width + places) n =
      padded width (n / 10 ^ places) ++ padded places (n % 10 ^ places) := by
  induction places generalizing n with
  | zero => simp [padded, Nat.mod_one]
  | succ places ih =>
    have hquot : n / 10 / 10 ^ places = n / 10 ^ (places + 1) := by
      rw [Nat.div_div_eq_div_mul, Nat.pow_succ']
    have hrem : n % 10 ^ (places + 1) / 10 = n / 10 % 10 ^ places := by
      rw [Nat.pow_succ', Nat.mod_mul_right_div_self]
    have hlast : n % 10 ^ (places + 1) % 10 = n % 10 := by
      rw [Nat.pow_succ', Nat.mod_mul_right_mod]
    rw [← Nat.add_assoc, padded_succ, ih, hquot, padded_succ places, hrem, hlast, List.append_assoc]

theorem length_padded_of_lt {width n : ℕ} (h : n < 10 ^ width) :
    (padded width n).length = width := by
  induction width generalizing n with
  | zero =>
    rw [Nat.pow_zero, Nat.lt_one_iff] at h
    rw [h]
    rfl
  | succ width ih =>
    have hlt : n / 10 < 10 ^ width := Nat.div_lt_of_lt_mul (Nat.pow_succ' ▸ h)
    rw [padded_succ, List.length_append, List.length_singleton, ih hlt]

/-- A number with so many digits behind the point, from its last digit on. -/
def fixedPoint (places : ℕ) (v : ℤ) : List (Fin 256) :=
  (if v < 0 then [0x2D] else []) ++
    (padded 1 (v.natAbs / 10 ^ places) ++ 0x2E :: padded places (v.natAbs % 10 ^ places))

theorem pad_padded_one (width n : ℕ) :
    (if (padded 1 n).length ≤ width then
      List.replicate (width + 1 - (padded 1 n).length) (digitByte 0) ++ padded 1 n
    else padded 1 n) = padded (width + 1) n := by
  have hlen : (padded 1 n).length = 1 - (Nat.digits 10 n).length + (Nat.digits 10 n).length := by
    rw [padded, List.length_append, List.length_replicate, List.length_map, List.length_reverse]
  rw [hlen]
  split
  next h =>
    rw [padded, padded, ← List.append_assoc, List.replicate_append_replicate]
    congr 2
    omega
  next h =>
    rw [padded, padded]
    congr 2
    omega

theorem insert_point (places n : ℕ) :
    (padded (places + 1) n).take ((padded (places + 1) n).length - places) ++
      0x2E :: (padded (places + 1) n).drop ((padded (places + 1) n).length - places) =
    padded 1 (n / 10 ^ places) ++ 0x2E :: padded places (n % 10 ^ places) := by
  have hlast : (padded places (n % 10 ^ places)).length = places :=
    length_padded_of_lt (Nat.mod_lt n (Nat.pow_pos (by decide)))
  have hsplit := padded_add 1 places n
  rw [Nat.add_comm] at hsplit
  rw [hsplit, List.length_append, hlast, Nat.add_sub_cancel_right, List.take_left, List.drop_left]

theorem value_append (xs ys : List (Fin 256)) :
    value (xs ++ ys) = value xs * 10 ^ ys.length + value ys := by
  rw [value, value, value, List.map_append, List.reverse_append, Nat.ofDigits_append,
    List.length_reverse, List.length_map, Nat.mul_comm, Nat.add_comm]

theorem value_nil : value [] = 0 :=
  rfl

def decimal (places : ℕ) (v : ℤ) : List (Fin 256) :=
  if places = 0 then signed v else fixedPoint places v

theorem fixedPoint_append_zeros (places k : ℕ) (v : ℤ) :
    fixedPoint places v ++ List.replicate k (digitByte 0) = fixedPoint (places + k)
      (v * 10 ^ k) := by
  have hpos : 0 < 10 ^ k := Nat.pow_pos (by decide)
  have habs : (v * 10 ^ k).natAbs = v.natAbs * 10 ^ k := by
    rw [Int.natAbs_mul, Int.natAbs_pow]
    rfl
  have hneg : v * 10 ^ k < 0 ↔ v < 0 := by
    have hten : (0 : ℤ) < 10 ^ k := Int.pow_pos (by decide)
    exact ⟨fun h => Int.neg_of_mul_neg_left h hten, fun h => Int.mul_neg_of_neg_of_pos h hten⟩
  have hwhole : v.natAbs * 10 ^ k / 10 ^ (places + k) = v.natAbs / 10 ^ places := by
    rw [Nat.pow_add, Nat.mul_div_mul_right _ _ hpos]
  have hlast : v.natAbs * 10 ^ k % 10 ^ (places + k) = v.natAbs % 10 ^ places * 10 ^ k := by
    rw [Nat.pow_add, Nat.mul_mod_mul_right]
  have hzeros : padded k 0 = List.replicate k (digitByte 0) := by
    simp [padded]
  have hpad : padded (places + k) (v.natAbs % 10 ^ places * 10 ^ k) =
      padded places (v.natAbs % 10 ^ places) ++ List.replicate k (digitByte 0) := by
    rw [padded_add, Nat.mul_div_cancel _ hpos, Nat.mul_mod_left, hzeros]
  simp only [fixedPoint, habs, hneg, hwhole, hlast, hpad, List.append_assoc, List.cons_append]

theorem signed_append_zeros (k : ℕ) (v : ℤ) :
    signed v ++ 0x2E :: List.replicate k (digitByte 0) = fixedPoint k (v * 10 ^ k) := by
  have hzero : fixedPoint 0 v = signed v ++ [0x2E] := by
    rw [fixedPoint, signed]
    split <;> simp [padded, Nat.mod_one]
  have hshift := fixedPoint_append_zeros 0 k v
  rw [hzero, Nat.zero_add, List.append_assoc, List.singleton_append] at hshift
  exact hshift

end DigitText
