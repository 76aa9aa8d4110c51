import RusqlEngine.Num

/-!
# The digits of exact decimal arithmetic

Each operation on digits gives, for the numerals of two numbers, the numeral of the result. Addition
and subtraction carry one place on; the cells of a product stand for the sum of its rows, before and
after the carries; a division keeps a remainder below the divisor, so that the digit it writes is
one.
-/

namespace RusqlEngine.SqlVal

open Buffer (Byte Bytes)
open DigitText

variable {n : ℕ}

theorem stripZeros_eq {s : Bytes} (hs : ∀ b ∈ s, IsDigit b) : stripZeros s = numeral (value s) := by
  rw [stripZeros, dropWhile_zeros_eq hs]
  by_cases hzero : value s = 0
  · rw [if_pos hzero, if_pos rfl, hzero]
    rfl
  · rw [if_neg hzero, if_neg (isNumeral_numeral _).nonempty]

theorem numeral_eq_zeroDigits : numeral n = zeroDigits ↔ n = 0 :=
  ⟨fun h => numeral_injective h, fun h => h ▸ rfl⟩

theorem cmpAbsDigits_numeral (m n : ℕ) : cmpAbsDigits (numeral m) (numeral n) = compare m n := by
  rw [cmpAbsDigits]
  by_cases hlen : (numeral m).length = (numeral n).length
  · have hcompare := compare_value hlen (fun _ => digit_mem_numeral) fun _ => digit_mem_numeral
    rw [value_numeral, value_numeral] at hcompare
    rw [if_neg (not_not.mpr hlen), hcompare]
  · rw [if_pos hlen]
    by_cases hlt : (numeral m).length < (numeral n).length
    · rw [if_pos hlt, Nat.compare_eq_lt.mpr (lt_of_length_numeral_lt hlt)]
    · have hgt := lt_of_length_numeral_lt ((Nat.lt_or_gt_of_ne hlen).resolve_left hlt)
      rw [if_neg hlt, Nat.compare_eq_gt.mpr hgt]

theorem value_append_zeros (s : Bytes) (k : ℕ) :
    value (s ++ List.replicate k 0x30) = value s * 10 ^ k := by
  induction k with
  | zero => rw [List.replicate_zero, List.append_nil, Nat.pow_zero, Nat.mul_one]
  | succ k ih =>
    rw [List.replicate_succ', ← List.append_assoc, value_append, ih, value_zero_cons, value_nil,
      List.length_singleton, Nat.pow_one, Nat.add_zero, Nat.mul_assoc, Nat.pow_succ]

theorem isDigit_append_zeros {s : Bytes} (hs : ∀ b ∈ s, IsDigit b) (k : ℕ) :
    ∀ b ∈ s ++ List.replicate k 0x30, IsDigit b := by
  intro b hb
  rcases List.mem_append.mp hb with hb | hb
  · exact hs b hb
  · rw [List.eq_of_mem_replicate hb]
    decide

theorem numeral_append_zeros (hn : 0 < n) (k : ℕ) :
    numeral n ++ List.replicate k 0x30 = numeral (n * 10 ^ k) := by
  obtain ⟨b, t, ht⟩ := List.exists_cons_of_ne_nil (isNumeral_numeral n).nonempty
  have hb : b ≠ 0x30 := fun hzero => by
    have hlead := (isNumeral_numeral n).lead (by rw [ht, hzero]; rfl)
    exact hn.ne' (numeral_eq_zeroDigits.mp hlead)
  have hdigits := isDigit_append_zeros (fun _ => digit_mem_numeral (n := n)) k
  have hvalue := value_append_zeros (numeral n) k
  rw [value_numeral] at hvalue
  rw [ht, List.cons_append] at hdigits hvalue ⊢
  rw [eq_numeral_of_lead hdigits hb, hvalue]

variable {d : ℕ}

theorem digit_digitByte (h : d < 10) : digit (digitByte d) = d := by
  rw [digit, val_digitByte h, Nat.add_sub_cancel_left]

theorem digit_lt {b : Byte} (h : IsDigit b) : digit b < 10 := by
  have hle := (isDigit_iff_val.mp h).2
  rw [digit]
  omega

theorem lastDigit_reversed (n : ℕ) : lastDigit (reversed n) = n % 10 := by
  rcases Nat.eq_zero_or_pos n with rfl | hn
  · rfl
  · rw [reversed_of_pos hn]
    exact digit_digitByte (Nat.mod_lt n (by decide))

theorem tail_reversed (n : ℕ) : (reversed n).tail = reversed (n / 10) := by
  rcases Nat.eq_zero_or_pos n with rfl | hn
  · rfl
  · rw [reversed_of_pos hn, List.tail_cons]

theorem addCarry_reversed (n carry : ℕ) : addCarry (reversed n) carry = reversed (n + carry) := by
  induction n using Nat.strongRecOn generalizing carry with
  | ind n ih =>
    rcases Nat.eq_zero_or_pos n with rfl | hn
    · rw [reversed_zero, addCarry, Nat.zero_add, reversed]
    · have hrest := ih (n / 10) (Nat.div_lt_self hn (by decide)) ((n % 10 + carry) / 10)
      rw [reversed_of_pos hn, addCarry, digit_digitByte (Nat.mod_lt n (by decide)), hrest,
        reversed_of_pos (Nat.add_pos_left hn carry)]
      congr 2 <;> omega

theorem addLoop_reversed (m n carry : ℕ) :
    addLoop (reversed m) (reversed n) carry = reversed (m + n + carry) := by
  induction m using Nat.strongRecOn generalizing n carry with
  | ind m ih =>
    rcases Nat.eq_zero_or_pos m with rfl | hm
    · rw [reversed_zero, addLoop, addCarry_reversed, Nat.zero_add]
    · have hrest := ih (m / 10) (Nat.div_lt_self hm (by decide)) (n / 10)
        ((m % 10 + n % 10 + carry) / 10)
      rw [reversed_of_pos hm, addLoop, digit_digitByte (Nat.mod_lt m (by decide)),
        lastDigit_reversed, tail_reversed, hrest,
        reversed_of_pos (Nat.add_pos_left (Nat.add_pos_left hm n) carry)]
      congr 2 <;> omega

theorem numeral_reverse_cases (n : ℕ) :
    (n = 0 ∧ (numeral n).reverse = [0x30]) ∨ (0 < n ∧ (numeral n).reverse = reversed n) := by
  rcases Nat.eq_zero_or_pos n with rfl | hn
  · exact .inl ⟨rfl, rfl⟩
  · exact .inr ⟨hn, numeral_reverse hn⟩

theorem addLoop_zero_left (hn : 0 < n) : addLoop [0x30] (reversed n) 0 = reversed n := by
  have hlast := Nat.mod_lt n (by decide : 0 < 10)
  rw [addLoop, lastDigit_reversed, tail_reversed, addLoop, addCarry_reversed, reversed_of_pos hn]
  have hzero : digit 0x30 + n % 10 + 0 = n % 10 := Nat.zero_add _
  rw [hzero, Nat.mod_eq_of_lt hlast, Nat.div_eq_of_lt hlast, Nat.add_zero]

theorem addLoop_zero_right (hn : 0 < n) : addLoop (reversed n) [0x30] 0 = reversed n := by
  have hlast := Nat.mod_lt n (by decide : 0 < 10)
  have hrest := addLoop_reversed (n / 10) 0 0
  rw [reversed_zero, Nat.add_zero] at hrest
  rw [reversed_of_pos hn, addLoop, digit_digitByte hlast]
  have hzero : n % 10 + lastDigit [0x30] + 0 = n % 10 := rfl
  rw [hzero, Nat.mod_eq_of_lt hlast, Nat.div_eq_of_lt hlast, List.tail_cons, hrest]

theorem addAbsDigits_numeral (m n : ℕ) :
    addAbsDigits (numeral m) (numeral n) = numeral (m + n) := by
  have hsum : (addLoop (numeral m).reverse (numeral n).reverse 0).reverse = numeral (m + n) := by
    rw [List.reverse_eq_iff]
    rcases numeral_reverse_cases m with ⟨rfl, hm'⟩ | ⟨hm, hm'⟩ <;>
      rcases numeral_reverse_cases n with ⟨rfl, hn'⟩ | ⟨hn, hn'⟩
    · decide
    · rw [hm', Nat.zero_add, hn']
      exact addLoop_zero_left hn
    · rw [hn', Nat.add_zero, hm']
      exact addLoop_zero_right hm
    · rw [hm', hn', numeral_reverse (Nat.add_pos_left hm n)]
      exact addLoop_reversed m n 0
  rw [addAbsDigits, hsum, if_neg (isNumeral_numeral _).nonempty]

def valueReversed (s : Bytes) : ℕ :=
  value s.reverse

theorem valueReversed_nil : valueReversed [] = 0 :=
  rfl

theorem valueReversed_cons (b : Byte) (s : Bytes) :
    valueReversed (b :: s) = digit b + 10 * valueReversed s := by
  rw [valueReversed, List.reverse_cons, value_append, value_cons, value_nil, List.length_singleton,
    List.length_nil, Nat.pow_zero, Nat.mul_one, Nat.add_zero, Nat.pow_one, Nat.add_comm,
    Nat.mul_comm, digit, valueReversed]

theorem valueReversed_subLoop {xs : Bytes} (hxs : ∀ b ∈ xs, IsDigit b) : ∀ {ys : Bytes}
    {borrow : ℕ}, (∀ b ∈ ys, IsDigit b) → borrow ≤ 1 →
      valueReversed ys + borrow ≤ valueReversed xs →
        (∀ b ∈ subLoop xs ys borrow, IsDigit b) ∧
          valueReversed (subLoop xs ys borrow) + valueReversed ys + borrow = valueReversed xs := by
  induction xs with
  | nil =>
    intro ys borrow _ _ hle
    rw [valueReversed_nil] at hle
    rw [subLoop, valueReversed_nil]
    exact ⟨List.forall_mem_nil _, by omega⟩
  | cons x xs ih =>
    obtain ⟨hx, hxs⟩ := List.forall_mem_cons.mp hxs
    intro ys borrow hys hborrow hle
    have hsplit : valueReversed ys =
        lastDigit ys + 10 * valueReversed ys.tail := by
      cases ys with
      | nil => rfl
      | cons y ys => exact valueReversed_cons y ys
    have hy : lastDigit ys < 10 := by
      cases ys with
      | nil => decide
      | cons y ys => exact digit_lt (hys y List.mem_cons_self)
    have htail : ∀ b ∈ ys.tail, IsDigit b := fun b hb => hys b (List.mem_of_mem_tail hb)
    have hdigit := digit_lt hx
    rw [valueReversed_cons, hsplit] at hle ⊢
    rw [subLoop]
    generalize lastDigit ys = y at *
    rw [subDigit]
    split <;> dsimp only
    next hlt =>
      obtain ⟨hall, hrest⟩ := ih hxs htail (Nat.le_refl 1) (by omega)
      refine ⟨List.forall_mem_cons.mpr ⟨isDigit_digitByte (by omega), hall⟩, ?_⟩
      rw [valueReversed_cons, digit_digitByte (by omega)]
      omega
    next hge =>
      obtain ⟨hall, hrest⟩ := ih hxs htail (Nat.zero_le 1) (by omega)
      refine ⟨List.forall_mem_cons.mpr ⟨isDigit_digitByte (by omega), hall⟩, ?_⟩
      rw [valueReversed_cons, digit_digitByte (by omega)]
      omega

theorem subAbsDigits_numeral {m : ℕ} (h : n ≤ m) :
    subAbsDigits (numeral m) (numeral n) = numeral (m - n) := by
  have hdigits (k : ℕ) : ∀ b ∈ (numeral k).reverse, IsDigit b :=
    fun b hb => digit_mem_numeral (List.mem_reverse.mp hb)
  have hvalue (k : ℕ) : valueReversed (numeral k).reverse = k := by
    rw [valueReversed, List.reverse_reverse, value_numeral]
  obtain ⟨hall, hsum⟩ := @valueReversed_subLoop _ (hdigits m) _ 0 (hdigits n) (by decide)
    (by rw [hvalue, hvalue]; exact h)
  rw [hvalue, hvalue] at hsum
  rw [subAbsDigits, stripZeros_eq fun b hb => hall b (List.mem_reverse.mp hb)]
  congr 1
  change valueReversed (subLoop _ _ 0) = _
  omega

def cellsValue : List ℕ → ℕ
  | [] => 0
  | c :: rest => c * 10 ^ rest.length + cellsValue rest

theorem cellsValue_modify (d : ℕ) : ∀ {cells : List ℕ} {k : ℕ}, k < cells.length →
    cellsValue (cells.modify k (· + d)) = cellsValue cells + d * 10 ^ (cells.length - 1 - k)
  | [], _, h => absurd h (Nat.not_lt_zero _)
  | c :: rest, 0, _ => by
      rw [List.modify_zero_cons, cellsValue, cellsValue, List.length_cons, Nat.add_sub_cancel,
        Nat.sub_zero]
      ring
  | c :: rest, k + 1, h => by
      have hk : k < rest.length := Nat.lt_of_succ_lt_succ h
      rw [List.modify_succ_cons, cellsValue, cellsValue, List.length_modify,
        cellsValue_modify d hk, List.length_cons]
      have hplace : rest.length + 1 - 1 - (k + 1) = rest.length - 1 - k := by omega
      rw [hplace, Nat.add_assoc]

theorem length_mulRow (x : ℕ) : ∀ (ys : Bytes) (cell : ℕ) (cells : List ℕ),
    (mulRow x ys cell cells).length = cells.length
  | [], _, _ => rfl
  | y :: ys, cell, cells => by rw [mulRow, length_mulRow x ys, List.length_modify]

/-- A row adds the product of its digit, at its place. -/
theorem cellsValue_mulRow (x : ℕ) : ∀ {ys : Bytes} {cell : ℕ} {cells : List ℕ},
    cell + ys.length ≤ cells.length → cellsValue (mulRow x ys cell cells) =
      cellsValue cells + x * value ys * 10 ^ (cells.length - (cell + ys.length))
  | [], _, _, _ => by rw [mulRow, value_nil, Nat.mul_zero, Nat.zero_mul, Nat.add_zero]
  | y :: ys, cell, cells, h => by
      rw [List.length_cons] at h
      have hrest : cell + 1 + ys.length ≤ (cells.modify cell (· + x * digit y)).length := by
        rw [List.length_modify]
        omega
      have hplace : cells.length - 1 - cell =
          ys.length + (cells.length - (cell + 1 + ys.length)) := by omega
      have hsame : cells.length - (cell + (ys.length + 1)) =
          cells.length - (cell + 1 + ys.length) := by omega
      rw [mulRow, cellsValue_mulRow x hrest, List.length_modify,
        cellsValue_modify _ (by omega : cell < cells.length), value_cons, List.length_cons, hplace,
        hsame, Nat.pow_add, digit]
      ring

theorem length_mulRows (b : Bytes) : ∀ (xs : Bytes) (i : ℕ) (cells : List ℕ),
    (mulRows xs b i cells).length = cells.length
  | [], _, _ => rfl
  | x :: xs, i, cells => by rw [mulRows, length_mulRows b xs, length_mulRow]

theorem cellsValue_mulRows (b : Bytes) : ∀ {xs : Bytes} {i : ℕ} {cells : List ℕ},
    i + xs.length + b.length = cells.length →
      cellsValue (mulRows xs b i cells) = cellsValue cells + value xs * value b
  | [], _, _, _ => by rw [mulRows, value_nil, Nat.zero_mul, Nat.add_zero]
  | x :: xs, i, cells, h => by
      rw [List.length_cons] at h
      have hrest : i + 1 + xs.length + b.length = (mulRow (digit x) b (i + 1) cells).length := by
        rw [length_mulRow]
        omega
      have hplace : cells.length - (i + 1 + b.length) = xs.length := by omega
      rw [mulRows, cellsValue_mulRows b hrest, cellsValue_mulRow _ (by omega), hplace, value_cons,
        digit]
      ring

theorem cellsValue_replicate (n : ℕ) : cellsValue (List.replicate n 0) = 0 := by
  induction n with
  | zero => rfl
  | succ n ih => rw [List.replicate_succ, cellsValue, ih, Nat.zero_mul]

theorem length_carried : ∀ cells : List ℕ, (carried cells).length = cells.length
  | [] => rfl
  | c :: rest => by
      have hrest := length_carried rest
      rw [carried]
      cases hcarried : carried rest with
      | nil =>
        rw [hcarried] at hrest
        exact congrArg Nat.succ hrest
      | cons d ds =>
        rw [hcarried] at hrest
        rw [List.length_cons, hrest, List.length_cons]

theorem isDigit_mod (d : ℕ) : IsDigit (digitByte (d % 10)) :=
  isDigit_digitByte (Nat.mod_lt d (by decide))

theorem value_carried : ∀ {cells : List ℕ} {c : ℕ} {rest : List ℕ}, carried cells = c :: rest →
    c * 10 ^ rest.length + value (rest.map fun d => digitByte (d % 10)) = cellsValue cells
  | [], _, _, h => nomatch h
  | first :: cells, c, rest, h => by
      rw [carried] at h
      cases hcarried : carried cells with
      | nil =>
        have hnil : cells = [] := by
          rw [← List.length_eq_zero_iff, ← length_carried, hcarried, List.length_nil]
        rw [hcarried] at h
        obtain ⟨rfl, rfl⟩ := List.cons.inj h
        rw [hnil]
        rfl
      | cons d ds =>
        have hlen : cells.length = ds.length + 1 := by
          rw [← length_carried, hcarried, List.length_cons]
        rw [hcarried] at h
        obtain ⟨rfl, rfl⟩ := List.cons.inj h
        rw [cellsValue, ← value_carried hcarried, hlen, List.map_cons, value_cons,
          List.length_map, List.length_cons, val_digitByte (Nat.mod_lt d (by decide)),
          Nat.add_sub_cancel_left, Nat.pow_succ]
        generalize value (ds.map fun d => digitByte (d % 10)) = behind
        have hd := Nat.div_add_mod d 10
        calc (first + d / 10) * (10 ^ ds.length * 10) + (d % 10 * 10 ^ ds.length + behind)
            = first * (10 ^ ds.length * 10) +
                ((10 * (d / 10) + d % 10) * 10 ^ ds.length + behind) := by ring
          _ = _ := by rw [hd]

theorem value_cellDigits_carried {cells : List ℕ} (hne : cells ≠ [])
    (hlt : cellsValue cells < 10 ^ cells.length) :
    (∀ b ∈ cellDigits (carried cells), IsDigit b) ∧
      value (cellDigits (carried cells)) = cellsValue cells := by
  have hlen := length_carried cells
  cases hcarried : carried cells with
  | nil =>
    rw [hcarried] at hlen
    exact absurd (List.length_eq_zero_iff.mp hlen.symm) hne
  | cons c rest =>
    rw [hcarried, List.length_cons] at hlen
    have hvalue := value_carried hcarried
    have hc : c < 10 := by
      rw [← hlen, Nat.pow_succ, Nat.mul_comm] at hlt
      refine @Nat.lt_of_mul_lt_mul_right (10 ^ rest.length) _ _ ?_
      omega
    refine ⟨List.forall_mem_cons.mpr ⟨isDigit_digitByte hc, fun b hb => ?_⟩, ?_⟩
    · obtain ⟨d, -, rfl⟩ := List.mem_map.mp hb
      exact isDigit_mod d
    · rw [cellDigits, value_cons, List.length_map, val_digitByte hc, Nat.add_sub_cancel_left,
        hvalue]

theorem mulAbsDigits_eq_some {m : ℕ} {digits : Bytes}
    (h : mulAbsDigits (numeral m) (numeral n) = some digits) : digits = numeral (m * n) := by
  rw [mulAbsDigits] at h
  split at h
  next hzero =>
    rw [numeral_eq_zeroDigits, numeral_eq_zeroDigits] at hzero
    rw [← Option.some.inj h, Nat.mul_eq_zero.mpr hzero]
    rfl
  next =>
    dsimp only at h
    split at h
    next =>
      have hvalue : cellsValue (mulRows (numeral m) (numeral n) 0
          (List.replicate ((numeral m).length + (numeral n).length) 0)) = m * n := by
        rw [cellsValue_mulRows _ (by rw [List.length_replicate, Nat.zero_add]),
          cellsValue_replicate, Nat.zero_add, value_numeral, value_numeral]
      have hlength := length_mulRows (numeral n) (numeral m) 0
        (List.replicate ((numeral m).length + (numeral n).length) 0)
      rw [List.length_replicate] at hlength
      have hbound (k : ℕ) : k < 10 ^ (numeral k).length := by
        have hlt : value (numeral k) < 10 ^ (numeral k).length :=
          value_lt fun _ => digit_mem_numeral
        rwa [value_numeral] at hlt
      have hpos := length_numeral_pos m
      obtain ⟨hdigits, hsum⟩ := @value_cellDigits_carried
        (mulRows (numeral m) (numeral n) 0
          (List.replicate ((numeral m).length + (numeral n).length) 0))
        (List.ne_nil_of_length_pos (by omega))
        (by rw [hvalue, hlength, Nat.pow_add]; exact Nat.mul_lt_mul'' (hbound m) (hbound n))
      rw [← Option.some.inj h, stripZeros_eq hdigits, hsum, hvalue]
    next => exact nomatch h

theorem mulRow_le {x bound : ℕ} (hx : x ≤ 9) : ∀ (ys : Bytes) (cell : ℕ) (cells : List ℕ),
    (∀ b ∈ ys, IsDigit b) → (∀ k, cells.getD k 0 ≤ bound + if k < cell then 81 else 0) →
      ∀ k, (mulRow x ys cell cells).getD k 0 ≤ bound + 81
  | [], cell, cells, _, h, k => by
      have hk := h k
      rw [mulRow]
      split at hk <;> omega
  | y :: ys, cell, cells, hys, h, k => by
      obtain ⟨hy, hys⟩ := List.forall_mem_cons.mp hys
      rw [mulRow]
      refine mulRow_le hx ys (cell + 1) _ hys (fun k => ?_) k
      have hk := h k
      have hproduct : x * digit y ≤ 9 * 9 :=
        Nat.mul_le_mul hx (Nat.le_of_lt_succ (digit_lt hy))
      rw [List.getD_eq_getElem?_getD] at hk ⊢
      rw [List.getElem?_modify]
      cases hget : cells[k]? with
      | none => exact Nat.zero_le _
      | some c =>
        rw [hget] at hk
        change (if cell = k then c + x * digit y else c) ≤ _
        change c ≤ _ at hk
        split at hk <;> split <;> split <;> omega

theorem mulRows_le {b : Bytes} (hb : ∀ d ∈ b, IsDigit d) : ∀ (xs : Bytes) (i bound : ℕ)
    (cells : List ℕ), (∀ d ∈ xs, IsDigit d) → (∀ k, cells.getD k 0 ≤ bound) →
      ∀ k, (mulRows xs b i cells).getD k 0 ≤ bound + 81 * xs.length
  | [], _, _, _, _, h, k => h k
  | x :: xs, i, bound, cells, hxs, h, k => by
      obtain ⟨hx, hxs⟩ := List.forall_mem_cons.mp hxs
      have hrow := mulRow_le (Nat.le_of_lt_succ (digit_lt hx)) b (i + 1) cells hb
        fun k => (h k).trans (Nat.le_add_right _ _)
      have hrows := mulRows_le hb xs (i + 1) (bound + 81) _ hxs hrow k
      rw [mulRows, List.length_cons]
      omega

theorem carried_le (bound : ℕ) : ∀ {cells : List ℕ}, (∀ c ∈ cells, c ≤ 81 * bound) →
    ∀ c ∈ carried cells, c ≤ 90 * bound
  | [], _ => nofun
  | first :: cells, h => by
      obtain ⟨hfirst, hcells⟩ := List.forall_mem_cons.mp h
      have hrest := carried_le bound hcells
      rw [carried]
      cases hcarried : carried cells with
      | nil =>
        refine List.forall_mem_singleton.mpr ?_
        omega
      | cons d ds =>
        rw [hcarried] at hrest
        refine List.forall_mem_cons.mpr ⟨?_, hrest⟩
        have hd := hrest d List.mem_cons_self
        omega

theorem mulAbsDigits_isSome {m : ℕ} (n : ℕ) (hm : (numeral m).length ≤ 23000000) :
    ∃ digits, mulAbsDigits (numeral m) (numeral n) = some digits := by
  rw [mulAbsDigits]
  split
  next => exact ⟨_, rfl⟩
  next =>
    have hzeros (k : ℕ) :
        (List.replicate ((numeral m).length + (numeral n).length) 0).getD k 0 ≤ 0 := by
      rw [List.getD_eq_getElem?_getD, List.getElem?_replicate]
      split <;> exact Nat.le_refl 0
    have hdigits (k : ℕ) : ∀ d ∈ numeral k, IsDigit d := fun _ => digit_mem_numeral
    have hcells := mulRows_le (hdigits n) (numeral m) 0 0 _ (hdigits m) hzeros
    have hmem : ∀ c ∈ mulRows (numeral m) (numeral n) 0
        (List.replicate ((numeral m).length + (numeral n).length) 0),
        c ≤ 81 * (numeral m).length := by
      intro c hc
      obtain ⟨k, hk, rfl⟩ := List.mem_iff_getElem.mp hc
      have hle := hcells k
      rw [List.getD_eq_getElem?_getD, List.getElem?_eq_getElem hk, Nat.zero_add] at hle
      exact hle
    have hsums := carried_le (numeral m).length hmem
    refine ⟨_, if_pos fun c hc => ?_⟩
    have hle := hsums c hc
    rw [intMax]
    omega

theorem run_divTurn (hd : 0 < d) : ∀ {turns r : ℕ} (count : ℕ), r / d < turns →
    Loop.run (divTurn (numeral d)) turns (numeral r, count) = some (numeral (r % d), count + r / d)
  | 0, _, _, h => absurd h (Nat.not_lt_zero _)
  | turns + 1, r, count, h => by
      by_cases hlt : r < d
      · have hlast : divTurn (numeral d) (numeral r, count) = .inl (numeral r, count) := by
          rw [divTurn, cmpAbsDigits_numeral, Nat.compare_eq_lt.mpr hlt]
          rfl
        rw [Loop.run_of_inl hlast, Nat.mod_eq_of_lt hlt, Nat.div_eq_of_lt hlt, Nat.add_zero]
      · have hle : d ≤ r := Nat.le_of_not_lt hlt
        have hquot : r / d = (r - d) / d + 1 := Nat.div_eq_sub_div hd hle
        have hnext : divTurn (numeral d)
          (numeral r, count) = .inr (numeral (r - d), count + 1) := by
          have hne : compare r d ≠ .lt := fun h => hlt (Nat.compare_eq_lt.mp h)
          rw [divTurn, cmpAbsDigits_numeral, if_pos hne, subAbsDigits_numeral hle]
        rw [Loop.run_of_inr hnext, run_divTurn hd (count + 1) (by omega), Nat.mod_eq_sub_mod hle]
        congr 2
        omega

theorem divDigit_eq {r : ℕ} {ch : Byte} (hr : r < d) (hch : IsDigit ch) :
    (r * 10 + digit ch) / d < 10 ∧ divDigit (numeral d) (stripZeros (numeral r ++ [ch])) =
      some (numeral ((r * 10 + digit ch) % d), (r * 10 + digit ch) / d) := by
  have hd : 0 < d := Nat.zero_lt_of_lt hr
  have hdigit := digit_lt hch
  have hlt : (r * 10 + digit ch) / d < 10 := by
    rw [Nat.div_lt_iff_lt_mul hd]
    omega
  have hdigits : ∀ b ∈ numeral r ++ [ch], IsDigit b := by
    intro b hb
    rcases List.mem_append.mp hb with hb | hb
    · exact digit_mem_numeral hb
    · exact List.mem_singleton.mp hb ▸ hch
  have hvalue : value (numeral r ++ [ch]) = r * 10 + digit ch := by
    rw [value_append, value_numeral, value_cons, value_nil, List.length_singleton,
      List.length_nil, Nat.pow_one, Nat.pow_zero, Nat.mul_one, Nat.add_zero, digit]
  refine ⟨hlt, ?_⟩
  rw [divDigit, stripZeros_eq hdigits, hvalue, run_divTurn hd 0 hlt, Nat.zero_add]

/-- The loop goes on with the quotient and a remainder below the divisor. -/
theorem divLoop_eq : ∀ {num q : Bytes} {r : ℕ}, r < d → (∀ b ∈ num, IsDigit b) →
    (∀ b ∈ q, IsDigit b) → ∃ q', divLoop (numeral d) num q (numeral r) = some q' ∧
      (∀ b ∈ q', IsDigit b) ∧
        value q' = value q * 10 ^ num.length + (r * 10 ^ num.length + value num) / d
  | [], q, r, hr, _, hq => by
      refine ⟨q, rfl, hq, ?_⟩
      rw [List.length_nil, Nat.pow_zero, Nat.mul_one, Nat.mul_one, value_nil, Nat.add_zero,
        Nat.div_eq_of_lt hr, Nat.add_zero]
  | ch :: num, q, r, hr, hnum, hq => by
      obtain ⟨hch, hnum⟩ := List.forall_mem_cons.mp hnum
      have hd : 0 < d := Nat.zero_lt_of_lt hr
      obtain ⟨hcount, hdigit⟩ := divDigit_eq hr hch
      have hq' : ∀ b ∈ q ++ [digitByte ((r * 10 + digit ch) / d)], IsDigit b := by
        intro b hb
        rcases List.mem_append.mp hb with hb | hb
        · exact hq b hb
        · exact List.mem_singleton.mp hb ▸ isDigit_digitByte hcount
      obtain ⟨q', hrun, hall, hvalue⟩ := divLoop_eq (Nat.mod_lt (r * 10 + digit ch) hd) hnum hq'
      refine ⟨q', by rw [divLoop, hdigit]; exact hrun, hall, ?_⟩
      have hsplit : r * 10 ^ (num.length + 1) + ((ch.val - 0x30) * 10 ^ num.length + value num) =
          ((r * 10 + digit ch) % d * 10 ^ num.length + value num) +
            d * ((r * 10 + digit ch) / d * 10 ^ num.length) := by
        have hmod := Nat.div_add_mod (r * 10 + digit ch) d
        calc _ = (r * 10 + digit ch) * 10 ^ num.length + value num := by
              rw [digit]
              ring
          _ = (d * ((r * 10 + digit ch) / d) + (r * 10 + digit ch) % d) * 10 ^ num.length +
              value num := by rw [hmod]
          _ = _ := by ring
      rw [hvalue, value_append, value_cons, value_nil, List.length_singleton, List.length_nil,
        val_digitByte hcount, Nat.add_sub_cancel_left, List.length_cons, value_cons, hsplit,
        Nat.add_mul_div_left _ _ hd]
      ring

theorem divAbsDigits_eq {num : Bytes} (hd : 0 < d) (hnum : ∀ b ∈ num, IsDigit b) :
    divAbsDigits num (numeral d) = some (numeral (value num / d)) := by
  obtain ⟨q, hrun, hall, hvalue⟩ := divLoop_eq hd hnum (List.forall_mem_nil _)
  rw [value_nil, Nat.zero_mul, Nat.zero_add, Nat.zero_add] at hvalue
  rw [divAbsDigits]
  have hzero : zeroDigits = numeral 0 := rfl
  rw [hzero, hrun, Option.map_some, stripZeros_eq hall, hvalue]

end RusqlEngine.SqlVal
