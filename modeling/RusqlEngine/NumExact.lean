import RusqlEngine.NumDigits
import RusqlEngine.NumericTextExact
import RusqlEngine.Library.Rounding

/-!
# Exact decimal arithmetic is exact

A `Num` denotes a fraction with a power of ten below. Sums, differences and products are those of
the fractions, roundings and quotients the nearest fraction with the scale that is asked for, and
every result is the one number of its scale that is written without zeros in front and without the
sign of zero.
-/

namespace RusqlEngine.SqlVal

open Buffer (Byte Bytes)
open DigitText SqlVal.Num Rounding
open NumericText (signedBy signedBy_zero)

namespace Num

def unscaled (n : Num) : ℤ :=
  signedBy n.negative (value n.digits)

def toRat (n : Num) : ℚ :=
  n.unscaled / 10 ^ n.scale

/-- A numeral, and an int for a scale that is not negative. -/
structure Plain (n : Num) : Prop where
  digits : IsNumeral n.digits
  scale : 0 ≤ n.scale
  fits : n.scale ≤ intMax

/-- No zeros in front, and no negative zero. -/
structure Proper (n : Num) : Prop where
  digits : IsNumeral n.digits
  sign : n.negative → n.digits ≠ zeroDigits

def ofUnscaled (v : ℤ) (scale : ℤ) : Num :=
  ⟨decide (v < 0), numeral v.natAbs, scale⟩

theorem Plain.exists_numeral {n : Num} (h : n.Plain) :
    ∃ p m s, n = ⟨p, numeral m, s⟩ ∧ 0 ≤ s ∧ s ≤ intMax :=
  ⟨n.negative, value n.digits, n.scale, by rw [← h.digits.eq_numeral], h.scale, h.fits⟩

theorem unscaled_numeral (p : Bool) (m : ℕ) (s : ℤ) : unscaled ⟨p, numeral m, s⟩ = signedBy p m :=
  congrArg (signedBy p) (value_numeral m)

theorem ofUnscaled_proper (v scale : ℤ) : (ofUnscaled v scale).Proper where
  digits := isNumeral_numeral _
  sign h hzero := by
    have hv : v < 0 := of_decide_eq_true h
    have habs : v.natAbs = 0 := numeral_eq_zeroDigits.mp hzero
    omega

theorem unscaled_ofUnscaled (v scale : ℤ) : (ofUnscaled v scale).unscaled = v := by
  rw [unscaled, ofUnscaled, value_numeral, signedBy]
  by_cases hv : v < 0
  · rw [decide_eq_true hv, if_pos rfl]
    omega
  · rw [decide_eq_false hv, if_neg Bool.false_ne_true]
    omega

theorem toRat_ofUnscaled (v scale : ℤ) : (ofUnscaled v scale).toRat = v / 10 ^ scale := by
  rw [toRat, unscaled_ofUnscaled]
  rfl

end Num

section

variable (negative : Bool)

theorem signedBy_mul (m k : ℕ) : signedBy negative (m * k) = signedBy negative m * k := by
  cases negative
  · exact Nat.cast_mul m k
  · rw [signedBy, signedBy, if_pos rfl, if_pos rfl, Nat.cast_mul, neg_mul]

theorem signedBy_not (m : ℕ) : signedBy (!negative) m = -signedBy negative m := by
  cases negative
  · rfl
  · exact (neg_neg _).symm

theorem signedBy_mul_signedBy (p q : Bool) (m k : ℕ) :
    signedBy p m * signedBy q k = signedBy (p != q) (m * k) := by
  cases p <;> cases q <;> simp [signedBy]

theorem signedBy_nonzero (m : ℕ) :
    signedBy (numeral m ≠ zeroDigits && negative) m = signedBy negative m := by
  by_cases hm : m = 0
  · rw [hm, signedBy_zero, signedBy_zero]
  · have hne : numeral m ≠ zeroDigits := fun h => hm (numeral_eq_zeroDigits.mp h)
    rw [decide_eq_true hne, Bool.true_and]

theorem mk_eq_ofUnscaled (m : ℕ) (scale : ℤ) :
    (⟨numeral m ≠ zeroDigits && negative, numeral m, scale⟩ : Num) =
      .ofUnscaled (signedBy negative m) scale := by
  rw [ofUnscaled, signedBy]
  by_cases hm : m = 0
  · subst hm
    cases negative <;> rfl
  · have hne : numeral m ≠ zeroDigits := fun h => hm (numeral_eq_zeroDigits.mp h)
    cases negative with
    | false =>
      rw [if_neg Bool.false_ne_true, Bool.and_false, Int.natAbs_natCast,
        decide_eq_false (by omega : ¬ (m : ℤ) < 0)]
    | true =>
      rw [if_pos rfl, Bool.and_true, Int.natAbs_neg, Int.natAbs_natCast, decide_eq_true hne,
        decide_eq_true (by omega : -(m : ℤ) < 0)]

end

theorem toInt_eq_some {v : ℤ} (hlo : intMin ≤ v) (hhi : v ≤ intMax) : toInt v = some v := by
  rw [toInt, if_pos ⟨hlo, hhi⟩]

theorem of_toInt_eq_some {v w : ℤ} (h : toInt v = some w) : v = w := by
  rw [toInt] at h
  split at h
  next => exact Option.some.inj h
  next => exact nomatch h

variable {goal : ℤ} {a b : Num}

theorem alignScale_eq {negative : Bool} {m : ℕ} {scale : ℤ} (h0 : 0 ≤ scale) (hle : scale ≤ goal)
    (hgoal : goal ≤ intMax) : alignScale ⟨negative, numeral m, scale⟩ goal =
      some ⟨negative, numeral (m * 10 ^ (goal - scale).toNat), goal⟩ := by
  rw [alignScale]
  by_cases hm : m = 0
  · subst hm
    rw [if_neg fun h => h.2 rfl, Nat.zero_mul]
  · by_cases hlt : scale < goal
    · have hne : numeral m ≠ zeroDigits := fun h => hm (numeral_eq_zeroDigits.mp h)
      have hint : toInt (goal - scale) = some (goal - scale) :=
        toInt_eq_some (by rw [intMin]; omega) (by omega)
      rw [if_pos ⟨hlt, hne⟩, hint, Option.map_some, zeros,
        numeral_append_zeros (Nat.pos_of_ne_zero hm)]
    · have heq : goal = scale := le_antisymm (not_lt.mp hlt) hle
      rw [if_neg fun h => hlt h.1, heq, sub_self, Int.toNat_zero, Nat.pow_zero, Nat.mul_one]

theorem ite_zeroDigits_eq (r : Num) :
    (if r.digits = zeroDigits then { r with negative := false } else r) =
      ⟨r.digits ≠ zeroDigits && r.negative, r.digits, r.scale⟩ := by
  by_cases hzero : r.digits = zeroDigits
  · rw [if_pos hzero, decide_eq_false (not_not.mpr hzero), Bool.false_and]
  · rw [if_neg hzero, decide_eq_true hzero, Bool.true_and]

theorem addAligned_eq (p q : Bool) (m k : ℕ) (scale : ℤ) :
    addAligned ⟨p, numeral m, scale⟩ ⟨q, numeral k, scale⟩ scale =
      .ofUnscaled (signedBy p m + signedBy q k) scale := by
  rw [addAligned, ite_zeroDigits_eq]
  by_cases hsign : p = q
  · have hsum : signedBy p m + signedBy q k = signedBy p (m + k) := by
      rw [← hsign, signedBy, signedBy, signedBy]
      split <;> omega
    rw [if_pos hsign, addAbsDigits_numeral, hsum]
    exact mk_eq_ofUnscaled p (m + k) scale
  · have hq : q = !p := Bool.eq_not.mpr fun h => hsign h.symm
    subst hq
    rw [if_neg hsign, cmpAbsDigits_numeral, signedBy_not]
    rcases Nat.lt_trichotomy m k with hlt | rfl | hgt
    · have hsum : signedBy p m + -signedBy p k = signedBy (!p) (k - m) := by
        rw [signedBy_not, signedBy, signedBy, signedBy]
        split <;> omega
      rw [Nat.compare_eq_lt.mpr hlt, subAbsDigits_numeral hlt.le, hsum]
      exact mk_eq_ofUnscaled (!p) (k - m) scale
    · rw [Nat.compare_eq_eq.mpr rfl, add_neg_cancel]
      rfl
    · have hsum : signedBy p m + -signedBy p k = signedBy p (m - k) := by
        rw [signedBy, signedBy, signedBy]
        split <;> omega
      rw [Nat.compare_eq_gt.mpr hgt, subAbsDigits_numeral hgt.le, hsum]
      exact mk_eq_ofUnscaled p (m - k) scale

def Num.unscaledAt (n : Num) (scale : ℤ) : ℤ :=
  n.unscaled * (10 ^ (scale - n.scale).toNat : ℕ)

theorem Num.toRat_unscaledAt {n : Num} {scale : ℤ} (h : n.scale ≤ scale) :
    (n.unscaledAt scale : ℚ) / 10 ^ scale = n.toRat := by
  have hten : (10 : ℚ) ≠ 0 := by norm_num
  have hsplit : scale = n.scale + (scale - n.scale).toNat := by omega
  have hpow : (10 : ℚ) ^ scale = 10 ^ n.scale * 10 ^ (scale - n.scale).toNat := by
    conv_lhs => rw [hsplit]
    rw [zpow_add₀ hten, zpow_natCast]
  rw [toRat, unscaledAt, hpow]
  push_cast
  exact mul_div_mul_right _ _ (pow_ne_zero _ hten)

theorem numAdd_eq (ha : a.Plain) (hb : b.Plain) (subtract : Bool) :
    numAdd a b subtract = some (.ofUnscaled
      (a.unscaledAt (max a.scale b.scale) +
        (if subtract then -b.unscaledAt (max a.scale b.scale)
          else b.unscaledAt (max a.scale b.scale))) (max a.scale b.scale)) := by
  obtain ⟨p, m, sa, rfl, hsa, hsa'⟩ := ha.exists_numeral
  obtain ⟨q, k, sb, rfl, hsb, hsb'⟩ := hb.exists_numeral
  have hmax : max sa sb ≤ intMax := max_le hsa' hsb'
  have hflip : (if subtract then { (⟨q, numeral k, sb⟩ : Num) with negative := !q }
      else ⟨q, numeral k, sb⟩) = ⟨subtract != q, numeral k, sb⟩ := by
    cases subtract <;> simp
  have hterm : signedBy (subtract != q) (k * 10 ^ (max sa sb - sb).toNat) =
      if subtract then -unscaledAt ⟨q, numeral k, sb⟩ (max sa sb)
        else unscaledAt ⟨q, numeral k, sb⟩ (max sa sb) := by
    rw [unscaledAt, unscaled_numeral, signedBy_mul]
    cases subtract
    · rw [if_neg Bool.false_ne_true, Bool.false_bne]
    · rw [if_pos rfl, Bool.true_bne, signedBy_not, neg_mul]
  have hterm' : signedBy p (m * 10 ^ (max sa sb - sa).toNat) =
      unscaledAt ⟨p, numeral m, sa⟩ (max sa sb) := by
    rw [unscaledAt, unscaled_numeral, signedBy_mul]
  rw [numAdd, hflip]
  dsimp only
  rw [alignScale_eq hsa (le_max_left sa sb) hmax, Option.bind_some,
    alignScale_eq hsb (le_max_right sa sb) hmax, Option.map_some, addAligned_eq, hterm, hterm']

theorem numAdd_exact (ha : a.Plain) (hb : b.Plain) (subtract : Bool) :
    ∃ r, numAdd a b subtract = some r ∧ r.Proper ∧ r.scale = max a.scale b.scale ∧
      r.toRat = if subtract then a.toRat - b.toRat else a.toRat + b.toRat := by
  refine ⟨_, numAdd_eq ha hb subtract, ofUnscaled_proper _ _, rfl, ?_⟩
  rw [toRat_ofUnscaled, ← toRat_unscaledAt (le_max_left a.scale b.scale),
    ← toRat_unscaledAt (le_max_right a.scale b.scale)]
  cases subtract
  · rw [if_neg Bool.false_ne_true, if_neg Bool.false_ne_true, Int.cast_add, add_div]
  · rw [if_pos rfl, if_pos rfl, Int.cast_add, Int.cast_neg, ← sub_eq_add_neg, sub_div]

theorem numMul_exact {r : Num} (ha : a.Plain) (hb : b.Plain) (h : numMul a b = some r) :
    r.Proper ∧ r.scale = a.scale + b.scale ∧ r.toRat = a.toRat * b.toRat := by
  obtain ⟨p, m, sa, rfl, -, -⟩ := ha.exists_numeral
  obtain ⟨q, k, sb, rfl, -, -⟩ := hb.exists_numeral
  rw [numMul] at h
  obtain ⟨digits, hdigits, h⟩ := Option.bind_eq_some_iff.mp h
  obtain ⟨scale, hscale, h⟩ := Option.map_eq_some_iff.mp h
  rw [mulAbsDigits_eq_some hdigits, ← of_toInt_eq_some hscale] at h
  have hr : r = .ofUnscaled (signedBy (p != q) (m * k)) (sa + sb) := by
    rw [← mk_eq_ofUnscaled, ← h]
  have hten : (10 : ℚ) ≠ 0 := by norm_num
  rw [hr]
  refine ⟨ofUnscaled_proper _ _, rfl, ?_⟩
  rw [toRat_ofUnscaled, ← signedBy_mul_signedBy, toRat, toRat, unscaled_numeral,
    unscaled_numeral, Int.cast_mul, zpow_add₀ hten, div_mul_div_comm]

theorem numMul_isSome (ha : a.Plain) (hb : b.Plain) (hscale : a.scale + b.scale ≤ intMax)
    (hlength : a.digits.length ≤ 23000000) : ∃ r, numMul a b = some r := by
  obtain ⟨p, m, sa, rfl, hsa, -⟩ := ha.exists_numeral
  obtain ⟨q, k, sb, rfl, hsb, -⟩ := hb.exists_numeral
  obtain ⟨digits, hdigits⟩ := mulAbsDigits_isSome k hlength
  have hlow : intMin ≤ sa + sb := by
    rw [intMin]
    omega
  rw [numMul, hdigits, Option.bind_some]
  dsimp only at hscale ⊢
  rw [toInt_eq_some hlow hscale]
  exact ⟨_, rfl⟩

theorem value_take_drop {s : Bytes} {k : ℕ} (hs : ∀ b ∈ s, IsDigit b) (hk : k ≤ s.length) :
    value (s.take (s.length - k)) = value s / 10 ^ k ∧
      value (s.drop (s.length - k)) = value s % 10 ^ k := by
  have hlen : (s.drop (s.length - k)).length = k := by
    rw [List.length_drop]
    omega
  have hlt : value (s.drop (s.length - k)) < 10 ^ k := by
    have hdigits : ∀ b ∈ s.drop (s.length - k), IsDigit b := fun b hb =>
      hs b (List.mem_of_mem_drop hb)
    have h := value_lt hdigits
    rwa [hlen] at h
  have hsplit : value s =
      value (s.take (s.length - k)) * 10 ^ k + value (s.drop (s.length - k)) := by
    conv_lhs => rw [← List.take_append_drop (s.length - k) s]
    rw [value_append, hlen]
  have hpos : 0 < 10 ^ k := Nat.pow_pos (by decide)
  rw [hsplit, Nat.mul_comm, Nat.mul_add_div hpos, Nat.div_eq_of_lt hlt, Nat.add_zero,
    Nat.mul_add_mod, Nat.mod_eq_of_lt hlt]
  exact ⟨rfl, rfl⟩

theorem five_le_iff {s : Bytes} {k : ℕ} (hs : ∀ b ∈ s, IsDigit b) (hk : k + 1 ≤ s.length) :
    0x35 ≤ s.getD (s.length - (k + 1)) 0 ↔ 10 ^ (k + 1) ≤ 2 * (value s % 10 ^ (k + 1)) := by
  have hlen : (s.drop (s.length - (k + 1))).length = k + 1 := by
    rw [List.length_drop]
    omega
  obtain ⟨c, rest, hdrop⟩ := List.exists_cons_of_length_eq_add_one hlen
  have hget : s.getD (s.length - (k + 1)) 0 = c := by
    rw [List.getD_eq_getElem?_getD, ← List.head?_drop, hdrop]
    rfl
  have hrest : rest.length = k := by
    rw [hdrop, List.length_cons] at hlen
    exact Nat.succ.inj hlen
  have hdigits : ∀ b ∈ c :: rest, IsDigit b := fun b hb =>
    hs b (List.mem_of_mem_drop (hdrop ▸ hb))
  obtain ⟨hc, hdigits⟩ := List.forall_mem_cons.mp hdigits
  have hlt : value rest < 10 ^ k := hrest ▸ value_lt hdigits
  have hfive : (0x35 : Byte) ≤ c ↔ 5 ≤ c.val - 0x30 := by
    have hlow := (isDigit_iff_val.mp hc).1
    rw [Fin.le_def]
    change 0x35 ≤ c.val ↔ _
    omega
  rw [hget, hfive, ← (value_take_drop hs hk).2, hdrop, value_cons, hrest, Nat.pow_succ]
  generalize c.val - 0x30 = d
  generalize 10 ^ k = m at hlt
  constructor
  · intro h
    have := Nat.mul_le_mul_right m h
    omega
  · intro h
    by_contra hlow
    have := Nat.mul_le_mul_right m (by omega : d ≤ 4)
    omega

/-- A numeral with zeros in front, so that a digit is left when some are dropped. -/
def widened (m drop : ℕ) : Bytes :=
  if (numeral m).length ≤ drop then
    List.replicate (drop - (numeral m).length + 1) 0x30 ++ numeral m
  else numeral m

theorem value_zeros_append (k : ℕ) (s : Bytes) : value (List.replicate k 0x30 ++ s) = value s := by
  induction k with
  | zero => rfl
  | succ k ih => rw [List.replicate_succ, List.cons_append, value_zero_cons, ih]

theorem value_widened (m drop : ℕ) : value (widened m drop) = m := by
  rw [widened]
  split
  · rw [value_zeros_append, value_numeral]
  · exact value_numeral m

theorem isDigit_widened {m drop : ℕ} : ∀ b ∈ widened m drop, IsDigit b := by
  intro b hb
  rw [widened] at hb
  split at hb
  · rcases List.mem_append.mp hb with hb | hb
    · rw [List.eq_of_mem_replicate hb]
      decide
    · exact digit_mem_numeral hb
  · exact digit_mem_numeral hb

theorem lt_length_widened (m drop : ℕ) : drop < (widened m drop).length := by
  rw [widened]
  split
  · rw [List.length_append, List.length_replicate]
    omega
  · omega

theorem take_widened {m drop : ℕ} (hdrop : 0 < drop) :
    (widened m drop).take ((widened m drop).length - drop) = numeral (m / 10 ^ drop) := by
  have hvalue := (value_take_drop isDigit_widened (lt_length_widened m drop).le).1
  rw [value_widened] at hvalue
  rw [← hvalue]
  refine IsNumeral.eq_numeral ⟨fun b hb => isDigit_widened b (List.mem_of_mem_take hb), ?_, ?_⟩
  · refine List.ne_nil_of_length_pos ?_
    have := lt_length_widened m drop
    rw [List.length_take]
    omega
  · intro hhead
    rw [widened] at hhead ⊢
    split
    next hshort =>
      rw [List.length_append, List.length_replicate, List.replicate_succ, List.cons_append]
      have hone : drop - (numeral m).length + 1 + (numeral m).length - drop = 1 := by omega
      rw [hone, List.take_succ_cons, List.take_zero]
    next hlong =>
      rw [if_neg hlong, List.head?_take, if_neg (by omega)] at hhead
      have hone := (isNumeral_numeral m).lead hhead
      rw [hone] at hlong
      exact absurd hdrop (by simpa using hlong)

theorem stripZeros_numeral (n : ℕ) : stripZeros (numeral n) = numeral n := by
  rw [stripZeros_eq fun _ => digit_mem_numeral, value_numeral]

theorem roundOrCut_signedBy (cut negative : Bool) (m d : ℕ) (hd : 0 < d) :
    roundOrCut cut ((signedBy negative m : ℚ) / d) =
      signedBy negative (m / d + if cut = false ∧ d ≤ 2 * (m % d) then 1 else 0) := by
  have hnat := roundOrCut_natCast_div cut (n := m) hd
  cases negative with
  | false =>
    rw [signedBy, if_neg Bool.false_ne_true, Int.cast_natCast, hnat, signedBy,
      if_neg Bool.false_ne_true]
    push_cast
    rfl
  | true =>
    rw [signedBy, if_pos rfl, Int.cast_neg, Int.cast_natCast, neg_div, roundOrCut_neg,
      hnat, signedBy, if_pos rfl]
    push_cast
    rfl

theorem numRound_drop {negative : Bool} {m : ℕ} {scale goal : ℤ} (cut : Bool) (hlt : goal < scale)
    (hdrop : scale - goal ≤ intMax) : numRound ⟨negative, numeral m, scale⟩ goal cut =
      some (.ofUnscaled (roundOrCut cut
        ((signedBy negative m : ℚ) / (10 ^ (scale - goal).toNat : ℕ))) goal) := by
  obtain ⟨k, hk⟩ : ∃ k, (scale - goal).toNat = k + 1 := ⟨(scale - goal).toNat - 1, by omega⟩
  have hint : toInt (scale - goal) = some (scale - goal) :=
    toInt_eq_some (by rw [intMin]; omega) hdrop
  have hup : (!cut && decide ((0x35 : Byte) ≤ (widened m (k + 1)).getD
      ((widened m (k + 1)).length - (k + 1)) 0)) =
        decide (cut = false ∧ 10 ^ (k + 1) ≤ 2 * (m % 10 ^ (k + 1))) := by
    have hfive := five_le_iff isDigit_widened (lt_length_widened m (k + 1)).le
    rw [value_widened] at hfive
    rw [Bool.decide_and, decide_eq_decide.mpr hfive]
    cases cut <;> rfl
  have hkept : (widened m (k + 1)).take ((widened m (k + 1)).length - (k + 1)) =
      numeral (m / 10 ^ (k + 1)) := take_widened (Nat.succ_pos k)
  have hone : ([0x31] : Bytes) = numeral 1 := rfl
  have hrounded : stripZeros (if decide (cut = false ∧ 10 ^ (k + 1) ≤ 2 * (m % 10 ^ (k + 1)))
      then addAbsDigits (numeral (m / 10 ^ (k + 1))) [0x31] else numeral (m / 10 ^ (k + 1))) =
        numeral (m / 10 ^ (k + 1) +
          if cut = false ∧ 10 ^ (k + 1) ≤ 2 * (m % 10 ^ (k + 1)) then 1 else 0) := by
    rw [hone, addAbsDigits_numeral]
    by_cases h : cut = false ∧ 10 ^ (k + 1) ≤ 2 * (m % 10 ^ (k + 1))
    · rw [decide_eq_true h, if_pos rfl, if_pos h, stripZeros_numeral]
    · rw [decide_eq_false h, if_neg Bool.false_ne_true, if_neg h, stripZeros_numeral]
      rfl
  rw [hk, roundOrCut_signedBy cut negative m _ (Nat.pow_pos (by decide)), ← mk_eq_ofUnscaled,
    ← hrounded, ← hkept, ← hup, numRound, if_neg (not_le.mpr hlt)]
  dsimp only
  rw [hint, Option.map_some, hk]
  rfl

theorem ten_ne_zero : (10 : ℚ) ≠ 0 := by
  norm_num

theorem numRound_exact {n : Num} (cut : Bool) (hn : n.Plain) (hproper : n.Proper)
    (hgoal : goal ≤ intMax) (hdrop : n.scale - goal ≤ intMax) :
    ∃ r, numRound n goal cut = some r ∧ r.Proper ∧ r.scale = goal ∧
      r.toRat = roundOrCut cut (n.toRat * 10 ^ goal) / 10 ^ goal := by
  have hten : (10 : ℚ) ^ goal ≠ 0 := zpow_ne_zero _ ten_ne_zero
  by_cases hle : n.scale ≤ goal
  · have hexact := toRat_unscaledAt hle
    have hround : (roundOrCut cut (n.toRat * 10 ^ goal) : ℚ) / 10 ^ goal = n.toRat := by
      rw [← hexact, div_mul_cancel₀ _ hten, roundOrCut_intCast]
    rw [hround]
    obtain ⟨p, m, scale, rfl, hscale, -⟩ := hn.exists_numeral
    rw [numRound, if_pos hle, alignScale_eq hscale hle hgoal]
    refine ⟨_, rfl, ⟨isNumeral_numeral _, fun hp hzero => ?_⟩, rfl, ?_⟩
    · have hm : m ≠ 0 := fun hm => hproper.sign hp (numeral_eq_zeroDigits.mpr hm)
      have hpos : 0 < m * 10 ^ (goal - scale).toNat :=
        Nat.mul_pos (Nat.pos_of_ne_zero hm) (Nat.pow_pos (by decide))
      exact hpos.ne' (numeral_eq_zeroDigits.mp hzero)
    · rw [toRat, unscaled_numeral, signedBy_mul, ← hexact, unscaledAt, unscaled_numeral]
  · obtain ⟨p, m, scale, rfl, -, -⟩ := hn.exists_numeral
    have hlt : goal < scale := not_le.mp hle
    refine ⟨_, numRound_drop cut hlt hdrop, ofUnscaled_proper _ _, rfl, ?_⟩
    have hpow : (10 : ℚ) ^ scale = (10 ^ (scale - goal).toNat : ℕ) * 10 ^ goal := by
      push_cast
      rw [← zpow_natCast, Int.toNat_of_nonneg (by omega), ← zpow_add₀ ten_ne_zero, sub_add_cancel]
    have hquot : toRat ⟨p, numeral m, scale⟩ * 10 ^ goal =
        (signedBy p m : ℚ) / (10 ^ (scale - goal).toNat : ℕ) := by
      rw [toRat, unscaled_numeral, hpow, div_mul_eq_mul_div, mul_div_mul_right _ _ hten]
    rw [toRat_ofUnscaled, hquot]

def quotientDigits (m k : ℕ) (shift : ℤ) : ℕ :=
  m * 10 ^ shift.toNat / (k * 10 ^ (-shift).toNat)

theorem quotientDigits_eq (m k : ℕ) (shift : ℤ) :
    (quotientDigits m k shift : ℤ) = ⌊(m : ℚ) / k * 10 ^ shift⌋ := by
  have hpow : (10 : ℚ) ^ shift = 10 ^ shift.toNat / 10 ^ (-shift).toNat := by
    rw [← zpow_natCast, ← zpow_natCast, ← zpow_sub₀ ten_ne_zero]
    congr 1
    omega
  rw [quotientDigits, Int.natCast_div, ← Rat.floor_natCast_div_natCast, hpow]
  push_cast
  rw [div_mul_div_comm]

theorem numDiv_eq {p q : Bool} {m k : ℕ} {sa sb : ℤ} (cut : Bool) (hk : 0 < k) (hsa : 0 ≤ sa)
    (hsb : 0 ≤ sb) (hgoal : intMin ≤ goal) (hup : goal + 1 + sb ≤ intMax)
    (hshift : -intMax ≤ goal + 1 + sb - sa) :
    numDiv ⟨p, numeral m, sa⟩ ⟨q, numeral k, sb⟩ goal cut = some (.ofUnscaled
      (roundOrCut cut ((signedBy (p != q) (quotientDigits m k (goal + 1 + sb - sa)) : ℚ) / 10))
      goal) := by
  have hguard : toInt (goal + 1) = some (goal + 1) := toInt_eq_some (by omega) (by omega)
  have hsum : toInt (goal + 1 + sb) = some (goal + 1 + sb) := toInt_eq_some (by omega) hup
  have hint : toInt (goal + 1 + sb - sa) = some (goal + 1 + sb - sa) :=
    toInt_eq_some (by rw [intMax] at hshift; rw [intMin]; omega) (by omega)
  have hone : goal + 1 - goal = 1 := by omega
  rw [numDiv]
  dsimp only
  rw [hguard, Option.bind_some, hsum, Option.bind_some, hint, Option.bind_some]
  generalize goal + 1 + sb - sa = shift at hshift ⊢
  have hquot : ((divOperands ⟨p, numeral m, sa⟩ ⟨q, numeral k, sb⟩ shift).bind
      fun operands => divAbsDigits operands.1 operands.2) =
        some (numeral (quotientDigits m k shift)) := by
    have hdigits := isDigit_append_zeros (fun _ => digit_mem_numeral (n := m)) shift.toNat
    have hvalue := value_append_zeros (numeral m) shift.toNat
    rw [value_numeral] at hvalue
    rw [divOperands]
    split
    next h =>
      have hzero : (-shift).toNat = 0 := by omega
      rw [Option.bind_some, zeros]
      dsimp only
      rw [divAbsDigits_eq hk hdigits, hvalue, quotientDigits, hzero, Nat.pow_zero, Nat.mul_one]
    next h =>
      have hzero : shift.toNat = 0 := by omega
      rw [toInt_eq_some (by rw [intMin]; omega) (by omega), Option.map_some, Option.bind_some]
      dsimp only
      rw [zeros, numeral_append_zeros hk,
        divAbsDigits_eq (Nat.mul_pos hk (Nat.pow_pos (by decide))) fun _ => digit_mem_numeral,
        value_numeral, quotientDigits, hzero, Nat.pow_zero, Nat.mul_one]
  obtain ⟨operands, hoperands, hdigits⟩ := Option.bind_eq_some_iff.mp hquot
  rw [hoperands, Option.bind_some, hdigits, Option.bind_some, numRound_drop cut (lt_add_one goal)
    (by rw [hone]; decide), hone, signedBy_nonzero]
  norm_num

theorem numDiv_exact (cut : Bool) (ha : a.Plain) (hb : b.Plain) (hne : b.digits ≠ zeroDigits)
    (hgoal : intMin ≤ goal) (hup : goal + 1 + b.scale ≤ intMax)
    (hshift : -intMax ≤ goal + 1 + b.scale - a.scale) :
    ∃ r, numDiv a b goal cut = some r ∧ r.Proper ∧ r.scale = goal ∧
      r.toRat = roundOrCut cut (a.toRat / b.toRat * 10 ^ goal) / 10 ^ goal := by
  obtain ⟨p, m, sa, rfl, hsa, -⟩ := ha.exists_numeral
  obtain ⟨q, k, sb, rfl, hsb, -⟩ := hb.exists_numeral
  have hk : 0 < k := Nat.pos_of_ne_zero fun hk => hne (numeral_eq_zeroDigits.mpr hk)
  refine ⟨_, numDiv_eq cut hk hsa hsb hgoal hup hshift, ofUnscaled_proper _ _, rfl, ?_⟩
  dsimp only at hshift ⊢
  have hnonneg : (0 : ℚ) ≤ (m : ℚ) / k * 10 ^ (goal + 1 + sb - sa) :=
    mul_nonneg (div_nonneg m.cast_nonneg k.cast_nonneg) (zpow_nonneg (by norm_num) _)
  have hround (sign : Bool) : roundOrCut cut
      ((signedBy sign (quotientDigits m k (goal + 1 + sb - sa)) : ℚ) / 10) =
        roundOrCut cut ((signedBy sign 1 : ℚ) *
          ((m : ℚ) / k * 10 ^ (goal + 1 + sb - sa) / 10)) := by
    have hfloor := roundOrCut_floor_div cut hnonneg
    rw [← quotientDigits_eq, Int.cast_natCast] at hfloor
    cases sign with
    | false => simpa [signedBy] using hfloor
    | true => simpa [signedBy, neg_div, roundOrCut_neg] using hfloor
  have hquot : (signedBy (p != q) 1 : ℚ) * ((m : ℚ) / k * 10 ^ (goal + 1 + sb - sa) / 10) =
      toRat ⟨p, numeral m, sa⟩ / toRat ⟨q, numeral k, sb⟩ * 10 ^ goal := by
    have hk' : (k : ℚ) ≠ 0 := Nat.cast_ne_zero.mpr hk.ne'
    have hpow : (10 : ℚ) ^ (goal + 1 + sb - sa) = 10 ^ goal * 10 * 10 ^ sb / 10 ^ sa := by
      rw [zpow_sub₀ ten_ne_zero, zpow_add₀ ten_ne_zero, zpow_add₀ ten_ne_zero, zpow_one]
    have hsa0 : (10 : ℚ) ^ sa ≠ 0 := zpow_ne_zero _ ten_ne_zero
    have hsb0 : (10 : ℚ) ^ sb ≠ 0 := zpow_ne_zero _ ten_ne_zero
    rw [toRat, toRat, unscaled_numeral, unscaled_numeral, hpow]
    cases p <;> cases q <;> simp only [signedBy] <;> push_cast <;> field_simp <;> simp
  rw [toRat_ofUnscaled, hround, hquot]

theorem quotientTurn_eq {ub r k : ℕ} (hub : ub ≤ 900000000000000000) (hr : r < ub) (hk : k < 9) :
    quotientTurn ub (r * 10 ^ k % ub, r * 10 ^ k / ub) =
      (r * 10 ^ (k + 1) % ub, r * 10 ^ (k + 1) / ub) := by
  have hpos : 0 < ub := Nat.zero_lt_of_lt hr
  have hmod := Nat.mod_lt (r * 10 ^ k) hpos
  have hlt : r * 10 ^ k / ub < 10 ^ k := Nat.div_lt_of_lt_mul (Nat.mul_lt_mul_of_pos_right hr
    (Nat.pow_pos (by decide)))
  have hpow : 10 ^ k ≤ 10 ^ 8 := Nat.pow_le_pow_right (by decide) (by omega)
  have hrest : r * 10 ^ k % ub * 10 / ub < 10 := Nat.div_lt_of_lt_mul (by omega)
  have hwhole : r * 10 ^ (k + 1) = r * 10 ^ k % ub * 10 + ub * (r * 10 ^ k / ub * 10) := by
    have hsplit := Nat.div_add_mod (r * 10 ^ k) ub
    calc r * 10 ^ (k + 1) = r * 10 ^ k * 10 := by ring
      _ = (ub * (r * 10 ^ k / ub) + r * 10 ^ k % ub) * 10 := by rw [hsplit]
      _ = _ := by ring
  have h64 {n : ℕ} (h : n < 2 ^ 64) : u64 n = n := Nat.mod_eq_of_lt h
  have hrest64 : u64 (r * 10 ^ k % ub * 10) = r * 10 ^ k % ub * 10 := h64 (by omega)
  have hfraction64 : u64 (r * 10 ^ k / ub * 10) = r * 10 ^ k / ub * 10 := h64 (by omega)
  have hsum64 : u64 (r * 10 ^ k / ub * 10 + r * 10 ^ k % ub * 10 / ub) =
      r * 10 ^ k / ub * 10 + r * 10 ^ k % ub * 10 / ub := h64 (by omega)
  rw [quotientTurn]
  dsimp only
  rw [hrest64, hfraction64, hsum64, hwhole, Nat.add_mul_mod_self_left,
    Nat.add_mul_div_left _ _ hpos, Nat.add_comm]

theorem iterate_quotientTurn {ub r : ℕ} (hub : ub ≤ 900000000000000000) (hr : r < ub) : ∀ {k : ℕ},
    k ≤ 9 → (quotientTurn ub)^[k] (r, 0) = (r * 10 ^ k % ub, r * 10 ^ k / ub)
  | 0, _ => by
      rw [Function.iterate_zero, id, Nat.pow_zero, Nat.mul_one, Nat.mod_eq_of_lt hr,
        Nat.div_eq_of_lt hr]
  | k + 1, hk => by
      rw [Function.iterate_succ', Function.comp_apply, iterate_quotientTurn hub hr (by omega),
        quotientTurn_eq hub hr (by omega)]

theorem intQuotient_eq_numDiv {a b : ℤ} {r : Num} (hb : b ≠ 0) (h : intQuotient a b = some r) :
    numDiv (.fromInt a) (.fromInt b) 9 true = some r := by
  rw [intQuotient] at h
  split at h
  next => exact nomatch h
  next hub =>
    have hpos : 0 < b.natAbs := Int.natAbs_pos.mpr hb
    have hmod := Nat.mod_lt a.natAbs hpos
    have hturns := iterate_quotientTurn (not_lt.mp hub) hmod (Nat.le_refl 9)
    have hlt : a.natAbs % b.natAbs * 10 ^ 9 / b.natAbs < 10 ^ 9 :=
      Nat.div_lt_of_lt_mul (Nat.mul_lt_mul_of_pos_right hmod (by decide))
    have hquot : a.natAbs * 10 ^ 9 / b.natAbs = a.natAbs / b.natAbs * 10 ^ 9 +
        a.natAbs % b.natAbs * 10 ^ 9 / b.natAbs := by
      have hsplit : a.natAbs * 10 ^ 9 =
          a.natAbs % b.natAbs * 10 ^ 9 + b.natAbs * (a.natAbs / b.natAbs * 10 ^ 9) := by
        conv_lhs => rw [← Nat.div_add_mod a.natAbs b.natAbs]
        ring
      rw [hsplit, Nat.add_mul_div_left _ _ hpos, Nat.add_comm]
    have hdigits : stripZeros (numeral (a.natAbs / b.natAbs) ++
        padded 9 (a.natAbs % b.natAbs * 10 ^ 9 / b.natAbs)) =
          numeral (a.natAbs * 10 ^ 9 / b.natAbs) := by
      have hall : ∀ d ∈ numeral (a.natAbs / b.natAbs) ++
          padded 9 (a.natAbs % b.natAbs * 10 ^ 9 / b.natAbs), IsDigit d := by
        intro d hd
        exact (List.mem_append.mp hd).elim digit_mem_numeral isDigit_of_mem_padded
      rw [stripZeros_eq hall, value_append, value_numeral, value_padded, length_padded_of_lt hlt,
        ← hquot]
    have hr : r = .ofUnscaled (signedBy (decide (a < 0) != decide (b < 0))
        (a.natAbs * 10 ^ 9 / b.natAbs)) 9 := by
      rw [← Option.some.inj h, hturns, ← mk_eq_ofUnscaled, ← hdigits]
    have hlong : quotientDigits a.natAbs b.natAbs (9 + 1 + 0 - 0) / 10 =
        a.natAbs * 10 ^ 9 / b.natAbs := by
      change a.natAbs * 10 ^ 10 / (b.natAbs * 1) / 10 = _
      rw [Nat.mul_one, Nat.div_div_eq_div_mul, Nat.pow_succ, ← Nat.mul_assoc,
        Nat.mul_div_mul_right _ _ (by decide)]
    have hcut := roundOrCut_signedBy true (decide (a < 0) != decide (b < 0))
      (quotientDigits a.natAbs b.natAbs (9 + 1 + 0 - 0)) 10 (by decide)
    rw [if_neg (fun h => Bool.noConfusion h.1), Nat.add_zero, hlong] at hcut
    rw [fromInt, fromInt, numDiv_eq true hpos le_rfl le_rfl (by decide) (by decide)
      (by decide), hr]
    exact congrArg (fun v => some (ofUnscaled v 9)) hcut

/-- Sums, differences and products are exact; rounded numbers and quotients are the nearest ones of
the scale, or those cut off; every result is a numeral and no negative zero; a digit of a quotient
takes nine subtractions at most; and the fast quotient of integers is the long one. The ints of a
sum never overflow, those of the others not within the bounds given. -/
theorem arithmetic_exact :
    (∀ (a b : Num) (subtract : Bool), a.Plain → b.Plain → ∃ r, numAdd a b subtract = some r ∧
      r.Proper ∧ r.scale = max a.scale b.scale ∧
        r.toRat = if subtract then a.toRat - b.toRat else a.toRat + b.toRat) ∧
    (∀ a b : Num, a.Plain → b.Plain →
      (∀ r, numMul a b = some r →
        r.Proper ∧ r.scale = a.scale + b.scale ∧ r.toRat = a.toRat * b.toRat) ∧
      (a.scale + b.scale ≤ intMax → a.digits.length ≤ 23000000 → ∃ r, numMul a b = some r)) ∧
    (∀ (n : Num) (goal : ℤ) (cut : Bool), n.Plain → n.Proper → goal ≤ intMax →
      n.scale - goal ≤ intMax → ∃ r, numRound n goal cut = some r ∧ r.Proper ∧ r.scale = goal ∧
        r.toRat = roundOrCut cut (n.toRat * 10 ^ goal) / 10 ^ goal) ∧
    (∀ (a b : Num) (goal : ℤ) (cut : Bool), a.Plain → b.Plain → b.digits ≠ zeroDigits →
      intMin ≤ goal → goal + 1 + b.scale ≤ intMax → -intMax ≤ goal + 1 + b.scale - a.scale →
        ∃ r, numDiv a b goal cut = some r ∧ r.Proper ∧ r.scale = goal ∧
          r.toRat = roundOrCut cut (a.toRat / b.toRat * 10 ^ goal) / 10 ^ goal) ∧
    (∀ (d r : ℕ) (ch : Byte), r < d → IsDigit ch → ∃ rem count, count ≤ 9 ∧
      divDigit (numeral d) (stripZeros (numeral r ++ [ch])) = some (numeral rem, count) ∧
        rem < d) ∧
    ∀ (a b : ℤ) (r : Num), b ≠ 0 → intQuotient a b = some r →
      numDiv (.fromInt a) (.fromInt b) 9 true = some r := by
  refine ⟨fun a b subtract ha hb => numAdd_exact ha hb subtract, fun a b ha hb =>
    ?_, ?_, ?_, ?_, ?_⟩
  · exact ⟨fun r => numMul_exact ha hb, numMul_isSome ha hb⟩
  · exact fun n goal cut hn hproper => numRound_exact cut hn hproper
  · exact fun a b goal cut ha hb hne => numDiv_exact cut ha hb hne
  · intro d r ch hr hch
    obtain ⟨hcount, hrun⟩ := divDigit_eq hr hch
    exact ⟨_, _, Nat.le_of_lt_succ hcount, hrun, Nat.mod_lt _ (Nat.zero_lt_of_lt hr)⟩
  · exact fun a b r hb => intQuotient_eq_numDiv hb

/-- Two and three: their difference, their product, and two thirds. -/
theorem arithmetic_exact_thirds :
    (∃ r, numAdd (.fromInt 2) (.fromInt 3) true = some r ∧
      r.toRat = (Num.fromInt 2).toRat - (Num.fromInt 3).toRat) ∧
    (∃ r, numMul (.fromInt 2) (.fromInt 3) = some r) ∧
    (∃ r, numRound (.fromInt 3) (-1) false = some r ∧ r.Proper) ∧
    (∃ r, numDiv (.fromInt 2) (.fromInt 3) 4 false = some r ∧ r.Proper) ∧
    (∃ rem count, count ≤ 9 ∧ divDigit (numeral 3) (stripZeros (numeral 2 ++ [0x30])) =
      some (numeral rem, count)) ∧
    numDiv (.fromInt 2) (.fromInt 3) 9 true = some ⟨false, numeral 666666666, 9⟩ := by
  have htwo : Num.Plain (.fromInt 2) := ⟨isNumeral_numeral 2, le_rfl, by decide⟩
  have hthree : Num.Plain (.fromInt 3) := ⟨isNumeral_numeral 3, le_rfl, by decide⟩
  have hproper : Num.Proper (.fromInt 3) := ⟨isNumeral_numeral 3, nofun⟩
  obtain ⟨hadd, hmul, hround, hdiv, hdigit, hquotient⟩ := arithmetic_exact
  obtain ⟨sum, hsum, -, -, hvalue⟩ := hadd _ _ true htwo hthree
  obtain ⟨rounded, hrounded, hnumeral, -⟩ :=
    hround _ (-1) false hthree hproper (by decide) (by decide)
  obtain ⟨quotient, hquot, hquot', -⟩ :=
    hdiv _ _ 4 false htwo hthree (by decide) (by decide) (by decide) (by decide)
  obtain ⟨rem, count, hcount, hturn, -⟩ := hdigit 3 2 0x30 (by decide) (by decide)
  exact ⟨⟨sum, hsum, hvalue⟩, (hmul _ _ htwo hthree).2 (by decide) (by decide),
    ⟨rounded, hrounded, hnumeral⟩, ⟨quotient, hquot, hquot'⟩, ⟨rem, count, hcount, hturn⟩,
    hquotient 2 3 _ (by decide) (by decide)⟩

/-- A negative zero stays one where it is not rounded, and the ints of the scales can overflow. -/
theorem not_arithmetic_exact :
    (Num.Plain ⟨true, zeroDigits, 0⟩ ∧
      numRound ⟨true, zeroDigits, 0⟩ 0 false = some ⟨true, zeroDigits, 0⟩ ∧
        ¬ Num.Proper ⟨true, zeroDigits, 0⟩) ∧
    Num.Plain ⟨false, [0x31], intMax⟩ ∧ Num.Plain ⟨false, [0x31], 1⟩ ∧
      numMul ⟨false, [0x31], intMax⟩ ⟨false, [0x31], 1⟩ = none ∧
        numRound ⟨false, [0x31], 1⟩ intMin false = none ∧
          numDiv ⟨false, [0x31], 1⟩ ⟨false, [0x31], 1⟩ intMax false = none := by
  have hzero : IsNumeral zeroDigits := isNumeral_numeral 0
  have hone : IsNumeral [0x31] := isNumeral_numeral 1
  refine ⟨⟨⟨hzero, le_rfl, by decide⟩, by decide, fun h => h.sign rfl rfl⟩,
    ⟨hone, by decide, le_rfl⟩,
    ⟨hone, by decide, by decide⟩, by decide, by decide, by decide⟩

end RusqlEngine.SqlVal
