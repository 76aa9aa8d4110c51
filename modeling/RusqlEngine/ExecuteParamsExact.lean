import RusqlEngine.ExecuteParams

/-!
# Which parameters are read as they were sent

Dates, times and timestamps are not laid out as the reader takes them, an unsigned integer is read
as a signed one, and without a type block every parameter is read as a string. The others come out
as they were sent. Whatever the payload holds, nothing outside of it is read.
-/

namespace RusqlEngine.ExecuteParams

open Buffer Param

section

variable (doubles : DoubleText) (payload : Bytes)

theorem readLenenc_inside (buf : Bytes) : Inside (readLenenc buf buf.length) := by
  rw [readLenenc]
  split
  next => exact inside_ok _
  next hne =>
    refine (readAt_inside (by omega)).bind fun b => ?_
    split
    next => exact inside_ok _
    next =>
      split
      next htwo =>
        exact (readAt_inside (by omega)).bind fun _ => (readAt_inside (by omega)).bind fun _ =>
          inside_ok _
      next =>
        split
        next hthree =>
          exact (readAt_inside (by omega)).bind fun _ => (readAt_inside (by omega)).bind fun _ =>
            (readAt_inside (by omega)).bind fun _ => inside_ok _
        next => exact inside_ok _

theorem byteOr_inside (otherwise : Byte) (pos : ℕ) : Inside (byteOr payload otherwise pos) := by
  rw [byteOr]
  split
  next hpos => exact readAt_inside hpos
  next => exact inside_ok _

theorem readFixed_inside (size : ℕ) (text : Bytes → Bytes) (pos : ℕ) :
    Inside (readFixed payload size text pos) := by
  rw [readFixed]
  split
  next => exact inside_ok _
  next hend => exact (readSlice_inside (not_lt.mp hend)).bind fun _ => inside_ok _

theorem readDatetime_inside (pos : ℕ) : Inside (readDatetime payload pos) := by
  refine (byteOr_inside payload 0 pos).bind fun dlen => ?_
  dsimp only
  split
  next hdate =>
    refine (readSlice_inside hdate.2).bind fun date => ?_
    split
    next hseven => exact (readSlice_inside (by omega)).bind fun _ => inside_ok _
    next => exact inside_ok _
  next => exact inside_ok _

theorem readText_inside (pos : ℕ) : Inside (readText payload pos) := by
  rw [readText]
  split
  next => exact inside_ok _
  next =>
    have hlenenc := readLenenc_inside (payload.drop pos)
    rw [List.length_drop] at hlenenc
    refine hlenenc.bind fun length => ?_
    dsimp only
    split
    next => exact inside_ok _
    next hend => exact (readSlice_inside (not_lt.mp hend)).bind fun _ => inside_ok _

theorem readValue_inside (ft : Byte) (pos : ℕ) : Inside (readValue doubles payload ft pos) := by
  rw [readValue]
  split_ifs
  · exact (byteOr_inside payload 0 pos).bind fun _ => inside_ok _
  all_goals
    first
    | exact readFixed_inside payload _ _ pos
    | exact readDatetime_inside payload pos
    | exact readText_inside payload pos

theorem readTypes_inside : ∀ count pos : ℕ, Inside (readTypes payload count pos)
  | 0, _ => inside_ok _
  | count + 1, pos =>
    (byteOr_inside payload _ pos).bind fun _ => (byteOr_inside payload _ _).bind fun _ =>
      (readTypes_inside count (pos + 2)).bind fun _ => inside_ok _

theorem length_readTypes : ∀ {count pos : ℕ} {read : List Byte × ℕ},
    readTypes payload count pos = .ok read → read.1.length = count
  | 0, _, _, h => by
      cases h
      rfl
  | count + 1, pos, _, h => by
      obtain ⟨ft, hft⟩ := byteOr_inside payload 0xFD pos
      obtain ⟨flag, hflag⟩ := byteOr_inside payload 0 (pos + 1)
      obtain ⟨more, hmore⟩ := readTypes_inside payload count (pos + 2)
      rw [readTypes, hft, ok_bind, hflag, ok_bind, hmore, ok_bind] at h
      cases h
      exact congrArg (· + 1) (length_readTypes hmore)

theorem readParams_inside : ∀ {i : ℕ} {types : List Byte} {pos : ℕ},
    9 + (i + types.length + 7) / 8 ≤ payload.length →
    Inside (readParams doubles payload i types pos)
  | _, [], _, _ => inside_ok _
  | i, ft :: types, pos, h => by
      have hrest : 9 + (i + 1 + types.length + 7) / 8 ≤ payload.length := by
        rw [List.length_cons] at h
        omega
      have hbits : 9 + i / 8 + 1 ≤ payload.length := by
        rw [List.length_cons] at h
        omega
      refine (readAt_inside hbits).bind fun bits => ?_
      split
      next => exact (readParams_inside hrest).bind fun _ => inside_ok _
      next =>
        exact (readValue_inside doubles payload ft pos).bind fun _ =>
          (readParams_inside hrest).bind fun _ => inside_ok _

theorem parseExecuteParams_inside (numParams : ℕ) :
    Inside (parseExecuteParams doubles payload numParams) := by
  rw [parseExecuteParams]
  split_ifs with hzero hshort hbitmap
  · exact inside_ok _
  · exact inside_ok _
  · exact inside_ok _
  · refine (byteOr_inside payload 0 _).bind fun newParamsBound => ?_
    dsimp only
    split
    next =>
      obtain ⟨read, hread⟩ := readTypes_inside payload numParams (9 + (numParams + 7) / 8 + 1)
      rw [hread, ok_bind]
      apply readParams_inside
      rw [length_readTypes payload hread]
      omega
    next =>
      rw [ok_bind]
      apply readParams_inside
      rw [List.length_replicate]
      omega

end

variable {pos : ℕ} {s : Bytes}

theorem byteOr_append (before rest : Bytes) (b otherwise : Byte) :
    byteOr (before ++ b :: rest) otherwise before.length = .ok b := by
  have hlt : before.length < (before ++ b :: rest).length := by
    rw [List.length_append, List.length_cons]
    omega
  rw [byteOr, if_pos hlt]
  exact readAt_of_drop List.drop_left

theorem readFixed_append (before rest : Bytes) {slice : Bytes} {size : ℕ} (text : Bytes → Bytes)
    (hsize : slice.length = size) :
    readFixed (before ++ (slice ++ rest)) size text before.length =
      .ok (text slice, before.length + size) := by
  subst hsize
  rw [readFixed, if_neg (by simp only [List.length_append]; omega), readSlice_append]
  rfl

theorem readSlice_inner (before slice rest : Bytes) {len : ℕ} (hpos : before.length = pos)
    (hlen : slice.length = len) : readSlice (before ++ (slice ++ rest)) pos len = .ok slice := by
  rw [← hpos, ← hlen]
  exact readSlice_append before slice rest

theorem readDatetime_append (before rest : Bytes) (dlen : Byte) (fields : Bytes)
    (hlen : fields.length = dlen.val) :
    readDatetime (before ++ (dlen :: (fields ++ rest))) before.length =
      .ok (if 4 ≤ dlen then
          quoted (dateOf (fields.take 4) ++
            0x20 :: timeOf (if 7 ≤ dlen then (fields.drop 4).take 3 else [0, 0, 0]))
        else nullText, before.length + 1 + dlen.val) := by
  have hpayload : before ++ (dlen :: (fields ++ rest)) =
    (before ++ [dlen]) ++ (fields ++ rest) := by
    simp only [List.append_assoc, List.singleton_append]
  have hpos : (before ++ [dlen]).length = before.length + 1 := by
    rw [List.length_append, List.length_singleton]
  have hroom : ∀ {k : ℕ}, k ≤ dlen.val →
      before.length + 1 + k ≤ (before ++ (dlen :: (fields ++ rest))).length := by
    intro k hk
    rw [hpayload]
    simp only [List.length_append, List.length_singleton, hlen]
    omega
  rw [readDatetime, byteOr_append, ok_bind]
  dsimp only
  by_cases hdate : 4 ≤ dlen
  · have hfour : 4 ≤ dlen.val := hdate
    have hread : readSlice (before ++ (dlen :: (fields ++ rest))) (before.length + 1) 4 =
        .ok (fields.take 4) := by
      have hsplit : fields ++ rest = fields.take 4 ++ (fields.drop 4 ++ rest) := by
        rw [← List.append_assoc, List.take_append_drop]
      rw [hpayload, hsplit]
      exact readSlice_inner _ _ _ hpos (List.length_take_of_le (by omega))
    rw [if_pos ⟨hdate, hroom hfour⟩, hread, ok_bind, if_pos hdate]
    by_cases htime : 7 ≤ dlen
    · have hseven : 7 ≤ dlen.val := htime
      have hread' : readSlice (before ++ (dlen :: (fields ++ rest))) (before.length + 1 + 4) 3 =
          .ok ((fields.drop 4).take 3) := by
        have hsplit : fields ++ rest =
            fields.take 4 ++ ((fields.drop 4).take 3 ++ ((fields.drop 4).drop 3 ++ rest)) := by
          rw [← List.append_assoc ((fields.drop 4).take 3), List.take_append_drop,
            ← List.append_assoc, List.take_append_drop]
        rw [hpayload, hsplit, ← List.append_assoc (before ++ [dlen])]
        apply readSlice_inner
        · rw [List.length_append, hpos, List.length_take_of_le (by omega)]
        · rw [List.length_take_of_le]
          rw [List.length_drop]
          omega
      rw [if_pos ⟨htime, hroom hseven⟩, hread', if_pos htime]
      rfl
    · rw [if_neg fun h => htime h.1, if_neg htime]
      rfl
  · rw [if_neg fun h => hdate h.1, if_neg hdate]

theorem readText_append (before head s rest : Bytes) (hne : head ≠ [])
    (hread : readLenenc (head ++ (s ++ rest)) (head ++ (s ++ rest)).length =
      .ok (s.length, head.length)) :
    readText (before ++ (head ++ (s ++ rest))) before.length =
      .ok (quoted (escaped s), before.length + head.length + s.length) := by
  have hpos : 0 < head.length := List.length_pos_iff.mpr hne
  have hlength : (before ++ (head ++ (s ++ rest))).length - before.length =
      (head ++ (s ++ rest)).length := by
    rw [List.length_append, Nat.add_sub_cancel_left]
  rw [readText, if_neg (by simp only [List.length_append]; omega), List.drop_left, hlength, hread,
    ok_bind]
  dsimp only
  rw [if_neg (by simp only [List.length_append]; omega), ← List.append_assoc before head,
    readSlice_inner (before ++ head) s rest List.length_append rfl, ok_bind]

theorem readLenenc_byte (rest : Bytes) {b : Byte} (h : b < 251) :
    readLenenc (b :: rest) (b :: rest).length = .ok (b.val, 1) := by
  rw [readLenenc, if_neg (by simp), readAt_of_drop (a := b) rfl, ok_bind, if_pos h]

theorem readText_short (before rest : Bytes) {len : Byte} (hlen : s.length = len.val)
    (hshort : len < 251) :
    readText (before ++ (len :: (s ++ rest))) before.length =
      .ok (quoted (escaped s), before.length + 1 + len.val) := by
  have hread := readText_append before [len] s rest (List.cons_ne_nil _ _)
    (hlen ▸ readLenenc_byte (s ++ rest) hshort)
  rw [hlen] at hread
  exact hread

theorem lenenc_ne_nil (n : ℕ) : lenenc n ≠ [] := by
  rw [lenenc]
  split_ifs <;> exact List.cons_ne_nil _ _

theorem readLenenc_lenenc {n : ℕ} (h : n < 16777216) (rest : Bytes) :
    readLenenc (lenenc n ++ rest) (lenenc n ++ rest).length = .ok (n, (lenenc n).length) := by
  have hlen : ∀ (b : Byte) (bytes : Bytes) (k : ℕ), bytes.length = k →
      (b :: bytes ++ rest).length = k + 1 + rest.length := by
    rintro b bytes k rfl
    simp only [List.cons_append, List.length_cons, List.length_append]
    omega
  rw [lenenc]
  split_ifs with hone htwo
  · have hb : Fin.ofNat 256 n < 251 := by
      rw [Fin.lt_def, Fin.val_ofNat, Nat.mod_eq_of_lt (by omega)]
      exact hone
    have hread := readLenenc_byte rest hb
    rw [Fin.val_ofNat, Nat.mod_eq_of_lt (by omega)] at hread
    exact hread
  · have hlength := hlen 0xFC (leBytes 2 n) 2 (length_leBytes 2 n)
    rw [readLenenc, if_neg (by omega), hlength]
    rw [show readAt (0xFC :: leBytes 2 n ++ rest) 0 = .ok 0xFC from rfl, ok_bind,
      if_neg (by decide), if_pos ⟨rfl, by omega⟩]
    rw [show readAt (0xFC :: leBytes 2 n ++ rest) 1 = .ok (Fin.ofNat 256 n) from rfl, ok_bind,
      show readAt (0xFC :: leBytes 2 n ++ rest) 2 = .ok (Fin.ofNat 256 (n / 256)) from rfl, ok_bind,
      Fin.val_ofNat, Fin.val_ofNat, List.length_cons, length_leBytes]
    congr 2
    omega
  · have hlength := hlen 0xFD (leBytes 3 n) 3 (length_leBytes 3 n)
    rw [readLenenc, if_neg (by omega), hlength]
    rw [show readAt (0xFD :: leBytes 3 n ++ rest) 0 = .ok 0xFD from rfl, ok_bind,
      if_neg (by decide), if_neg fun h => absurd h.1 (by decide), if_pos ⟨rfl, by omega⟩]
    rw [show readAt (0xFD :: leBytes 3 n ++ rest) 1 = .ok (Fin.ofNat 256 n) from rfl, ok_bind,
      show readAt (0xFD :: leBytes 3 n ++ rest) 2 = .ok (Fin.ofNat 256 (n / 256)) from rfl, ok_bind,
      show readAt (0xFD :: leBytes 3 n ++ rest) 3 = .ok (Fin.ofNat 256 (n / 256 / 256)) from rfl,
      ok_bind, Fin.val_ofNat, Fin.val_ofNat, Fin.val_ofNat, List.length_cons, length_leBytes]
    congr 2
    omega

theorem readLenenc_large {n : ℕ} (h : 16777216 ≤ n) (rest : Bytes) :
    readLenenc (lenenc n ++ rest) (lenenc n ++ rest).length = .ok (0, 1) := by
  have hhead : lenenc n = 0xFE :: leBytes 8 n := by
    rw [lenenc, if_neg (by omega), if_neg (by omega), if_neg (by omega)]
  rw [hhead, readLenenc, if_neg (by simp), readAt_of_drop (a := 0xFE) rfl, ok_bind]
  exact (if_neg (by decide)).trans ((if_neg fun h => absurd h.1 (by decide)).trans
    (if_neg fun h => absurd h.1 (by decide)))

variable {p : Param} {payload : Bytes} {typesSent : Bool}

section

variable (doubles : DoubleText) (before rest : Bytes)

def Param.readType (typesSent : Bool) (p : Param) : Byte :=
  if typesSent then p.typeBytes.headD 0xFD else 0xFD

/-- A parameter whose value the reader takes as it was sent. -/
def Param.Decodes (typesSent : Bool) : Param → Prop
  | null _ _ => True
  | int type isUnsigned bits =>
    typesSent = true ∧ (isUnsigned → bits.val < 2 ^ (8 * type.size - 1))
  | float _ => typesSent = true
  | double _ => typesSent = true
  | date _ => False
  | datetime t => typesSent = true ∧ t.encode ≠ [0] ∧ t.microsecond = 0
  | timestamp _ => False
  | time _ => False
  | string _ s => s.length < 16777216

theorem readValue_text {ft : Byte}
    (h : ft ∉ ([0x01, 0x02, 0x03, 0x09, 0x08, 0x10, 0x04, 0x05, 0x0A, 0x0B, 0x0C] : Bytes)) :
    readValue doubles payload ft pos = readText payload pos := by
  simp only [List.mem_cons, List.not_mem_nil, or_false, not_or] at h
  rw [readValue, if_neg h.1, if_neg h.2.1, if_neg (by tauto), if_neg (by tauto),
    if_neg (by tauto), if_neg (by tauto), if_neg (by tauto), if_neg (by tauto)]

theorem code_notMem : ∀ type : StringType, type.code ∉
    ([0x01, 0x02, 0x03, 0x09, 0x08, 0x10, 0x04, 0x05, 0x0A, 0x0B, 0x0C] : Bytes) := by
  intro type
  cases type <;> decide

theorem readValue_string (type : StringType) (s : Bytes) (typesSent : Bool) :
    readValue doubles payload ((string type s).readType typesSent) pos =
      readText payload pos := by
  cases typesSent with
  | false => exact readValue_text doubles (code_notMem .varString)
  | true => exact readValue_text doubles (code_notMem type)

theorem readValue_untyped (p : Param) :
    readValue doubles payload (p.readType false) pos = readText payload pos :=
  readValue_text doubles (code_notMem .varString)

theorem asSigned_of_lt {bits n : ℕ} (h : n < 2 ^ (bits - 1)) : asSigned bits n = n :=
  if_pos h

theorem readValue_int (type : IntType) (bits : Fin (256 ^ type.size)) :
    readValue doubles (before ++ (leBytes type.size bits ++ rest)) type.code before.length =
      .ok (DigitText.signed (asSigned (8 * type.size) bits), before.length + type.size) := by
  have hbits : leNat (leBytes type.size bits) = bits.val := leNat_leBytes bits.isLt
  have hfixed := readFixed_append before rest
    (fun bytes => DigitText.signed (asSigned (8 * type.size) (leNat bytes)))
    (length_leBytes type.size bits)
  rw [hbits] at hfixed
  cases type with
  | tiny =>
    have hbyte : (Fin.ofNat 256 bits.val).val = bits.val := Nat.mod_eq_of_lt bits.isLt
    have hread := byteOr_append before rest (Fin.ofNat 256 bits.val) 0
    rw [readValue, if_pos (by decide)]
    simp only [IntType.size, leBytes, List.cons_append, List.nil_append]
    rw [hread, ok_bind, hbyte]
  | short | long | int24 | longlong => exact hfixed

theorem dateOf_toBytes (d : Date) : dateOf d.toBytes = dateDigits d.year d.month d.day := by
  have hyear : (Fin.ofNat 256 d.year.val).val + (Fin.ofNat 256 (d.year.val / 256)).val * 256 =
      d.year.val := by
    have hlt := d.year.isLt
    rw [Fin.val_ofNat, Fin.val_ofNat]
    omega
  exact congrArg (fun year => dateDigits year d.month d.day) hyear

/-- A date and a time of day are read as they were sent, unless they are all zero or have a
fraction. -/
theorem readDatetime_encode {t : Datetime} (hzero : t.encode ≠ [0]) (hwhole : t.microsecond = 0) :
    readDatetime (before ++ (t.encode ++ rest)) before.length =
      .ok (quoted t.text, before.length + t.encode.length) := by
  have htext : t.text = dateDigits t.date.year t.date.month t.date.day ++
      0x20 :: timeDigits t.clock.hour t.clock.minute t.clock.second := by
    rw [Datetime.text, hwhole]
    exact congrArg (_ ++ 0x20 :: ·) (List.append_nil _)
  rw [Datetime.encode, if_neg (not_not.mpr hwhole)] at hzero ⊢
  by_cases hclock : t.clock = .zero
  · rw [if_neg (not_not.mpr hclock)] at hzero ⊢
    split_ifs at hzero ⊢ with hdate
    · have hread := readDatetime_append before rest 4 t.date.toBytes rfl
      rw [htext, hclock, ← dateOf_toBytes]
      exact hread
    · exact absurd rfl hzero
  · have hread := readDatetime_append before rest 7 (t.date.toBytes ++ t.clock.toBytes) rfl
    rw [if_pos hclock, htext, ← dateOf_toBytes]
    exact hread

theorem readValue_decodes (hnull : p.isNull = false) (h : p.Decodes typesSent) :
    readValue doubles (before ++ (p.encode ++ rest)) (p.readType typesSent) before.length =
      .ok (p.literal doubles, before.length + p.encode.length) := by
  cases p with
  | null type flag => cases hnull
  | int type isUnsigned bits =>
    obtain ⟨rfl, hsmall⟩ := h
    have hread := readValue_int doubles before rest type bits
    have hvalue : asSigned (8 * type.size) bits =
        if isUnsigned then (bits : ℤ) else asSigned (8 * type.size) bits := by
      split
      next hunsigned => exact asSigned_of_lt (hsmall hunsigned)
      next => rfl
    rw [hvalue] at hread
    rw [encode, length_leBytes]
    exact hread
  | float bits =>
    cases h
    have hread := readFixed_append before rest (fun bytes => doubles.ofFloat (leNat bytes))
      (length_leBytes 4 bits.val)
    rw [leNat_leBytes bits.isLt] at hread
    exact hread
  | double bits =>
    cases h
    have hread := readFixed_append before rest (fun bytes => doubles.ofDouble (leNat bytes))
      (length_leBytes 8 bits.val)
    rw [leNat_leBytes bits.isLt] at hread
    exact hread
  | date d | timestamp t | time t => exact absurd h id
  | datetime t =>
    obtain ⟨rfl, hzero, hwhole⟩ := h
    exact readDatetime_encode before rest hzero hwhole
  | string type s =>
    have hread := readText_append before (lenenc s.length) s rest (lenenc_ne_nil s.length)
      (readLenenc_lenenc h (s ++ rest))
    rw [readValue_string, encode, List.append_assoc, hread, List.length_append, Nat.add_assoc]
    rfl

end

section

open DigitText

theorem quoted_inj {t : Bytes} (h : quoted s = quoted t) : s = t :=
  List.append_cancel_right (List.cons.inj h).2

theorem nullText_ne_quoted (s : Bytes) : nullText ≠ quoted s := by
  intro h
  exact absurd (List.cons.inj h).1 (by decide)

theorem apostrophe_notMem_padded (width n : ℕ) : apostrophe ∉ padded width n := by
  intro h
  exact absurd (isDigit_of_mem_padded h) (by decide)

theorem apostrophe_notMem_dateDigits (year month day : ℕ) :
    apostrophe ∉ dateDigits year month day := by
  simp only [dateDigits, List.mem_append, List.mem_cons, apostrophe_notMem_padded, false_or,
    or_false]
  decide

theorem apostrophe_notMem_timeDigits (hour minute second : ℕ) :
    apostrophe ∉ timeDigits hour minute second := by
  simp only [timeDigits, List.mem_append, List.mem_cons, apostrophe_notMem_padded, false_or,
    or_false]
  decide

theorem apostrophe_notMem_fraction (microsecond : ℕ) : apostrophe ∉ fraction microsecond := by
  rw [fraction]
  split
  next => exact List.not_mem_nil
  next =>
    simp only [List.mem_cons, apostrophe_notMem_padded, or_false]
    decide

theorem apostrophe_notMem_datetime (t : Datetime) : apostrophe ∉ t.text := by
  simp only [Datetime.text, List.mem_append, List.mem_cons, apostrophe_notMem_dateDigits,
    apostrophe_notMem_timeDigits, apostrophe_notMem_fraction, false_or, or_false]
  decide

theorem apostrophe_notMem_time (t : Time) : apostrophe ∉ t.text := by
  simp only [Time.text, List.mem_append, apostrophe_notMem_timeDigits, apostrophe_notMem_fraction,
    or_false]
  split
  next => decide
  next => exact List.not_mem_nil

theorem length_dateDigits (year month day : ℕ) : 10 ≤ (dateDigits year month day).length := by
  have hyear := le_length_padded 4 year
  have hmonth := le_length_padded 2 month
  have hday := le_length_padded 2 day
  simp only [dateDigits, List.length_append, List.length_cons]
  omega

theorem length_datetime (t : Datetime) : 11 < t.text.length := by
  have hdate := length_dateDigits t.date.year t.date.month t.date.day
  have hhour := le_length_padded 2 t.clock.hour.val
  simp only [Datetime.text, timeDigits, List.length_append, List.length_cons]
  omega

theorem time_head (t : Time) : ∃ b text, t.text = b :: text ∧ (b = 0x2D ∨ IsDigit b) := by
  obtain ⟨b, digits, hdigits⟩ := List.exists_cons_of_ne_nil
    (padded_ne_nil two_pos (t.days * 24 + t.clock.hour))
  rw [Time.text, timeDigits]
  split
  next => exact ⟨0x2D, _, rfl, .inl rfl⟩
  next =>
    rw [hdigits]
    exact ⟨b, _, rfl, .inr (isDigit_of_mem_padded (hdigits ▸ List.mem_cons_self))⟩

/-- Text without apostrophes was written as it is. -/
theorem escaped_of_notMem : ∀ {s : Bytes}, apostrophe ∉ escaped s → escaped s = s
  | [], _ => rfl
  | c :: s, h => by
      rw [escaped, List.flatMap_cons] at h ⊢
      rw [List.mem_append, not_or] at h
      by_cases hc : c = apostrophe
      · exact absurd (by rw [if_pos hc]; exact List.mem_cons_self) h.1
      · rw [if_neg hc]
        exact congrArg (c :: ·) (escaped_of_notMem h.2)

theorem quoted_escaped_ne {text : Bytes} (hplain : apostrophe ∉ text) (hne : s ≠ text) :
    quoted (escaped s) ≠ quoted text := by
  intro h
  have htext := quoted_inj h
  exact hne ((escaped_of_notMem (htext ▸ hplain)).symm.trans htext)

theorem escaped_ne_nil (h : s ≠ []) : escaped s ≠ [] := by
  cases s with
  | nil => exact absurd rfl h
  | cons c s =>
    rw [escaped, List.flatMap_cons]
    split <;> exact List.cons_ne_nil _ _

theorem date_ne_time (year month day : ℕ) (rest : Bytes) (t : Time) :
    dateDigits year month day ++ rest ≠ t.text := by
  intro h
  rw [dateDigits, Time.text, timeDigits, List.append_assoc] at h
  split at h
  next =>
    obtain ⟨b, digits, hdigits⟩ := List.exists_cons_of_ne_nil
      (padded_ne_nil four_pos year)
    rw [hdigits] at h
    have hdigit : IsDigit b := isDigit_of_mem_padded (hdigits ▸ List.mem_cons_self)
    rw [(List.cons.inj h).1] at hdigit
    exact absurd hdigit (by decide)
  next =>
    rw [List.nil_append, List.append_assoc] at h
    have hend := ListEdit.append_cons_inj_of_forall (fun _ => isDigit_of_mem_padded)
      (fun _ => isDigit_of_mem_padded) (by decide) (by decide) h
    exact absurd hend.2.1 (by decide)

theorem dateDigits_inj {year month day year' month' day' : ℕ}
    (h : dateDigits year month day = dateDigits year' month' day') :
    year = year' ∧ month = month' ∧ day = day' := by
  obtain ⟨hyear, -, h⟩ := padded_split (by decide) (by decide) h
  obtain ⟨hmonth, -, h⟩ := padded_split (by decide) (by decide) h
  exact ⟨hyear, hmonth, padded_injective 2 h⟩

end

section

open DigitText

variable (before rest : Bytes)

def patternText : DoubleText where
  ofFloat bits := signed bits
  ofDouble bits := signed bits

theorem Date.encode_fields (d : Date) : ∃ (len : Byte) (fields : Bytes),
    d.encode = len :: fields ∧ fields.length = len.val ∧ len.val ≤ 4 := by
  rw [Date.encode]
  split
  next => exact ⟨0, [], rfl, rfl, by decide⟩
  next => exact ⟨4, d.toBytes, rfl, rfl, le_rfl⟩

theorem Datetime.encode_fields (t : Datetime) : ∃ (len : Byte) (fields : Bytes),
    t.encode = len :: fields ∧ fields.length = len.val ∧ len.val ≤ 11 := by
  rw [Datetime.encode]
  split_ifs
  · exact ⟨11, _, rfl, rfl, le_rfl⟩
  · exact ⟨7, _, rfl, rfl, by decide⟩
  · exact ⟨4, _, rfl, rfl, by decide⟩
  · exact ⟨0, [], rfl, rfl, by decide⟩

theorem Time.encode_fields (t : Time) : ∃ (len : Byte) (fields : Bytes),
    t.encode = len :: fields ∧ fields.length = len.val ∧ len.val ≤ 12 ∧
      (fields = [] ∨ ∃ sign more, fields = sign :: more ∧ sign.val ≤ 1) := by
  rw [Time.encode]
  split_ifs
  · exact ⟨12, _, rfl, rfl, le_rfl, .inr ⟨_, _, rfl, by decide⟩⟩
  · exact ⟨12, _, rfl, rfl, le_rfl, .inr ⟨_, _, rfl, by decide⟩⟩
  · exact ⟨8, _, rfl, rfl, by decide, .inr ⟨_, _, rfl, by decide⟩⟩
  · exact ⟨8, _, rfl, rfl, by decide, .inr ⟨_, _, rfl, by decide⟩⟩
  · exact ⟨0, [], rfl, rfl, by decide, .inl rfl⟩

variable {read : Bytes × ℕ}

theorem readText_fields {len : Byte} {fields text : Bytes} (hlen : fields.length = len.val)
    (hshort : len.val ≤ 12) (hplain : apostrophe ∉ text) (hne : fields ≠ text)
    (hread : readText (before ++ (len :: fields ++ rest)) before.length = .ok read) :
    read.1 ≠ quoted text := by
  have hbyte : len < 251 := by
    rw [Fin.lt_def]
    exact Nat.lt_of_le_of_lt hshort (by decide)
  rw [List.cons_append, readText_short before rest hlen hbyte] at hread
  cases hread
  exact quoted_escaped_ne hplain hne

theorem readText_date {d : Date}
    (hread : readText (before ++ (d.encode ++ rest)) before.length = .ok read) :
    read.1 ≠ quoted (dateDigits d.year d.month d.day) := by
  obtain ⟨len, fields, hfields, hlen, hle⟩ := d.encode_fields
  rw [hfields] at hread
  apply readText_fields before rest hlen (by omega) (apostrophe_notMem_dateDigits _ _ _) _ hread
  intro h
  have hlength := length_dateDigits d.year d.month d.day
  rw [← h] at hlength
  omega

theorem readText_datetime {t : Datetime}
    (hread : readText (before ++ (t.encode ++ rest)) before.length = .ok read) :
    read.1 ≠ quoted t.text := by
  obtain ⟨len, fields, hfields, hlen, hle⟩ := t.encode_fields
  rw [hfields] at hread
  apply readText_fields before rest hlen (by omega) (apostrophe_notMem_datetime t) _ hread
  intro h
  have hlength := length_datetime t
  rw [← h] at hlength
  omega

theorem readText_time {t : Time}
    (hread : readText (before ++ (t.encode ++ rest)) before.length = .ok read) :
    read.1 ≠ quoted t.text := by
  obtain ⟨len, fields, hfields, hlen, hle, hsign⟩ := t.encode_fields
  rw [hfields] at hread
  apply readText_fields before rest hlen hle (apostrophe_notMem_time t) _ hread
  intro h
  obtain ⟨b, text, htext, hb⟩ := time_head t
  rw [htext] at h
  rcases hsign with rfl | ⟨sign, more, rfl, hsign⟩
  · cases h
  · rw [(List.cons.inj h).1] at hsign
    rcases hb with rfl | ⟨hb, -⟩
    · exact absurd hsign (by decide)
    · rw [Fin.le_def] at hb
      exact absurd (hb.trans hsign) (by decide)

theorem readText_ne_signed (hread : readText payload pos = .ok read) (v : ℤ) :
    read.1 ≠ signed v := by
  have hshape : read.1 = nullText ∨ ∃ s, read.1 = quoted s := by
    rw [readText] at hread
    split at hread
    next =>
      cases hread
      exact .inl rfl
    next =>
      obtain ⟨length, hlength⟩ : Inside (readLenenc (payload.drop pos) (payload.length - pos)) := by
        rw [← List.length_drop]
        exact readLenenc_inside _
      rw [hlength, ok_bind] at hread
      dsimp only at hread
      split at hread
      next =>
        cases hread
        exact .inl rfl
      next hend =>
        rw [readSlice_of_le (not_lt.mp hend), ok_bind] at hread
        cases hread
        exact .inr ⟨_, rfl⟩
  obtain ⟨b, text, htext, hb⟩ := signed_head v
  intro h
  rw [htext] at h
  rcases hshape with hnull | ⟨s, hquoted⟩
  · rw [← (List.cons.inj (hnull.symm.trans h)).1] at hb
    exact absurd hb (by decide)
  · rw [← (List.cons.inj (hquoted.symm.trans h)).1] at hb
    exact absurd hb (by decide)

theorem readText_long (hlong : 16777216 ≤ s.length)
    (hread : readText (before ++ (lenenc s.length ++ s ++ rest)) before.length = .ok read) :
    read.1 ≠ quoted (escaped s) := by
  have hhead : lenenc s.length = [0xFE] ++ ([] ++ leBytes 8 s.length) := by
    rw [lenenc, if_neg (by omega), if_neg (by omega), if_neg (by omega)]
    rfl
  have hlenenc := readLenenc_large hlong (s ++ rest)
  rw [hhead] at hlenenc hread
  simp only [List.append_assoc] at hlenenc
  have hempty := readText_append before [0xFE] [] (leBytes 8 s.length ++ (s ++ rest))
    (List.cons_ne_nil _ _) hlenenc
  simp only [List.append_assoc] at hread hempty
  rw [hempty] at hread
  cases hread
  intro h
  have hnil : escaped s = [] := (quoted_inj h).symm
  exact escaped_ne_nil (List.ne_nil_of_length_pos (by omega)) hnil

theorem readValue_date {d : Date}
    (hread : readValue patternText (before ++ (d.encode ++ rest)) 0x0A before.length = .ok read)
    (hright : read.1 = quoted (dateDigits d.year d.month d.day)) :
    d = ⟨1028, 4, 4⟩ ∨ d = .zero ∧ [0, 0, 0] <+: rest := by
  have hfixed : readFixed (before ++ (d.encode ++ rest)) 4 (fun bytes => quoted (dateOf bytes))
      before.length = .ok read := hread
  rw [Date.encode] at hfixed
  split at hfixed
  next hzero =>
    refine .inr ⟨hzero, ?_⟩
    match rest, hfixed with
    | a :: b :: c :: rest, hfixed =>
      have hslice : readFixed (before ++ ([0, a, b, c] ++ rest)) 4
          (fun bytes => quoted (dateOf bytes)) before.length = _ :=
        readFixed_append before rest _ rfl
      cases hslice.symm.trans hfixed
      rw [hzero] at hright
      obtain ⟨hyear, hmonth, hday⟩ := dateDigits_inj (quoted_inj hright)
      have ha : a = 0 := by
        apply Fin.ext
        change 0 + a.val * 256 = 0 at hyear
        show a.val = 0
        omega
      have hb : b = 0 := Fin.ext hmonth
      have hc : c = 0 := Fin.ext hday
      rw [ha, hb, hc]
      exact ⟨rest, rfl⟩
    | [], hfixed | [_], hfixed | [_, _], hfixed =>
      rw [readFixed, if_pos (by simp)] at hfixed
      cases hfixed
      exact absurd hright (nullText_ne_quoted _)
  next =>
    refine .inl ?_
    have hslice : readFixed (before ++
        ([4, Fin.ofNat 256 d.year, Fin.ofNat 256 (d.year / 256), d.month] ++ (d.day :: rest))) 4
        (fun bytes => quoted (dateOf bytes)) before.length = _ :=
      readFixed_append before (d.day :: rest) _ rfl
    cases hslice.symm.trans hfixed
    obtain ⟨hyear, hmonth, hday⟩ := dateDigits_inj (quoted_inj hright)
    change 4 + d.year.val % 256 * 256 = d.year.val at hyear
    change d.year.val / 256 % 256 = d.month.val at hmonth
    have hlt := d.year.isLt
    have hyear' : d.year = 1028 := Fin.ext (show d.year.val = 1028 by omega)
    have hmonth' : d.month = 4 := Fin.ext (show d.month.val = 4 by omega)
    have hday' : d.day = 4 := Fin.ext (show d.day.val = 4 by omega)
    show Date.mk d.year d.month d.day = ⟨1028, 4, 4⟩
    rw [hyear', hmonth', hday']

/-- A date and a time of day that are all zero, or that have a fraction, come out as another
text. -/
theorem readDatetime_ne {t : Datetime} (h : t.encode = [0] ∨ t.microsecond ≠ 0)
    (hread : readDatetime (before ++ (t.encode ++ rest)) before.length = .ok read) :
    read.1 ≠ quoted t.text := by
  by_cases hwhole : t.microsecond = 0
  · have hzero : t.encode = [0] := h.resolve_right (not_not.mpr hwhole)
    rw [hzero] at hread
    cases (readDatetime_append before rest 0 [] rfl).symm.trans hread
    exact nullText_ne_quoted _
  · rw [Datetime.encode, if_pos hwhole] at hread
    cases (readDatetime_append before rest 11
      (t.date.toBytes ++ t.clock.toBytes ++ leBytes 4 t.microsecond) rfl).symm.trans hread
    intro hsame
    have htext : dateOf t.date.toBytes ++ 0x20 :: timeOf t.clock.toBytes = t.text :=
      quoted_inj hsame
    have hfraction : fraction t.microsecond ≠ [] := by
      have hpos : t.microsecond.val ≠ 0 := fun hzero => hwhole (Fin.ext hzero)
      rw [fraction, if_neg hpos]
      exact List.cons_ne_nil _ _
    rw [dateOf_toBytes, Datetime.text] at htext
    have hclock := (List.cons.inj (List.append_cancel_left htext)).2
    exact hfraction (List.self_eq_append_right.mp hclock)

theorem readDatetime_time {t : Time}
    (hread : readDatetime (before ++ (t.encode ++ rest)) before.length = .ok read) :
    read.1 ≠ quoted t.text := by
  obtain ⟨len, fields, hfields, hlen, -, -⟩ := t.encode_fields
  rw [hfields, List.cons_append] at hread
  cases (readDatetime_append before rest len fields hlen).symm.trans hread
  dsimp only
  split
  next hfour =>
    have hlong : 4 ≤ fields.length := hlen ▸ hfour
    match fields, hlong with
    | y₀ :: y₁ :: month :: day :: more, _ =>
      intro hsame
      exact date_ne_time _ _ _ _ t (quoted_inj hsame)
  next => exact nullText_ne_quoted _

theorem readValue_misreads (hnull : p.isNull = false) (h : ¬ p.Decodes typesSent)
    (hdate : ∀ d, p = .date d → typesSent = false)
    (hread : readValue patternText (before ++ (p.encode ++ rest))
      (p.readType typesSent) before.length = .ok read) :
    read.1 ≠ p.literal patternText := by
  cases typesSent with
  | false =>
    rw [readValue_untyped] at hread
    cases p with
    | null type flag => cases hnull
    | int type isUnsigned bits => exact readText_ne_signed hread _
    | float bits | double bits => exact readText_ne_signed hread bits.val
    | date d => exact readText_date before rest hread
    | datetime t | timestamp t => exact readText_datetime before rest hread
    | time t => exact readText_time before rest hread
    | string type s => exact readText_long before rest (not_lt.mp h) hread
  | true =>
    cases p with
    | null type flag => cases hnull
    | int type isUnsigned bits =>
      cases (readValue_int patternText before rest type bits).symm.trans hread
      have hlarge : isUnsigned ∧ 2 ^ (8 * type.size - 1) ≤ bits.val := by
        by_contra hsmall
        exact h ⟨rfl, fun hu => not_le.mp fun hle => hsmall ⟨hu, hle⟩⟩
      have hneg : asSigned (8 * type.size) bits ≠ bits.val := by
        rw [asSigned, if_neg (not_lt.mpr hlarge.2)]
        have hpos : 0 < (2 : ℤ) ^ (8 * type.size) := by positivity
        omega
      intro hsame
      rw [literal, hlarge.1] at hsame
      exact hneg (signed_injective hsame)
    | float bits | double bits => exact absurd rfl h
    | date d => cases hdate d rfl
    | datetime t =>
      apply readDatetime_ne before rest _ hread
      by_contra hgood
      rw [not_or, not_not] at hgood
      exact h ⟨rfl, hgood⟩
    | timestamp t =>
      have htext : (timestamp t).readType true = 0x07 := rfl
      rw [htext, readValue_text patternText (by decide)] at hread
      exact readText_datetime before rest hread
    | time t => exact readDatetime_time before rest hread
    | string type s =>
      rw [readValue_string] at hread
      exact readText_long before rest (not_lt.mp h) hread

end

variable {ps : List Param} (header : ExecuteHeader)

theorem bitmapByte_lt : ∀ ps : List Param, bitmapByte ps < 2 ^ ps.length
  | [] => Nat.one_pos
  | p :: ps => by
      have hrest := bitmapByte_lt ps
      rw [bitmapByte, List.length_cons, pow_succ]
      split <;> omega

theorem bitmapByte_bit : ∀ (ps : List Param) (k : ℕ),
    bitmapByte ps / 2 ^ k % 2 = 1 ↔ ∃ p, ps[k]? = some p ∧ p.isNull = true
  | [], k => by simp [bitmapByte]
  | p :: ps, 0 => by
      rw [bitmapByte, pow_zero, Nat.div_one, Nat.add_mul_mod_self_left]
      cases hnull : p.isNull <;> simp [hnull]
  | p :: ps, k + 1 => by
      have hhalf : ((if p.isNull then 1 else 0) + 2 * bitmapByte ps) / 2 = bitmapByte ps := by
        split <;> omega
      rw [bitmapByte, pow_succ', ← Nat.div_div_eq_div_mul, hhalf, List.getElem?_cons_succ]
      exact bitmapByte_bit ps k

theorem length_nullBitmap (size : ℕ) (ps : List Param) : (nullBitmap size ps).length = size := by
  induction size generalizing ps with
  | zero => rfl
  | succ size ih => rw [nullBitmap, List.length_cons, ih]

theorem getElem?_nullBitmap {size j : ℕ} (h : j < size) (ps : List Param) :
    (nullBitmap size ps)[j]? = some (Fin.ofNat 256 (bitmapByte ((ps.drop (8 * j)).take 8))) := by
  induction size generalizing j ps with
  | zero => exact absurd h (Nat.not_lt_zero j)
  | succ size ih =>
    cases j with
    | zero => rfl
    | succ j =>
      rw [nullBitmap, List.getElem?_cons_succ, ih (Nat.lt_of_succ_lt_succ h), List.drop_drop,
        Nat.mul_succ, Nat.add_comm (8 * j)]

/-- The bitmap says of each of these parameters, the first of which is the `i`-th, whether it is
`NULL`. -/
def NullsAt (payload : Bytes) (i : ℕ) (ps : List Param) : Prop :=
  ∀ j p, ps[j]? = some p → ∃ bits, readAt payload (9 + (i + j) / 8) = .ok bits ∧
    (bits.val / 2 ^ ((i + j) % 8) % 2 = 1 ↔ p.isNull)

theorem NullsAt.tail {i : ℕ} (h : NullsAt payload i (p :: ps)) : NullsAt payload (i + 1) ps := by
  intro j q hq
  have hj := h (j + 1) q hq
  rw [show i + (j + 1) = i + 1 + j by omega] at hj
  exact hj

theorem length_toBytes : header.toBytes.length = 9 := by
  rw [ExecuteHeader.toBytes, List.length_append, List.length_cons, length_leBytes, length_leBytes]

theorem nullsAt_executePayload (params : List Param) (rest : Bytes) :
    NullsAt (header.toBytes ++ (nullBitmap ((params.length + 7) / 8) params ++ rest)) 0 params := by
  intro j p hp
  obtain ⟨hj, -⟩ := List.getElem?_eq_some_iff.mp hp
  rw [Nat.zero_add]
  have hbyte : j / 8 < (params.length + 7) / 8 := by omega
  refine ⟨Fin.ofNat 256 (bitmapByte ((params.drop (8 * (j / 8))).take 8)), ?_, ?_⟩
  · apply readAt_of_getElem?
    rw [← length_toBytes header, List.getElem?_append_right (Nat.le_add_right _ _),
      Nat.add_sub_cancel_left, List.getElem?_append_left (by rwa [length_nullBitmap])]
    exact getElem?_nullBitmap hbyte params
  · have hlt : bitmapByte ((params.drop (8 * (j / 8))).take 8) < 256 := by
      apply (bitmapByte_lt _).trans_le
      exact Nat.pow_le_pow_right (by decide) (List.length_take_le _ _)
    have hp' : ((params.drop (8 * (j / 8))).take 8)[j % 8]? = some p := by
      rw [List.getElem?_take_of_lt (Nat.mod_lt j (by decide)), List.getElem?_drop, Nat.div_add_mod]
      exact hp
    rw [Fin.val_ofNat, Nat.mod_eq_of_lt hlt, bitmapByte_bit, hp']
    simp only [Option.some.injEq, exists_eq_left']

section

variable {doubles : DoubleText} {payload : Bytes} {typesSent : Bool}

theorem readParams_null {i : ℕ} {ft : Byte} {types : List Byte}
    (hnulls : NullsAt payload i (p :: ps)) (hnull : p.isNull) :
    readParams doubles payload i (ft :: types) pos =
      (readParams doubles payload (i + 1) types pos >>= fun params =>
        .ok (nullText :: params)) := by
  obtain ⟨bits, hbits, hbit⟩ := hnulls 0 p rfl
  rw [Nat.add_zero] at hbits hbit
  rw [readParams, hbits, ok_bind, if_pos (hbit.mpr hnull)]

theorem readParams_value {i : ℕ} {ft : Byte} {types : List Byte}
    (hnulls : NullsAt payload i (p :: ps)) (hnull : p.isNull = false) :
    readParams doubles payload i (ft :: types) pos =
      (readValue doubles payload ft pos >>= fun read =>
        readParams doubles payload (i + 1) types read.2 >>= fun params =>
          .ok (read.1 :: params)) := by
  obtain ⟨bits, hbits, hbit⟩ := hnulls 0 p rfl
  rw [Nat.add_zero] at hbits hbit
  rw [hnull] at hbit
  rw [readParams, hbits, ok_bind, if_neg fun h => absurd (hbit.mp h) (by decide)]

theorem literal_of_isNull (h : p.isNull) : p.literal doubles = nullText := by
  cases p <;> first | rfl | cases h

theorem encode_of_isNull (h : p.isNull) : p.encode = [] := by
  cases p <;> first | rfl | cases h

theorem decodes_of_isNull (h : p.isNull) : p.Decodes typesSent := by
  cases p <;> trivial

/-- Parameters that all come out as they were sent. -/
theorem readParams_decodes : ∀ {ps : List Param} {before : Bytes} {i : ℕ},
    payload = before ++ ps.flatMap encode → NullsAt payload i ps →
    (∀ p ∈ ps, p.Decodes typesSent) →
    readParams doubles payload i (ps.map (readType typesSent)) before.length =
      .ok (ps.map (literal doubles))
  | [], _, _, _, _, _ => rfl
  | p :: ps, before, i, hpayload, hnulls, hdecodes => by
      have hmore : ∀ p ∈ ps, p.Decodes typesSent :=
        fun p hp => hdecodes p (.tail _ hp)
      rw [List.flatMap_cons] at hpayload
      rw [List.map_cons, List.map_cons]
      cases hnull : p.isNull with
      | true =>
        rw [encode_of_isNull hnull, List.nil_append] at hpayload
        rw [readParams_null hnulls hnull, readParams_decodes hpayload hnulls.tail hmore, ok_bind,
          literal_of_isNull hnull]
      | false =>
        have hread := readValue_decodes doubles before (ps.flatMap encode) hnull
          (hdecodes p List.mem_cons_self)
        have hrest : readParams doubles payload (i + 1) (ps.map (readType typesSent))
            (before ++ p.encode).length = .ok (ps.map (literal doubles)) :=
          readParams_decodes (by rw [hpayload, List.append_assoc]) hnulls.tail hmore
        rw [List.length_append] at hrest
        rw [readParams_value hnulls hnull]
        conv_lhs => rw [hpayload]
        rw [hread, ok_bind, ← hpayload, hrest, ok_bind]

/-- The first parameter not taken as it was sent is a date that is read right all the same: one
whose bytes are all `4`, or the zero date in front of three zero bytes. -/
def LuckyDate (typesSent : Bool) (params : List Param) : Prop :=
  typesSent = true ∧ ∃ before d after, params = before ++ .date d :: after ∧
    (∀ p ∈ before, p.Decodes typesSent) ∧
    (d = ⟨1028, 4, 4⟩ ∨ d = .zero ∧ [0, 0, 0] <+: after.flatMap encode)

theorem LuckyDate.cons (hp : p.Decodes typesSent) (h : LuckyDate typesSent ps) :
    LuckyDate typesSent (p :: ps) := by
  obtain ⟨hsent, before, d, after, rfl, hbefore, hd⟩ := h
  refine ⟨hsent, p :: before, d, after, rfl, ?_, hd⟩
  intro q hq
  rcases List.mem_cons.mp hq with rfl | hq
  · exact hp
  · exact hbefore q hq

/-- Parameters that come out right were all taken as they were sent, up to a date at most. -/
theorem decodes_of_readParams : ∀ {ps : List Param} {before : Bytes} {i : ℕ},
    payload = before ++ ps.flatMap encode → NullsAt payload i ps →
    readParams patternText payload i (ps.map (readType typesSent)) before.length =
      .ok (ps.map (literal patternText)) →
    (∀ p ∈ ps, p.Decodes typesSent) ∨ LuckyDate typesSent ps
  | [], _, _, _, _, _ => .inl nofun
  | p :: ps, before, i, hpayload, hnulls, hread => by
      rw [List.flatMap_cons] at hpayload
      rw [List.map_cons, List.map_cons] at hread
      have hcons : p.Decodes typesSent → (∀ p ∈ ps, p.Decodes typesSent) ∨ LuckyDate typesSent ps →
          (∀ q ∈ p :: ps, q.Decodes typesSent) ∨ LuckyDate typesSent (p :: ps) := by
        rintro hp (hps | hlucky)
        · exact .inl (List.forall_mem_cons.mpr ⟨hp, hps⟩)
        · exact .inr (hlucky.cons hp)
      cases hnull : p.isNull with
      | true =>
        apply hcons (decodes_of_isNull hnull)
        rw [encode_of_isNull hnull, List.nil_append] at hpayload
        rw [readParams_null hnulls hnull] at hread
        cases hrest : readParams patternText payload (i + 1)
            (ps.map (readType typesSent)) before.length with
        | error fault =>
          rw [hrest] at hread
          cases hread
        | ok params =>
          rw [hrest, ok_bind] at hread
          have htexts := (List.cons.inj (Except.ok.inj hread)).2
          exact decodes_of_readParams hpayload hnulls.tail (htexts ▸ hrest)
      | false =>
        obtain ⟨read, hvalue⟩ := readValue_inside patternText payload (p.readType typesSent)
          before.length
        rw [readParams_value hnulls hnull, hvalue, ok_bind] at hread
        cases hrest : readParams patternText payload (i + 1)
            (ps.map (readType typesSent)) read.2 with
        | error fault =>
          rw [hrest] at hread
          cases hread
        | ok params =>
          rw [hrest, ok_bind] at hread
          obtain ⟨hfirst, hparams⟩ := List.cons.inj (Except.ok.inj hread)
          rw [hpayload] at hvalue
          by_cases hp : p.Decodes typesSent
          · apply hcons hp
            have hright := readValue_decodes patternText before (ps.flatMap encode) hnull
              hp
            cases hright.symm.trans hvalue
            rw [← List.length_append] at hrest
            exact decodes_of_readParams (by rw [hpayload, List.append_assoc]) hnulls.tail
              (hparams ▸ hrest)
          · refine .inr ?_
            by_contra hlucky
            apply readValue_misreads before (ps.flatMap encode) hnull hp _ hvalue hfirst
            rintro d rfl
            by_contra hsent
            rw [Bool.not_eq_false] at hsent
            subst hsent
            have hd := readValue_date before (ps.flatMap encode) hvalue hfirst
            exact hlucky ⟨rfl, [], d, ps, rfl, nofun, hd⟩

end

section

theorem typeBytes_eq (p : Param) : ∃ flag, p.typeBytes = [p.readType true, flag] := by
  cases p <;> exact ⟨_, rfl⟩

/-- The type block is read as it was sent. -/
theorem readTypes_append (rest : Bytes) : ∀ (params : List Param) (before : Bytes),
    readTypes (before ++ (params.flatMap typeBytes ++ rest)) params.length before.length =
      .ok (params.map (readType true), (before ++ params.flatMap typeBytes).length)
  | [], before => by
      rw [List.flatMap_nil, List.append_nil]
      rfl
  | p :: ps, before => by
      obtain ⟨flag, hbytes⟩ := typeBytes_eq p
      have hpayload : before ++ ((p :: ps).flatMap typeBytes ++ rest) =
          before ++ p.readType true :: (flag :: (ps.flatMap typeBytes ++ rest)) := by
        rw [List.flatMap_cons, hbytes]
        rfl
      have hflag : before ++ p.readType true :: (flag :: (ps.flatMap typeBytes ++ rest)) =
          (before ++ [p.readType true]) ++ flag :: (ps.flatMap typeBytes ++ rest) := by
        rw [List.append_assoc]
        rfl
      have htail : before ++ p.readType true :: (flag :: (ps.flatMap typeBytes ++ rest)) =
          (before ++ [p.readType true, flag]) ++ (ps.flatMap typeBytes ++ rest) := by
        rw [List.append_assoc]
        rfl
      have hone := byteOr_append (before ++ [p.readType true])
        (ps.flatMap typeBytes ++ rest) flag 0
      rw [← hflag, List.length_append] at hone
      have hmore := readTypes_append rest ps (before ++ [p.readType true, flag])
      rw [← htail, List.length_append, List.length_cons, List.length_singleton] at hmore
      rw [hpayload, List.length_cons, readTypes, byteOr_append, ok_bind]
      rw [List.length_singleton] at hone
      rw [hone, ok_bind, hmore, ok_bind, List.flatMap_cons, hbytes, ← List.append_assoc]
      rfl

/-- The part of a payload before the values. -/
def beforeValues (header : ExecuteHeader) (typesSent : Bool) (params : List Param) : Bytes :=
  header.toBytes ++ nullBitmap ((params.length + 7) / 8) params ++
    if typesSent then 1 :: params.flatMap typeBytes else [0]

variable {params : List Param}

theorem executePayload_eq (typesSent : Bool) (hne : params ≠ []) :
    executePayload header typesSent params =
      beforeValues header typesSent params ++ params.flatMap encode := by
  rw [executePayload, if_neg hne, beforeValues]
  simp only [List.append_assoc]

theorem nullsAt_payload (typesSent : Bool) (hne : params ≠ []) :
    NullsAt (executePayload header typesSent params) 0 params := by
  rw [executePayload, if_neg hne]
  exact nullsAt_executePayload header params _

theorem parseExecuteParams_payload (doubles : DoubleText) (header : ExecuteHeader)
    (typesSent : Bool) (hne : params ≠ []) :
    parseExecuteParams doubles (executePayload header typesSent params) params.length =
      readParams doubles (executePayload header typesSent params) 0
        (params.map (readType typesSent)) (beforeValues header typesSent params).length := by
  have hpos : 0 < params.length := List.length_pos_iff.mpr hne
  have hstart : (header.toBytes ++ nullBitmap ((params.length + 7) / 8) params).length =
      9 + (params.length + 7) / 8 := by
    rw [List.length_append, length_toBytes, length_nullBitmap]
  have hlength : 9 + (params.length + 7) / 8 + 1 ≤
      (executePayload header typesSent params).length := by
    rw [executePayload_eq header typesSent hne, List.length_append, beforeValues,
      List.length_append, hstart]
    cases typesSent <;> simp only [if_true, Bool.false_eq_true, if_false, List.length_cons,
      List.length_nil] <;> omega
  rw [parseExecuteParams, if_neg (by omega), if_neg (by omega), if_neg (by omega)]
  dsimp only
  cases typesSent with
  | false =>
    have hflag : byteOr (executePayload header false params) 0
        (9 + (params.length + 7) / 8) = .ok 0 := by
      rw [executePayload_eq header false hne, ← hstart, beforeValues, List.append_assoc]
      exact byteOr_append _ _ 0 0
    have htypes : List.replicate params.length (0xFD : Byte) =
        params.map (readType false) :=
      List.map_const'.symm
    rw [hflag, ok_bind, if_neg (by decide), ok_bind, htypes, beforeValues, List.length_append,
      hstart]
    rfl
  | true =>
    have hflag : byteOr (executePayload header true params) 0
        (9 + (params.length + 7) / 8) = .ok 1 := by
      rw [executePayload_eq header true hne, ← hstart, beforeValues, List.append_assoc]
      exact byteOr_append _ _ 1 0
    have htypes := readTypes_append (params.flatMap encode) params
      (header.toBytes ++ nullBitmap ((params.length + 7) / 8) params ++ [1])
    have hpayload : header.toBytes ++ nullBitmap ((params.length + 7) / 8) params ++ [1] ++
        (params.flatMap typeBytes ++ params.flatMap encode) =
        executePayload header true params := by
      rw [executePayload_eq header true hne, beforeValues]
      simp only [List.append_assoc]
      rfl
    have hbefore : header.toBytes ++ nullBitmap ((params.length + 7) / 8) params ++ [1] ++
        params.flatMap typeBytes = beforeValues header true params := by
      rw [beforeValues]
      simp only [List.append_assoc]
      rfl
    rw [hpayload, hbefore, List.length_append, hstart, List.length_singleton] at htypes
    rw [hflag, ok_bind, if_pos rfl, htypes, ok_bind]

/-- The parameters come out as they were sent, however doubles are written. -/
def ReadsBack (header : ExecuteHeader) (typesSent : Bool) (params : List Param) : Prop :=
  ∀ doubles, parseExecuteParams doubles (executePayload header typesSent params) params.length =
    .ok (params.map (literal doubles))

theorem readsBack_of_decodes {header : ExecuteHeader} (h : ∀ p ∈ params, p.Decodes typesSent) :
    ReadsBack header typesSent params := by
  intro doubles
  by_cases hne : params = []
  · rw [hne]
    rfl
  · rw [parseExecuteParams_payload doubles header typesSent hne]
    exact readParams_decodes (executePayload_eq header typesSent hne)
      (nullsAt_payload header typesSent hne) h

theorem decodes_of_readsBack {header : ExecuteHeader} (h : ReadsBack header typesSent params) :
    (∀ p ∈ params, p.Decodes typesSent) ∨ LuckyDate typesSent params := by
  by_cases hne : params = []
  · rw [hne]
    exact .inl nofun
  · have hread := h patternText
    rw [parseExecuteParams_payload patternText header typesSent hne] at hread
    exact decodes_of_readParams (executePayload_eq header typesSent hne)
      (nullsAt_payload header typesSent hne) hread

/-- The parameters come out as they were sent when each is one that the reader takes so, and
otherwise only where a date is read right by luck; and whatever a payload holds, the function
returns and reads nothing outside of it. -/
theorem parseExecuteParams_iff (header : ExecuteHeader) (typesSent : Bool) (params : List Param) :
    ((∀ p ∈ params, p.Decodes typesSent) → ReadsBack header typesSent params) ∧
      (ReadsBack header typesSent params →
        ¬ LuckyDate typesSent params → ∀ p ∈ params, p.Decodes typesSent) ∧
      ∀ doubles payload numParams, ∃ texts,
        parseExecuteParams doubles payload numParams = .ok texts :=
  ⟨readsBack_of_decodes, fun h hlucky => (decodes_of_readsBack h).resolve_right hlucky,
    parseExecuteParams_inside⟩

def firstHeader : ExecuteHeader :=
  ⟨1, 0, 1⟩

/-- `-56`, `NULL`, an unsigned `5000000`, a date with its time, and a string. -/
def takenParams : List Param :=
  [.int .tiny false 200, .null 0x03 0, .int .long true 5000000,
    .datetime ⟨⟨2024, 5, 17⟩, ⟨1, 2, 3⟩, 0⟩, .string .varString [0x61, 0x27, 0x62]]

theorem parseExecuteParams_takenParams :
    ReadsBack firstHeader true takenParams ∧ ¬ ReadsBack firstHeader false takenParams := by
  have hfirst := parseExecuteParams_iff firstHeader true takenParams
  have hagain := parseExecuteParams_iff firstHeader false takenParams
  constructor
  · apply hfirst.1
    intro p hp
    simp only [takenParams, List.mem_cons, List.not_mem_nil, or_false] at hp
    rcases hp with rfl | rfl | rfl | rfl | rfl
    · exact ⟨rfl, by decide⟩
    · trivial
    · exact ⟨rfl, by decide⟩
    · exact ⟨rfl, by decide, rfl⟩
    · show 3 < 16777216
      decide
  · intro h
    have hdecodes := hagain.2.1 h (fun hlucky => absurd hlucky.1 (by decide))
      (.int .tiny false 200) List.mem_cons_self
    exact absurd hdecodes.1 (by decide)

/-- The date `2024-05-17` in front of the number `1`: the length of the date is read as a part of
its year. -/
theorem not_readsBack_date :
    ¬ ReadsBack firstHeader true [.date ⟨2024, 5, 17⟩, .int .tiny false 1] := by
  intro h
  exact absurd (h patternText) (by decide)

end

end RusqlEngine.ExecuteParams
