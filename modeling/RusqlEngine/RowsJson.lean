import RusqlEngine.RowJsonRoundTrip

/-!
# Rows of UTF-8 text

`rows_to_json` writes an array of the objects of its rows, and `rows_from_json` reads it as
`row_from_json` reads one object. A text is valid UTF-8 if it is the encoding of some characters;
rows of such texts are read back without nlohmann.
-/

namespace RusqlEngine.RowJson

open Buffer

/-- The objects with commas between them. -/
def rowsText (json : Nlohmann) : List ByteRow → Option Bytes
  | [] => some []
  | [row] => rowToJson json row
  | row :: row' :: rows =>
    (rowToJson json row).bind fun r =>
      (rowsText json (row' :: rows)).map fun rest => r ++ 0x2C :: rest

def rowsToJson (json : Nlohmann) (rows : List ByteRow) : Option Bytes :=
  (rowsText json rows).map fun objects => 0x5B :: objects ++ [0x5D]

/-- The loop of `rows_from_json`, which meets no more objects than the text has bytes. -/
def readRows : ℕ → Bytes → Option (List ByteRow × Bytes)
  | 0, _ => none
  | fuel + 1, s =>
    match s with
    | [] => none
    | c :: s =>
      if c = 0x7B then
        (readFlatObject s).bind fun (row, s) =>
          match skipWs s with
          | [] => none
          | c :: s =>
            if c = 0x5D then some ([row], s)
            else if c = 0x2C then
              (readRows fuel (skipWs s)).map fun (rows, s) => (row :: rows, s)
            else none
      else none

/-- The array behind its opening bracket. -/
def readArray (s : Bytes) : Option (List ByteRow × Bytes) :=
  match skipWs s with
  | [] => none
  | c :: s => if c = 0x5D then some ([], s) else readRows (s.length + 1) (c :: s)

/-- `rows_from_json`; `parse` is what `nlohmann::json::parse(text).get<std::vector<Row>>()`
reads. -/
def rowsFromJson (parse : Bytes → Option (List ByteRow)) (text : Bytes) : Option (List ByteRow) :=
  match skipWs text with
  | [] => parse text
  | c :: s =>
    if c = 0x5B then
      match readArray s with
      | some (rows, rest) => if skipWs rest = [] then some rows else parse text
      | none => parse text
    else parse text

def encodeChar (c : Char) : Bytes :=
  (String.utf8EncodeChar c).map UInt8.toFin

def Utf8Text (s : Bytes) : Prop :=
  ∃ chars : List Char, s = chars.flatMap encodeChar

def Utf8Row (row : ByteRow) : Prop :=
  ∀ key value, row.lookup key = some value → Utf8Text key ∧ Utf8Text value

theorem continuations_two : ∀ q : Fin 32, 2 ≤ q.val →
    continuations (Fin.ofNat 256 (q.val + 192)) = some [(0x80, 0xBF)] := by
  decide

theorem continuations_three : ∀ q : Fin 16, continuations (Fin.ofNat 256 (q.val + 224)) =
    some [(Fin.ofNat 256 (if q.val = 0 then 0xA0 else 0x80),
      Fin.ofNat 256 (if q.val = 13 then 0x9F else 0xBF)), (0x80, 0xBF)] := by
  decide

theorem continuations_four : ∀ q : Fin 5, continuations (Fin.ofNat 256 (q.val + 240)) =
    some [(Fin.ofNat 256 (if q.val = 0 then 0x90 else 0x80),
      Fin.ofNat 256 (if q.val = 4 then 0x8F else 0xBF)), (0x80, 0xBF), (0x80, 0xBF)] := by
  decide

theorem not_ascii_of_continuations (b : Byte) (h : (continuations b).isSome) : ¬ b < 0x80 := by
  grind [continuations]

theorem continued_cons {lo hi n : ℕ} {ranges : List (Byte × Byte)} {s : Bytes} (hlo : lo ≤ n)
    (hhi : n ≤ hi) (hbyte : hi < 256) (h : continued ranges s) :
    continued ((Fin.ofNat 256 lo, Fin.ofNat 256 hi) :: ranges) (Fin.ofNat 256 n :: s) := by
  have hle {a b : ℕ} (hab : a ≤ b) (hb : b < 256) : Fin.ofNat 256 a ≤ Fin.ofNat 256 b := by
    rw [Fin.le_def, Fin.val_ofNat, Fin.val_ofNat, Nat.mod_eq_of_lt hb,
      Nat.mod_eq_of_lt (hab.trans_lt hb)]
    exact hab
  rw [continued, h, Bool.and_true, Bool.and_eq_true]
  exact ⟨decide_eq_true (hle hlo (hhi.trans_lt hbyte)), decide_eq_true (hle hhi hbyte)⟩

theorem continued_tail (v : ℕ) {ranges : List (Byte × Byte)} {s : Bytes} (h : continued ranges s) :
    continued ((0x80, 0xBF) :: ranges) (Fin.ofNat 256 (v % 64 + 128) :: s) := by
  have hlo : 0x80 ≤ v % 64 + 128 := by omega
  have hhi : v % 64 + 128 ≤ 0xBF := by omega
  have hbyte : 0xBF < 256 := by decide
  exact continued_cons hlo hhi hbyte h

theorem encodeChar_cases (c : Char) :
    (∃ b, b < 0x80 ∧ encodeChar c = [b]) ∨ ∃ lead follow ranges,
      encodeChar c = lead :: follow ∧ continuations lead = some ranges ∧
        ranges.length = follow.length ∧ continued ranges follow := by
  have hvalid : c.val.toNat < 0xD800 ∨ 0xDFFF < c.val.toNat ∧ c.val.toNat < 0x110000 := c.valid
  rw [encodeChar, String.utf8EncodeChar]
  generalize c.val.toNat = v at hvalid
  split_ifs with h1 h2 h3
  · refine .inl ⟨_, ?_, rfl⟩
    change v % 256 < 128
    omega
  · have hlow : 2 ≤ v / 64 % 32 := by omega
    have hlead := continuations_two ⟨v / 64 % 32, Nat.mod_lt _ (by decide)⟩ hlow
    exact .inr ⟨_, _, _, rfl, hlead, rfl, continued_tail v rfl⟩
  · have hlead := continuations_three ⟨v / 4096 % 16, Nat.mod_lt _ (by decide)⟩
    refine .inr ⟨_, _, _, rfl, hlead, rfl, continued_cons ?_ ?_ ?_ (continued_tail v rfl)⟩
    -- no second spelling of what fits two bytes, and no surrogate
    · change (if v / 4096 % 16 = 0 then 0xA0 else 0x80) ≤ v / 64 % 64 + 128
      split_ifs <;> omega
    · change v / 64 % 64 + 128 ≤ if v / 4096 % 16 = 13 then 0x9F else 0xBF
      split_ifs <;> omega
    · split_ifs <;> decide
  · have hsmall : v / 262144 % 8 < 5 := by omega
    have hlead := continuations_four ⟨v / 262144 % 8, hsmall⟩
    refine .inr ⟨_, _, _, rfl, hlead, rfl,
      continued_cons ?_ ?_ ?_ (continued_tail (v / 64) (continued_tail v rfl))⟩
    -- no second spelling of what fits three bytes, and nothing above U+10FFFF
    · change (if v / 262144 % 8 = 0 then 0x90 else 0x80) ≤ v / 4096 % 64 + 128
      split_ifs <;> omega
    · change v / 4096 % 64 + 128 ≤ if v / 262144 % 8 = 4 then 0x8F else 0xBF
      split_ifs <;> omega
    · split_ifs <;> decide

theorem continued_append : ∀ {ranges : List (Byte × Byte)} {s : Bytes} (t : Bytes),
    continued ranges s → continued ranges (s ++ t) = true
  | [], _, _, _ => rfl
  | _ :: _, [], _, h => by cases h
  | (lo, hi) :: ranges, b :: s, t, h => by
      rw [continued, Bool.and_eq_true] at h
      rw [List.cons_append, continued, Bool.and_eq_true]
      exact ⟨h.1, continued_append t h.2⟩

theorem stringBody_follow (s : Bytes) : ∀ follow : Bytes,
    stringBody follow.length (follow ++ s) = (stringBody 0 s).map (follow ++ ·)
  | [] => (Option.map_id' (x := stringBody 0 s)).symm
  | b :: follow => by
      rw [List.length_cons, List.cons_append, stringBody, stringBody_follow s follow,
        Option.map_map]
      rfl

theorem validUtf8_encodeChar (c : Char) {s : Bytes} (h : ValidUtf8 s) :
    ValidUtf8 (encodeChar c ++ s) := by
  rcases encodeChar_cases c with ⟨b, hb, hc⟩ | ⟨lead, follow, ranges, hc, hranges, hlength, hfollow⟩
  · rw [hc, ValidUtf8, List.singleton_append, stringBody, if_pos hb, Option.isSome_map]
    exact h
  · have hascii := not_ascii_of_continuations lead (by rw [hranges]; rfl)
    have hsequence : utf8SequenceLength lead (follow ++ s) = follow.length + 1 := by
      rw [utf8SequenceLength, hranges]
      dsimp only
      rw [if_pos (continued_append s hfollow), hlength]
    rw [hc, ValidUtf8, List.cons_append, stringBody, if_neg hascii, hsequence]
    dsimp only
    rw [stringBody_follow, Option.isSome_map, Option.isSome_map]
    exact h

theorem Utf8Text.valid {s : Bytes} (h : Utf8Text s) : ValidUtf8 s := by
  obtain ⟨chars, rfl⟩ := h
  induction chars with
  | nil => rfl
  | cons c chars ih =>
    rw [List.flatMap_cons]
    exact validUtf8_encodeChar c ih

theorem Utf8Row.valid {row : ByteRow} (h : Utf8Row row) : ValidRow row := by
  intro cell hcell
  obtain ⟨hkey, hvalue⟩ := h cell.1 cell.2 (mem_sortedCells.mp hcell)
  exact ⟨hkey.valid, hvalue.valid⟩

section

variable {json : Nlohmann}

theorem membersText_of_valid (json : Nlohmann) : ∀ {members : List (Bytes × Bytes)},
    (∀ m ∈ members, ValidUtf8 m.1 ∧ ValidUtf8 m.2) →
    ∃ text, membersText json members = some text
  | [], _ => ⟨[], rfl⟩
  | [(key, value)], h => by
      obtain ⟨hk, hv⟩ := h (key, value) List.mem_cons_self
      obtain ⟨_, -, hkey⟩ := jsonString_of_valid json hk
      obtain ⟨_, -, hvalue⟩ := jsonString_of_valid json hv
      exact ⟨_, by rw [membersText, hkey, hvalue, Option.bind_some, Option.map_some]⟩
  | (key, value) :: member :: members, h => by
      obtain ⟨hk, hv⟩ := h (key, value) List.mem_cons_self
      obtain ⟨_, -, hkey⟩ := jsonString_of_valid json hk
      obtain ⟨_, -, hvalue⟩ := jsonString_of_valid json hv
      have htail : ∀ m ∈ member :: members, ValidUtf8 m.1 ∧ ValidUtf8 m.2 :=
        fun m hm => h m (.tail _ hm)
      obtain ⟨rest, hrest⟩ := membersText_of_valid json htail
      exact ⟨_, by rw [membersText, hkey, hvalue, hrest, Option.bind_some, Option.bind_some,
        Option.map_some]⟩

theorem rowToJson_of_valid (json : Nlohmann) {row : ByteRow} (h : ValidRow row) :
    ∃ members, rowToJson json row = some (0x7B :: (members ++ [0x7D])) ∧
      ∀ rest, readFlatObject (members ++ 0x7D :: rest) = some (row, rest) := by
  obtain ⟨members, hmembers⟩ := membersText_of_valid json h
  refine ⟨members, ?_, fun rest => readFlatObject_membersText rest h hmembers⟩
  rw [rowToJson, hmembers, Option.map_some, List.cons_append]

/-- The objects that were written are read. -/
theorem readRows_rowsText (json : Nlohmann) (rest : Bytes) : ∀ {rows : List ByteRow}, rows ≠ [] →
    (∀ row ∈ rows, ValidRow row) → ∃ objects, rowsText json rows = some (0x7B :: objects) ∧
      rows.length ≤ objects.length ∧ ∀ fuel, rows.length ≤ fuel →
        readRows fuel (0x7B :: objects ++ 0x5D :: rest) = some (rows, rest)
  | [], hne, _ => absurd rfl hne
  | [row], _, h => by
      obtain ⟨members, htext, hread⟩ := rowToJson_of_valid json (h row List.mem_cons_self)
      refine ⟨members ++ [0x7D], htext, by simp, fun fuel hfuel => ?_⟩
      obtain ⟨fuel, rfl⟩ := Nat.exists_eq_add_of_le' hfuel
      rw [List.cons_append, List.append_assoc, List.singleton_append, List.length_singleton,
        readRows]
      dsimp only
      rw [if_pos rfl, hread, Option.bind_some, skipWs_cons (by decide)]
      rfl
  | row :: row' :: rows, _, h => by
      obtain ⟨members, htext, hread⟩ := rowToJson_of_valid json (h row List.mem_cons_self)
      obtain ⟨objects, hobjects, hlength, hmore⟩ := readRows_rowsText json rest
        (List.cons_ne_nil row' rows) fun r hr => h r (.tail _ hr)
      refine ⟨members ++ 0x7D :: 0x2C :: 0x7B :: objects, ?_, ?_, fun fuel hfuel => ?_⟩
      · rw [rowsText, htext, Option.bind_some, hobjects, Option.map_some]
        simp
      · simp only [List.length_cons, List.length_append] at hlength ⊢
        omega
      · obtain ⟨fuel, rfl⟩ : ∃ n, fuel = n + 1 := Nat.exists_eq_succ_of_ne_zero (by
          rintro rfl
          exact absurd hfuel (Nat.not_succ_le_zero _))
        have hrest := hmore fuel (Nat.le_of_succ_le_succ hfuel)
        have htail : 0x7B :: (members ++ 0x7D :: 0x2C :: 0x7B :: objects) ++ 0x5D :: rest =
            0x7B :: (members ++ 0x7D :: 0x2C :: (0x7B :: objects ++ 0x5D :: rest)) := by
          simp
        rw [htail, readRows]
        dsimp only
        rw [if_pos rfl, hread, Option.bind_some, skipWs_cons (by decide)]
        dsimp only
        rw [if_neg (by decide), if_pos rfl, List.cons_append, skipWs_cons (by decide),
          ← List.cons_append, hrest]
        rfl

theorem rowsFromJson_rowsToJson (json : Nlohmann) {rows : List ByteRow}
    (h : ∀ row ∈ rows, ValidRow row) :
    ∃ text, rowsToJson json rows = some text ∧
      ∀ parse, rowsFromJson parse text = some rows := by
  by_cases hempty : rows = []
  · rw [hempty]
    exact ⟨[0x5B, 0x5D], rfl, fun _ => rfl⟩
  · obtain ⟨objects, hobjects, hlength, hread⟩ := readRows_rowsText json [] hempty h
    refine ⟨0x5B :: (0x7B :: objects) ++ [0x5D], by rw [rowsToJson, hobjects, Option.map_some],
      fun parse => ?_⟩
    have harray : readArray (0x7B :: objects ++ [0x5D]) = some (rows, []) := by
      rw [readArray, List.cons_append, skipWs_cons (by decide)]
      dsimp only
      rw [if_neg (by decide), ← List.cons_append, hread]
      rw [List.length_append]
      omega
    rw [rowsFromJson, List.cons_append, skipWs_cons (by decide)]
    dsimp only
    rw [if_pos rfl, harray]
    exact if_pos rfl

/-- A row of UTF-8 texts, and any list of them, is read back without nlohmann. -/
theorem utf8Rows_read_back (json : Nlohmann) :
    (∀ row, Utf8Row row → ∃ text, rowToJson json row = some text ∧
      ∀ json', rowFromJson json' text = some row) ∧
    ∀ rows, (∀ row ∈ rows, Utf8Row row) → ∃ text, rowsToJson json rows = some text ∧
      ∀ parse, rowsFromJson parse text = some rows := by
  constructor
  · intro row h
    obtain ⟨members, htext, hread⟩ := rowToJson_of_valid json h.valid
    exact ⟨_, htext, fun json' => rowFromJson_object json' (hread [])⟩
  · exact fun rows h => rowsFromJson_rowsToJson json fun row hrow => (h row hrow).valid

def noJson : Nlohmann where
  dump := fun _ => none
  parse := fun _ => none

/-- The row of the cell `"é` under the key `k`. -/
def quotedRow : ByteRow :=
  Finmap.singleton [0x6B] [0x22, 0xC3, 0xA9]

theorem quotedRow_utf8 : Utf8Row quotedRow := by
  intro key value h
  obtain rfl : key = [0x6B] := Finmap.mem_singleton _ _ _ |>.mp (Finmap.mem_of_lookup_eq_some h)
  rw [quotedRow, Finmap.lookup_singleton_eq] at h
  cases h
  exact ⟨⟨['k'], by decide⟩, ⟨['"', 'é'], by decide⟩⟩

theorem utf8Rows_read_back_quotedRow :
    ∃ text, rowsToJson noJson [quotedRow, quotedRow] = some text ∧
      rowsFromJson (fun _ => none) text = some [quotedRow, quotedRow] := by
  obtain ⟨text, htext, hread⟩ := (utf8Rows_read_back noJson).2 [quotedRow, quotedRow]
    (by simp [quotedRow_utf8])
  exact ⟨text, htext, hread _⟩

end

end RusqlEngine.RowJson
