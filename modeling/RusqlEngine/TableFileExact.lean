import RusqlEngine.TableFile

/-!
# Which table files read back as written

Nothing is refused by `save_table`: beyond the largest source LZ4 takes, the file holds no block
that can be read, or one of the size modulo `2 ^ 32`. So the rows come back exactly when they fit,
while whatever the file holds no read lies outside of a buffer.
-/

namespace RusqlEngine

open RowJson Buffer

theorem readLe32_inside {buf : Bytes} {i : ℕ} (h : i + 4 ≤ buf.length) :
    Inside (readLe32 buf i) := by
  have hlength : 4 ≤ (buf.drop i).length := by
    rw [List.length_drop]
    omega
  rw [readLe32]
  split
  next => exact inside_ok _
  next hshort =>
    match hdrop : buf.drop i with
    | [] | [_] | [_, _] | [_, _, _] => simp [hdrop] at hlength
    | b₀ :: b₁ :: b₂ :: b₃ :: s => exact absurd hdrop (hshort b₀ b₁ b₂ b₃ s)

theorem readLe16_inside {buf : Bytes} {i : ℕ} (h : i + 2 ≤ buf.length) :
    Inside (readLe16 buf i) := by
  have hlength : 2 ≤ (buf.drop i).length := by
    rw [List.length_drop]
    omega
  rw [readLe16]
  split
  next => exact inside_ok _
  next hshort =>
    match hdrop : buf.drop i with
    | [] | [_] => simp [hdrop] at hlength
    | b₀ :: b₁ :: s => exact absurd hdrop (hshort b₀ b₁ s)

theorem toInt32_le (n : ℕ) : toInt32 n ≤ n := by
  have := Nat.mod_le n 4294967296
  rw [toInt32]
  split <;> omega

theorem fromBytes_inside {buf : Bytes} (h : 32 ≤ buf.length) :
    Inside (PageHeader.fromBytes buf 32) := by
  rw [PageHeader.fromBytes, if_neg (Nat.lt_irrefl 32)]
  refine (readLe32_inside (by omega)).bind fun magic => ?_
  split
  next => exact inside_ok _
  next =>
    exact (readLe16_inside (by omega)).bind fun _ => (readAt_inside (by omega)).bind fun _ =>
      (readLe32_inside (by omega)).bind fun _ => (readLe32_inside (by omega)).bind fun _ =>
        inside_ok _

theorem decompress_inside (lz4 : Lz4) (data : Bytes) :
    Inside (lz4DecompressSizePrepended lz4 data) := by
  rw [lz4DecompressSizePrepended]
  split
  next => exact inside_ok _
  next hlong =>
    refine (readLe32_inside (by omega)).bind fun origSize => ?_
    split
    next => exact inside_ok _
    next =>
      rw [if_neg (not_lt.mpr (toInt32_le _))]
      split
      next => exact inside_ok _
      next => exact inside_ok _

theorem loadRows_inside (json : Nlohmann) (raw : Bytes) : ∀ rowCount pos : ℕ,
    Inside (loadRows json raw rowCount pos)
  | 0, _ => inside_ok _
  | rowCount + 1, pos => by
      rw [loadRows]
      split
      next => exact inside_ok _
      next hlong =>
        refine (readLe32_inside (not_lt.mp hlong)).bind fun len => ?_
        split
        next => exact inside_ok _
        next hend =>
          exact (readSlice_inside (not_lt.mp hend)).bind fun _ =>
            (loadRows_inside json raw rowCount _).bind fun _ => inside_ok _

theorem loadRdb_inside (json : Nlohmann) (lz4 : Lz4) (buf : Bytes) :
    Inside (loadRdb json lz4 buf) := by
  rw [loadRdb]
  split
  next => exact inside_ok _
  next hlong =>
    refine (fromBytes_inside (not_lt.mp hlong)).bind fun header => ?_
    split
    next => exact inside_ok _
    next header =>
      split
      next =>
        refine (decompress_inside lz4 _).bind fun raw => ?_
        split
        next => exact inside_ok _
        next => exact loadRows_inside json _ _ _
      next => exact loadRows_inside json _ _ _

section

variable {json : Nlohmann} {lz4 : Lz4}

theorem readLe32_pushLe32 (pre rest : Bytes) (v : ℕ) {i : ℕ} (hi : pre.length = i) :
    readLe32 (pre ++ (pushLe32 v ++ rest)) i = .ok (toUInt32 v) := by
  subst hi
  rw [readLe32, List.drop_left]
  simp only [pushLe32, List.cons_append, List.nil_append, Fin.val_ofNat, toUInt32]
  congr 1
  omega

theorem length_toBytes (header : PageHeader) : header.toBytes.length = 32 := by
  simp [PageHeader.toBytes, pushLe32, pushLe16]

theorem fromBytes_toBytes {rowCount pageCount : ℕ} (rest : Bytes) :
    PageHeader.fromBytes
        ((⟨pageMagic, 1, 1, rowCount, pageCount⟩ : PageHeader).toBytes ++ rest) 32 =
      .ok (some ⟨pageMagic, 1, 1, toUInt32 rowCount, toUInt32 pageCount⟩) := by
  obtain ⟨buf, hbuf⟩ : ∃ buf, buf = ((⟨pageMagic, 1, 1, rowCount, pageCount⟩ :
      PageHeader).toBytes ++ rest) := ⟨_, rfl⟩
  have hbytes : buf = pushLe32 pageMagic ++ (pushLe16 1 ++ ([1, 0] ++ (pushLe32 rowCount ++
      (pushLe32 pageCount ++ (List.replicate 16 0 ++ rest))))) := by
    rw [hbuf, PageHeader.toBytes]
    simp only [List.append_assoc]
    rfl
  have hmagic : readLe32 buf 0 = .ok pageMagic := by
    rw [hbytes]
    exact readLe32_pushLe32 [] _ pageMagic rfl
  have hversion : readLe16 buf 4 = .ok 1 := by
    rw [hbytes]
    rfl
  have hflags : readAt buf 6 = .ok 1 := by
    rw [hbytes]
    rfl
  have hrowCount : readLe32 buf 8 = .ok (toUInt32 rowCount) := by
    rw [hbytes]
    exact readLe32_pushLe32 (pushLe32 pageMagic ++ pushLe16 1 ++ [1, 0]) _ rowCount rfl
  have hpageCount : readLe32 buf 12 = .ok (toUInt32 pageCount) := by
    rw [hbytes]
    exact readLe32_pushLe32 (pushLe32 pageMagic ++ pushLe16 1 ++ [1, 0] ++ pushLe32 rowCount) _
      pageCount rfl
  rw [← hbuf, PageHeader.fromBytes, if_neg (Nat.lt_irrefl 32), hmagic, hversion, hflags,
    hrowCount, hpageCount]
  rfl

theorem length_rawRows : ∀ {rows : List ByteRow} {raw : Bytes}, rawRows json rows = some raw →
    raw.length = storedSize json rows
  | [], _, h => by
      cases h
      rfl
  | row :: rows, _, h => by
      obtain ⟨text, htext, h⟩ := Option.bind_eq_some_iff.mp h
      obtain ⟨raw, hraw, rfl⟩ := Option.map_eq_some_iff.mp h
      have hrest := length_rawRows hraw
      rw [storedSize] at hrest ⊢
      rw [List.map_cons, List.sum_cons, htext, Option.getD_some, List.length_append,
        List.length_append, hrest]
      rfl

theorem loadRows_rawRows : ∀ {rows : List ByteRow} (pre : Bytes) {raw : Bytes},
    (∀ row ∈ rows, ValidRow row) → rawRows json rows = some raw → raw.length < 4294967296 →
    loadRows json (pre ++ raw) rows.length pre.length = .ok rows
  | [], _, _, _, _, _ => rfl
  | row :: rows, pre, _, hvalid, h, hsize => by
      obtain ⟨text, htext, h⟩ := Option.bind_eq_some_iff.mp h
      obtain ⟨raw, hraw, rfl⟩ := Option.map_eq_some_iff.mp h
      have hleading : (pushLe32 (toUInt32 text.length)).length = 4 := rfl
      rw [List.length_append, List.length_append, hleading] at hsize
      have hlen : toUInt32 (toUInt32 text.length) = text.length := by
        rw [toUInt32, toUInt32]
        omega
      have hread := readLe32_pushLe32 pre (text ++ raw) (toUInt32 text.length) rfl
      have hslice := readSlice_append (pre ++ pushLe32 (toUInt32 text.length)) text raw
      have hrest := loadRows_rawRows (pre ++ (pushLe32 (toUInt32 text.length) ++ text))
        (fun row hrow => hvalid row (.tail _ hrow)) hraw (by omega)
      have hrow := rowFromJson_rowToJson (hvalid row List.mem_cons_self) htext
      rw [hlen] at hread
      rw [List.length_append, hleading] at hslice
      rw [List.length_append, List.length_append, hleading, ← Nat.add_assoc] at hrest
      simp only [List.append_assoc] at hread hslice hrest ⊢
      rw [List.length_cons, loadRows, if_neg (by simp only [List.length_append, hleading]; omega),
        hread]
      rw [ok_bind, if_neg (by simp only [List.length_append, hleading]; omega), hslice, ok_bind,
        hrest, ok_bind, hrow]

theorem toInt32_of_lt {n : ℕ} (h : n < 2147483648) : toInt32 n = n := by
  have hmod : n % 4294967296 = n := Nat.mod_eq_of_lt (by omega)
  rw [toInt32, hmod, if_pos h]

theorem toUInt32_of_lt {n : ℕ} (h : n < 4294967296) : toUInt32 n = n :=
  Nat.mod_eq_of_lt h

variable {raw : Bytes}

theorem decompress_compress (hlz4 : lz4.Lawful) (hsize : raw.length ≤ lz4MaxInputSize) :
    lz4DecompressSizePrepended lz4 (lz4CompressPrependSize lz4 raw) = .ok (some raw) := by
  have hmax : lz4MaxInputSize = 2113929216 := rfl
  have hint : toInt32 raw.length = raw.length := toInt32_of_lt (by omega)
  have hbound : lz4CompressBound raw.length < 2147483648 := by
    rw [lz4CompressBound]
    split <;> omega
  obtain ⟨block, hblock⟩ : ∃ block, block =
      lz4.compressDefault raw raw.length (lz4CompressBound raw.length) := ⟨_, rfl⟩
  have hcapacity : (block.length : ℤ) < 2147483648 := by
    have hle := hlz4.capacity raw raw.length (lz4CompressBound raw.length)
    rw [← hblock] at hle
    omega
  have hundo := hlz4.roundTrip raw hsize
  rw [← hblock] at hundo
  have horig : readLe32 (pushLe32 raw.length ++ block) 0 = .ok raw.length := by
    have hread := readLe32_pushLe32 [] block raw.length rfl
    rwa [toUInt32_of_lt (by omega)] at hread
  have hleading : (pushLe32 raw.length).length = 4 := rfl
  have hlength : (pushLe32 raw.length ++ block).length = 4 + block.length := by
    rw [List.length_append, hleading]
  rw [lz4DecompressSizePrepended, lz4CompressPrependSize, hint, ← hblock,
    toUInt32_of_lt (by omega), if_neg (by omega), horig, ok_bind]
  by_cases hzero : raw.length = 0
  · rw [if_pos hzero, List.length_eq_zero_iff.mp hzero]
  · have hrest : (pushLe32 raw.length ++ block).length - 4 = block.length := by
      rw [hlength]
      omega
    have hdrop : (pushLe32 raw.length ++ block).drop 4 = block := rfl
    rw [if_neg hzero, hrest, if_neg (not_lt.mpr (toInt32_le _)), hdrop,
      toInt32_of_lt (by omega), toInt32_of_lt (by omega), hundo]
    simp only [if_true]

variable {rows : List ByteRow}

theorem loadRdb_saveTable {file : Bytes} (hraw : rawRows json rows = some raw)
    (hfile : saveTable json lz4 rows = some file) :
    loadRdb json lz4 file = (lz4DecompressSizePrepended lz4 (lz4CompressPrependSize lz4 raw) >>=
      fun
        | none => .ok []
        | some raw => loadRows json raw (toUInt32 rows.length) 0) := by
  rw [saveTable, hraw] at hfile
  cases hfile
  have hmod : toUInt32 (toUInt32 rows.length) = toUInt32 rows.length := Nat.mod_mod _ _
  rw [loadRdb, if_neg (by rw [List.length_append, length_toBytes]; omega), fromBytes_toBytes,
    ok_bind, hmod]
  rfl

theorem length_le_storedSize (json : Nlohmann)
    (rows : List ByteRow) : 4 * rows.length ≤ storedSize json rows := by
  induction rows with
  | nil => exact Nat.zero_le _
  | cons row rows ih =>
    rw [storedSize] at ih ⊢
    rw [List.map_cons, List.sum_cons, List.length_cons]
    omega

theorem loadRdb_of_small (hlz4 : lz4.Lawful) {file : Bytes} (hvalid : ∀ row ∈ rows, ValidRow row)
    (hraw : rawRows json rows = some raw) (hfile : saveTable json lz4 rows = some file)
    (hsize : storedSize json rows ≤ lz4MaxInputSize) : loadRdb json lz4 file = .ok rows := by
  have hmax : lz4MaxInputSize = 2113929216 := rfl
  have hlength := length_rawRows hraw
  have hcount := length_le_storedSize json rows
  rw [loadRdb_saveTable hraw hfile, decompress_compress hlz4 (hlength ▸ hsize), ok_bind,
    toUInt32_of_lt (by omega)]
  exact loadRows_rawRows [] hvalid hraw (by omega)

/-- The rows that are read take no less room than they are written in. -/
theorem storedSize_le_of_loadRows (hjson : Nlohmann.Lawful json) :
    ∀ {rowCount pos : ℕ} {rows : List ByteRow}, (∀ row ∈ rows, ValidRow row) →
    (∀ row ∈ rows, (rowToJson json row).isSome) → pos ≤ raw.length →
    loadRows json raw rowCount pos = .ok rows → storedSize json rows + pos ≤ raw.length
  | 0, pos, _, _, _, hpos, h => by
      cases h
      simpa [storedSize] using hpos
  | rowCount + 1, pos, rows, hvalid, hwritten, hpos, h => by
      rw [loadRows] at h
      split at h
      next =>
        cases h
        simpa [storedSize] using hpos
      next hlong =>
        obtain ⟨len, hlen⟩ := readLe32_inside (not_lt.mp hlong)
        rw [hlen, ok_bind] at h
        split at h
        next =>
          cases h
          simpa [storedSize] using hpos
        next hend =>
          obtain ⟨more, hmore⟩ := loadRows_inside json raw rowCount (pos + 4 + len)
          have hslice : readSlice raw (pos + 4) len = .ok ((raw.drop (pos + 4)).take len) :=
            if_pos (not_lt.mp hend)
          have htaken : ((raw.drop (pos + 4)).take len).length = len := by
            rw [List.length_take, List.length_drop]
            omega
          rw [hslice, ok_bind, hmore, ok_bind] at h
          have hrows := Except.ok.inj h
          split at hrows
          next row hrow =>
            subst hrows
            obtain ⟨text, htext⟩ := Option.isSome_iff_exists.mp
              (hwritten row List.mem_cons_self)
            have hle := rowToJson_length_le (hvalid row List.mem_cons_self)
              (fun hp => hjson.parseShort row text _ hp htext) htext hrow
            have hrest := storedSize_le_of_loadRows hjson
              (fun row hr => hvalid row (.tail _ hr))
              (fun row hr => hwritten row (.tail _ hr)) (not_lt.mp hend) hmore
            rw [storedSize] at hrest ⊢
            rw [List.map_cons, List.sum_cons, htext, Option.getD_some]
            omega
          next =>
            subst hrows
            have hrest := storedSize_le_of_loadRows hjson hvalid hwritten (not_lt.mp hend) hmore
            omega

theorem membersText_isSome : ∀ {members : List (Bytes × Bytes)},
    (∀ m ∈ members, ValidUtf8 m.1 ∧ ValidUtf8 m.2) → (membersText json members).isSome = true
  | [], _ => rfl
  | [(key, value)], hvalid => by
      have hcell := hvalid (key, value) List.mem_cons_self
      obtain ⟨kbody, -, hkey⟩ := jsonString_of_valid json hcell.1
      obtain ⟨vbody, -, hvalue⟩ := jsonString_of_valid json hcell.2
      rw [membersText, hkey, hvalue]
      rfl
  | (key, value) :: member :: members, hvalid => by
      have hcell := hvalid (key, value) List.mem_cons_self
      obtain ⟨kbody, -, hkey⟩ := jsonString_of_valid json hcell.1
      obtain ⟨vbody, -, hvalue⟩ := jsonString_of_valid json hcell.2
      have hrest := membersText_isSome fun m hm => hvalid m (.tail _ hm)
      rw [membersText, hkey, hvalue, Option.bind_some, Option.bind_some, Option.isSome_map]
      exact hrest

theorem rowToJson_isSome (json : Nlohmann) {row : ByteRow} (hvalid : ValidRow row) :
    (rowToJson json row).isSome := by
  rw [rowToJson, Option.isSome_map]
  exact membersText_isSome hvalid

theorem rawRows_isSome (json : Nlohmann) : ∀ {rows : List ByteRow}, (∀ row ∈ rows, ValidRow row) →
    (rawRows json rows).isSome = true
  | [], _ => rfl
  | row :: rows, hvalid => by
      obtain ⟨text, htext⟩ := Option.isSome_iff_exists.mp
        (rowToJson_isSome json (hvalid row List.mem_cons_self))
      rw [rawRows, htext, Option.bind_some, Option.isSome_map]
      exact rawRows_isSome json fun row hrow => hvalid row (.tail _ hrow)

theorem decompress_some {v : ℕ} {block : Bytes} (hv : v < 4294967296)
    (h : lz4DecompressSizePrepended lz4 (pushLe32 v ++ block) = .ok (some raw)) :
    raw.length = v ∧ (v ≠ 0 →
      lz4.decompressSafe block (toInt32 block.length) (toInt32 v) = some raw) := by
  have hleading : (pushLe32 v).length = 4 := rfl
  have horig : readLe32 (pushLe32 v ++ block) 0 = .ok v := by
    have hread := readLe32_pushLe32 [] block v rfl
    rwa [toUInt32_of_lt hv] at hread
  have hrest : (pushLe32 v ++ block).length - 4 = block.length := by
    rw [List.length_append, hleading]
    omega
  have hdrop : (pushLe32 v ++ block).drop 4 = block := rfl
  rw [lz4DecompressSizePrepended, if_neg (by rw [List.length_append, hleading]; omega), horig,
    ok_bind] at h
  split at h
  next hzero =>
    cases h
    exact ⟨hzero.symm, fun hne => absurd hzero hne⟩
  next =>
    rw [if_neg (not_lt.mpr (toInt32_le _)), hrest, hdrop] at h
    split at h
    next => cases h
    next out hout =>
      obtain ⟨hlength, hraw⟩ := Option.ite_none_right_eq_some.mp (Except.ok.inj h)
      cases hraw
      exact ⟨hlength, fun _ => hout⟩

theorem loadRdb_of_large (hlz4 : lz4.Lawful) (hjson : Nlohmann.Lawful json) {file : Bytes}
    (hvalid : ∀ row ∈ rows, ValidRow row) (hraw : rawRows json rows = some raw)
    (hfile : saveTable json lz4 rows = some file) (hsize : lz4MaxInputSize < storedSize json rows) :
    loadRdb json lz4 file ≠ .ok rows := by
  have hmax : lz4MaxInputSize = 2113929216 := rfl
  have hlength := length_rawRows hraw
  intro hload
  rw [loadRdb_saveTable hraw hfile] at hload
  obtain ⟨found, hfound⟩ := decompress_inside lz4 (lz4CompressPrependSize lz4 raw)
  rw [hfound, ok_bind] at hload
  cases found with
  | none =>
    cases hload
    exact absurd hsize (by simp [storedSize])
  | some raw' =>
    have hmod : toUInt32 raw.length < 4294967296 := Nat.mod_lt _ (by decide)
    obtain ⟨hlength', hblock⟩ := decompress_some hmod hfound
    have hroom := storedSize_le_of_loadRows hjson hvalid
      (fun row hrow => rowToJson_isSome json (hvalid row hrow)) (Nat.zero_le _) hload
    -- so the size was not cut to 32 bits, and nothing was compressed
    have hwhole : toUInt32 raw.length = raw.length :=
      Nat.le_antisymm (Nat.mod_le _ _) (by omega)
    have hnone : lz4CompressBound (toInt32 raw.length) = 0 := by
      rw [lz4CompressBound, if_pos]
      rw [toUInt32] at hwhole
      rw [toInt32, hwhole]
      split
      next => exact .inr (by omega)
      next => exact .inl (by omega)
    have hempty : lz4.compressDefault raw (toInt32 raw.length)
        (lz4CompressBound (toInt32 raw.length)) = [] := by
      have hle := hlz4.capacity raw (toInt32 raw.length)
        (lz4CompressBound (toInt32 raw.length))
      rw [hnone] at hle ⊢
      exact List.length_eq_zero_iff.mp (by omega)
    rw [hempty] at hblock
    have hsome := hblock (by omega)
    rw [show toInt32 ([] : Bytes).length = 0 from rfl, hlz4.emptyBlock] at hsome
    cases hsome

theorem readsBackOrRefused_iff (hlz4 : lz4.Lawful) (hjson : Nlohmann.Lawful json)
    (hvalid : ∀ row ∈ rows, ValidRow row) :
    ReadsBackOrRefused json lz4 rows ↔ storedSize json rows ≤ lz4MaxInputSize := by
  obtain ⟨raw, hraw⟩ := Option.isSome_iff_exists.mp (rawRows_isSome json hvalid)
  constructor
  · intro h
    by_contra hlarge
    obtain ⟨file, hfile⟩ : ∃ file, saveTable json lz4 rows = some file := by
      rw [saveTable, hraw]
      exact ⟨_, rfl⟩
    exact loadRdb_of_large hlz4 hjson hvalid hraw hfile (not_le.mp hlarge) (h file hfile)
  · intro hsmall file hfile
    exact loadRdb_of_small hlz4 hvalid hraw hfile hsmall

end

/-- Rows come back from their file exactly when their texts and lengths are not more than LZ4
takes, and no file makes the reader leave its buffers. -/
theorem saveTable_loadRdb_iff {json : Nlohmann} {lz4 : Lz4} (hlz4 : lz4.Lawful)
    (hjson : Nlohmann.Lawful json) :
    (∀ rows : List ByteRow, (∀ row ∈ rows, ValidRow row) →
      (ReadsBackOrRefused json lz4 rows ↔ storedSize json rows ≤ lz4MaxInputSize)) ∧
      ∀ file, ∃ rows, loadRdb json lz4 file = .ok rows :=
  ⟨fun _ => readsBackOrRefused_iff hlz4 hjson, loadRdb_inside json lz4⟩

/-- A block of literals, as LZ4 writes it for a few bytes. -/
def literalLz4 : Lz4 where
  compressDefault raw _ room :=
    if (raw.length : ℤ) + 1 ≤ room then Fin.ofNat 256 (16 * raw.length) :: raw else []
  decompressSafe
    | [], _, _ => none
    | _ :: raw, _, _ => some raw

theorem literalLz4_lawful : literalLz4.Lawful where
  roundTrip raw hraw := by
    have hroom : (raw.length : ℤ) + 1 ≤ lz4CompressBound raw.length := by
      rw [lz4CompressBound]
      split <;> omega
    have hblock : literalLz4.compressDefault raw raw.length (lz4CompressBound raw.length) =
        Fin.ofNat 256 (16 * raw.length) :: raw := if_pos hroom
    rw [hblock]
    rfl
  capacity raw size room := by
    dsimp only [literalLz4]
    split
    next hroom =>
      rw [List.length_cons]
      push_cast
      omega
    next => simp
  emptyBlock _ := rfl

def unusedNlohmann : Nlohmann where
  dump _ := none
  parse _ := none

theorem unusedNlohmann_lawful : Nlohmann.Lawful unusedNlohmann :=
  ⟨nofun⟩

/-- The row `{"k":""}`. -/
def shortRow : ByteRow :=
  Finmap.insert [0x6B] [] ∅

theorem shortRow_valid : ValidRow shortRow := by
  have hcells : sortedCells shortRow = [([0x6B], [])] := by decide +kernel
  intro cell hcell
  rw [hcells, List.mem_singleton] at hcell
  rw [hcell]
  exact ⟨rfl, rfl⟩

theorem storedSize_replicate {json : Nlohmann} (n : ℕ) (row : ByteRow) :
    storedSize json (List.replicate n row) = n * storedSize json [row] := by
  rw [storedSize, storedSize, List.map_replicate, List.sum_replicate, List.map_singleton,
    List.sum_singleton]
  rfl

theorem storedSize_shortRow : storedSize unusedNlohmann [shortRow] = 12 := by
  decide +kernel

theorem saveTable_loadRdb_shortRow :
    ReadsBackOrRefused unusedNlohmann literalLz4 [shortRow] ∧
      ∃ rows, loadRdb unusedNlohmann literalLz4 [0x00] = .ok rows := by
  have h := saveTable_loadRdb_iff literalLz4_lawful unusedNlohmann_lawful
  refine ⟨(h.1 [shortRow] ?_).mpr ?_, h.2 _⟩
  · intro row hrow
    rw [List.mem_singleton.mp hrow]
    exact shortRow_valid
  · rw [storedSize_shortRow]
    decide

/-- More rows than LZ4 takes at once. -/
theorem not_readsBackOrRefused :
    ¬ ReadsBackOrRefused unusedNlohmann literalLz4 (List.replicate 176160769 shortRow) := by
  have hvalid : ∀ row ∈ List.replicate 176160769 shortRow, ValidRow row := by
    intro row hrow
    rw [List.eq_of_mem_replicate hrow]
    exact shortRow_valid
  rw [readsBackOrRefused_iff literalLz4_lawful unusedNlohmann_lawful hvalid,
    storedSize_replicate, storedSize_shortRow]
  decide

end RusqlEngine
