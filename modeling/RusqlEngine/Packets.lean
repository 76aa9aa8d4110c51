import RusqlEngine.ExecuteParamsExact

/-!
# The packets of a connection

A packet is the length of its payload in three bytes, a number in one, and the payload. A result is
its columns and its rows with an end behind each. It is read as it was sent, in whatever pieces it
arrives, as long as no payload has 16 MiB.
-/

namespace RusqlEngine.Packets

open Buffer ExecuteParams

structure Packet where
  seq : Byte
  payload : Bytes

/-- What `recv` has to give, piece by piece; it is cut off behind the last. -/
abbrev Socket := List Bytes

def readExact : Socket → ℕ → Option (Bytes × Socket)
  | sock, 0 => some ([], sock)
  | [], _ + 1 => none
  | piece :: sock, n + 1 =>
    if piece = [] then none
    else if n + 1 < piece.length then some (piece.take (n + 1), piece.drop (n + 1) :: sock)
    else (readExact sock (n + 1 - piece.length)).map fun read => (piece ++ read.1, read.2)

def readPacket (sock : Socket) : Option (Packet × Socket) := do
  let (h, sock) ← readExact sock 4
  let (payload, sock) ← readExact sock (leNat (h.take 3))
  some (⟨h.getD 3 0, payload⟩, sock)

def writePacket (packet : Packet) : Bytes :=
  leBytes 3 packet.payload.length ++ packet.seq :: packet.payload

/-! ### Results -/

structure WireType where
  code : Byte
  flags : ℕ
  decimals : Byte
  length : ℕ

structure Column where
  name : Bytes
  binary : Bool
  wire : WireType

def eofPkt : Bytes := [0xFE, 0, 0, 2, 0]

def lenstr (s : Bytes) : Bytes :=
  lenenc s.length ++ s

def colDefPkt (col : Column) : Bytes :=
  let typed : Bool := col.wire.code ≠ 0xFD
  let flags := (if col.binary || typed then 0x80 else 0) ||| (if typed then col.wire.flags else 0)
  lenstr [0x64, 0x65, 0x66] ++ lenstr [] ++ lenstr [] ++ lenstr [] ++ lenstr col.name ++
    lenstr col.name ++ [0x0C, if col.binary || typed then 0x3F else 0x21, 0] ++
    leBytes 4 (if typed then col.wire.length else 0xFFFFFFFF) ++
    [if typed then col.wire.code else if col.binary then 0xFC else 0xFD] ++ leBytes 2 flags ++
    [if typed then col.wire.decimals else 0, 0, 0]

def cell (v : Bytes) : Bytes :=
  if v = nullText then [0xFB] else lenstr v

/-- The values of a row: as many as there are columns. -/
def cells (cols : ℕ) (row : List Bytes) : List Bytes :=
  (List.range cols).map fun i => row.getD i []

def rowPkt (cols : ℕ) (row : List Bytes) : Bytes :=
  (cells cols row).flatMap cell

/-- Packets with these payloads, counted from `seq` on. -/
def sendAll : Byte → List Bytes → Bytes
  | _, [] => []
  | seq, payload :: payloads => writePacket ⟨seq, payload⟩ ++ sendAll (seq + 1) payloads

def sendResultset (cols : List Column) (rows : List (List Bytes)) (startSeq : Byte) : Bytes :=
  sendAll startSeq (lenenc cols.length :: (cols.map colDefPkt ++ eofPkt ::
    (rows.map (rowPkt cols.length) ++ [eofPkt])))

/-! ### What a client reads -/

def readCells : ℕ → Bytes → Option (List (Option Bytes))
  | 0, bytes => if bytes = [] then some [] else none
  | n + 1, bytes =>
    if bytes.head? = some 0xFB then (readCells n bytes.tail).map (none :: ·)
    else
      match readLenenc bytes bytes.length with
      | .error _ => none
      | .ok (len, k) =>
        (readCells n (bytes.drop (k + len))).map (some ((bytes.drop k).take len) :: ·)

def isEof (payload : Bytes) : Bool :=
  payload.head? = some 0xFE ∧ payload.length < 9

/-- The payloads up to an end, and the number behind it. -/
def readUntilEof : ℕ → Byte → Socket → Option (List Bytes × Byte × Socket)
  | 0, _, _ => none
  | fuel + 1, seq, sock => do
    let (packet, sock) ← readPacket sock
    if packet.seq ≠ seq then none
    else if isEof packet.payload then some ([], seq + 1, sock)
    else
      (readUntilEof fuel (seq + 1) sock).map fun read => (packet.payload :: read.1, read.2)

def readResultset (fuel : ℕ) (sock : Socket) :
    Option (List Bytes × List (Option (List (Option Bytes))) × Socket) := do
  let (count, sock) ← readPacket sock
  let (cols, seq, sock) ← readUntilEof fuel (count.seq + 1) sock
  let (rows, _, sock) ← readUntilEof fuel seq sock
  if count.payload ≠ lenenc cols.length then none
  else some (cols, rows.map (readCells cols.length), sock)

/-! ### Pieces -/

/-- The pieces are these bytes, and none of them is empty. -/
def Yields (sock : Socket) (bytes : Bytes) : Prop :=
  sock.flatten = bytes ∧ [] ∉ sock

variable {sock : Socket} {bytes rest : Bytes} {packet : Packet}

theorem readExact_yields {n : ℕ} (h : Yields sock bytes) (hn : n ≤ bytes.length) :
    ∃ sock', readExact sock n = some (bytes.take n, sock') ∧ Yields sock' (bytes.drop n) := by
  obtain ⟨rfl, hempty⟩ := h
  induction sock generalizing n with
  | nil => exact ⟨[], by cases Nat.le_zero.mp hn; rfl, by simp [Yields]⟩
  | cons piece sock ih =>
    cases n with
    | zero => exact ⟨piece :: sock, rfl, rfl, hempty⟩
    | succ n =>
      rw [List.mem_cons, not_or] at hempty
      rw [readExact, if_neg (Ne.symm hempty.1), List.flatten_cons]
      split_ifs with hlt
      · -- More has arrived than is read.
        rw [List.take_append_of_le_length hlt.le, List.drop_append_of_le_length hlt.le]
        exact ⟨_, rfl, rfl, by simpa using ⟨hlt, hempty.2⟩⟩
      · have hlen : n + 1 - piece.length ≤ sock.flatten.length := by
          rw [List.flatten_cons, List.length_append] at hn
          omega
        obtain ⟨sock', hread, hrest⟩ := ih hempty.2 hlen
        refine ⟨sock', ?_, ?_⟩
        · rw [hread, Option.map_some, List.take_append, List.take_of_length_le (not_lt.mp hlt)]
        · rwa [List.drop_append, List.drop_eq_nil_of_le (not_lt.mp hlt), List.nil_append]

/-- What is read of a packet: as much as its header tells. -/
theorem readPacket_yields (h : Yields sock (writePacket packet ++ rest)) :
    let told := packet.payload.length % 16777216
    ∃ sock', readPacket sock = some (⟨packet.seq, packet.payload.take told⟩, sock') ∧
      Yields sock' (packet.payload.drop told ++ rest) := by
  intro told
  have hbytes : writePacket packet ++ rest =
      leBytes 3 packet.payload.length ++ [packet.seq] ++ (packet.payload ++ rest) := by
    simp [writePacket]
  have hheader : (leBytes 3 packet.payload.length ++ [packet.seq]).length = 4 := by simp
  have htold : leNat (leBytes 3 packet.payload.length) = told := by
    simp only [leBytes, leNat, Fin.val_ofNat, told]
    omega
  have hle : told ≤ packet.payload.length := Nat.mod_le _ _
  rw [hbytes] at h
  obtain ⟨sock₁, hread₁, h₁⟩ := readExact_yields h (n := 4) (by simp; omega)
  rw [← hheader, List.drop_left] at h₁
  obtain ⟨sock₂, hread₂, h₂⟩ := readExact_yields h₁ (n := told) (by simp; omega)
  rw [List.take_append_of_le_length hle] at hread₂
  rw [List.drop_append_of_le_length hle] at h₂
  refine ⟨sock₂, ?_, h₂⟩
  rw [readPacket, hread₁, ← hheader, List.take_left]
  simp [htold, hread₂]

theorem readPacket_short (h : Yields sock (writePacket packet ++ rest))
    (hshort : packet.payload.length < 16777216) :
    ∃ sock', readPacket sock = some (packet, sock') ∧ Yields sock' rest := by
  obtain ⟨sock₁, hread, h₁⟩ := readPacket_yields h
  rw [Nat.mod_eq_of_lt hshort, List.take_length] at hread
  rw [Nat.mod_eq_of_lt hshort, List.drop_length, List.nil_append] at h₁
  exact ⟨sock₁, hread, h₁⟩

/-- A packet is read as it was written, and what is behind it left, if and only if its payload is
shorter than 16 MiB. -/
theorem readPacket_iff (h : Yields sock (writePacket packet ++ rest)) :
    (∃ sock', readPacket sock = some (packet, sock') ∧ Yields sock' rest) ↔
      packet.payload.length < 16777216 := by
  refine ⟨?_, readPacket_short h⟩
  rintro ⟨sock', hsome, -⟩
  obtain ⟨sock₁, hread, -⟩ := readPacket_yields h
  rw [hread] at hsome
  have htake := congrArg (fun read => read.map fun read => read.1.payload.length) hsome
  simp at htake
  omega

theorem readPacket_iff_empty : (∃ sock', readPacket [[0, 0], [0, 5, 1]] = some (⟨5, []⟩, sock') ∧
    Yields sock' [1]) ↔ ([] : Bytes).length < 16777216 :=
  readPacket_iff ⟨by decide, by decide⟩

/-! ### Results -/

theorem readUntilEof_yields (payloads more : List Bytes) {fuel : ℕ} {seq : Byte}
    (hfuel : payloads.length < fuel)
    (hread : ∀ payload ∈ payloads, payload.length < 16777216 ∧ ¬ isEof payload)
    (h : Yields sock (sendAll seq (payloads ++ eofPkt :: more) ++ rest)) :
    ∃ seq' sock', readUntilEof fuel seq sock = some (payloads, seq', sock') ∧
      Yields sock' (sendAll seq' more ++ rest) := by
  induction payloads generalizing fuel seq sock with
  | nil =>
    obtain ⟨fuel, rfl⟩ := Nat.exists_eq_succ_of_ne_zero (Nat.ne_zero_of_lt hfuel)
    rw [List.nil_append, sendAll, List.append_assoc] at h
    obtain ⟨sock₁, hpacket, h₁⟩ := readPacket_yields h
    exact ⟨seq + 1, sock₁, by simp [readUntilEof, hpacket, eofPkt, isEof], h₁⟩
  | cons payload payloads ih =>
    obtain ⟨fuel, rfl⟩ := Nat.exists_eq_succ_of_ne_zero (Nat.ne_zero_of_lt hfuel)
    obtain ⟨⟨hshort, heof⟩, hread⟩ := List.forall_mem_cons.mp hread
    rw [List.cons_append, sendAll, List.append_assoc] at h
    obtain ⟨sock₁, hpacket, h₁⟩ := readPacket_short h hshort
    obtain ⟨seq', sock', hrest, h'⟩ := ih (Nat.lt_of_succ_lt_succ hfuel) hread h₁
    refine ⟨seq', sock', ?_, h'⟩
    simp [readUntilEof, hpacket, heof, hrest]

theorem head_lenenc {n : ℕ} (h : n < 16777216) (rest : Bytes) :
    (lenenc n ++ rest).head? ≠ some 0xFB ∧ (lenenc n ++ rest).head? ≠ some 0xFE := by
  rw [lenenc]
  split_ifs <;> simp [leBytes, Fin.ext_iff]
  omega

theorem readCells_flatMap (vs : List Bytes) (h : (vs.flatMap cell).length < 16777216) :
    readCells vs.length (vs.flatMap cell) =
      some (vs.map fun v => if v = nullText then none else some v) := by
  induction vs with
  | nil => rfl
  | cons v vs ih =>
    rw [List.flatMap_cons, List.length_append] at h
    have ih := ih (by omega)
    rw [List.length_cons, readCells, List.flatMap_cons, List.map_cons]
    by_cases hnull : v = nullText
    · simp [cell, hnull, ih]
    · rw [cell, if_neg hnull, lenstr] at h ⊢
      have hshort : v.length < 16777216 := by
        rw [List.length_append] at h
        omega
      rw [List.append_assoc, if_neg (head_lenenc hshort _).1, readLenenc_lenenc hshort]
      simp [ih, ← List.drop_drop, hnull]

theorem not_isEof_rowPkt (cols : ℕ) (row : List Bytes) (h : (rowPkt cols row).length < 16777216) :
    ¬ isEof (rowPkt cols row) := by
  intro heof
  have hhead := (of_decide_eq_true heof).1
  rw [rowPkt] at h hhead
  cases hcells : cells cols row with
  | nil => simp [hcells] at hhead
  | cons v vs =>
    rw [hcells, List.flatMap_cons, cell] at h hhead
    split_ifs at h hhead
    · exact absurd hhead (by simp)
    · rw [lenstr, List.append_assoc] at hhead
      simp only [lenstr, List.length_append] at h
      exact (head_lenenc (by omega) _).2 hhead

/-- However a result arrives, its columns and rows are read as they were sent, with no value for a
text `NULL`, if no payload has 16 MiB. -/
theorem readResultset_sent (cols : List Column) (rows : List (List Bytes)) (seq : Byte) {fuel : ℕ}
    (hcols : ∀ col ∈ cols, (colDefPkt col).length < 16777216)
    (hrows : ∀ row ∈ rows, (rowPkt cols.length row).length < 16777216)
    (hfuel : cols.length < fuel ∧ rows.length < fuel)
    (h : Yields sock (sendResultset cols rows seq ++ rest)) :
    ∃ sock', readResultset fuel sock = some (cols.map colDefPkt,
      rows.map fun row => some ((cells cols.length row).map fun v =>
        if v = nullText then none else some v), sock') ∧ Yields sock' rest := by
  rw [sendResultset, sendAll, List.append_assoc] at h
  have hshort : (lenenc cols.length).length < 16777216 := by
    rw [lenenc]
    split_ifs <;> simp
  obtain ⟨sock₁, hcount, h₁⟩ := readPacket_short h hshort
  obtain ⟨seq₂, sock₂, hread₂, h₂⟩ := readUntilEof_yields _ _ (by simpa using hfuel.1)
    (List.forall_mem_map.mpr fun col hcol => ⟨hcols col hcol, by
      simp [isEof, colDefPkt, lenstr, lenenc, leBytes]⟩) h₁
  obtain ⟨seq₃, sock₃, hread₃, h₃⟩ := readUntilEof_yields _ [] (by simpa using hfuel.2)
    (List.forall_mem_map.mpr fun row hrow =>
      ⟨hrows row hrow, not_isEof_rowPkt _ _ (hrows row hrow)⟩)
    h₂
  refine ⟨sock₃, ?_, h₃⟩
  have hrow : ∀ row ∈ rows, readCells cols.length (rowPkt cols.length row) =
      some ((cells cols.length row).map fun v => if v = nullText then none else some v) := by
    intro row hrow
    have hread := readCells_flatMap (cells cols.length row) (hrows row hrow)
    rwa [cells, List.length_map, List.length_range] at hread
  rw [readResultset, hcount]
  simpa [hread₂, hread₃] using hrow

theorem readResultset_sent_null :
    ∃ sock', readResultset 2 [sendResultset [⟨[0x61], false, ⟨0xFD, 0, 0, 0⟩⟩] [[nullText]] 1] =
      some ([colDefPkt ⟨[0x61], false, ⟨0xFD, 0, 0, 0⟩⟩], [some [none]], sock') ∧
        Yields sock' [] :=
  readResultset_sent [⟨[0x61], false, ⟨0xFD, 0, 0, 0⟩⟩] [[nullText]] 1 (by decide) (by decide)
    (by decide) ⟨by decide, by decide⟩

end RusqlEngine.Packets
