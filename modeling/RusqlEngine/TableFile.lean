import RusqlEngine.RowJsonRoundTrip

/-!
# Table files

`save_table` writes the JSON text of each row behind its length, compresses the whole and puts a
page header in front. `load_rdb` takes this apart again. Lengths go through 32-bit fields and
through `int`. Every read from a buffer is one that could lie outside of it. LZ4 is a parameter.
-/

namespace RusqlEngine

open RowJson Buffer

/-- `static_cast<std::uint32_t>`. -/
def toUInt32 (n : ℕ) : ℕ :=
  n % 4294967296

/-- `static_cast<int>`. -/
def toInt32 (n : ℕ) : ℤ :=
  if n % 4294967296 < 2147483648 then (n % 4294967296 : ℕ)
  else ((n % 4294967296 : ℕ) : ℤ) - 4294967296

def pushLe16 (v : ℕ) : Bytes :=
  [Fin.ofNat 256 v, Fin.ofNat 256 (v / 256)]

def pushLe32 (v : ℕ) : Bytes :=
  [Fin.ofNat 256 v, Fin.ofNat 256 (v / 256), Fin.ofNat 256 (v / 65536),
    Fin.ofNat 256 (v / 16777216)]

def readLe16 (buf : Bytes) (i : ℕ) : Reading ℕ :=
  match buf.drop i with
  | b₀ :: b₁ :: _ => .ok (b₀.val + b₁.val * 256)
  | _ => .error .outside

def readLe32 (buf : Bytes) (i : ℕ) : Reading ℕ :=
  match buf.drop i with
  | b₀ :: b₁ :: b₂ :: b₃ :: _ =>
    .ok (b₀.val + b₁.val * 256 + b₂.val * 65536 + b₃.val * 16777216)
  | _ => .error .outside

/-- The bytes of `"RDB\0"`. -/
def pageMagic : ℕ :=
  0x52444200

def pageSize : ℕ :=
  16384

structure PageHeader where
  magic : ℕ
  version : ℕ
  flags : ℕ
  rowCount : ℕ
  pageCount : ℕ
deriving DecidableEq

namespace PageHeader

def toBytes (header : PageHeader) : Bytes :=
  pushLe32 header.magic ++ pushLe16 header.version ++ [Fin.ofNat 256 header.flags, 0] ++
    pushLe32 header.rowCount ++ pushLe32 header.pageCount ++ List.replicate 16 0

def fromBytes (buf : Bytes) (len : ℕ) : Reading (Option PageHeader) :=
  if len < 32 then .ok none
  else do
    let magic ← readLe32 buf 0
    if magic ≠ pageMagic then .ok none
    else do
      let version ← readLe16 buf 4
      let flags ← readAt buf 6
      let rowCount ← readLe32 buf 8
      let pageCount ← readLe32 buf 12
      .ok (some ⟨magic, version, flags.val, rowCount, pageCount⟩)

def isCompressed (header : PageHeader) : Bool :=
  header.flags % 2 = 1

end PageHeader

def lz4MaxInputSize : ℕ :=
  0x7E000000

def lz4CompressBound (size : ℤ) : ℤ :=
  if size < 0 ∨ (lz4MaxInputSize : ℤ) < size then 0 else size + size / 255 + 16

/-- The two functions of LZ4. -/
structure Lz4 where
  /-- What `LZ4_compress_default` writes for a source of this size and a capacity; nothing when it
  fails. -/
  compressDefault : Bytes → ℤ → ℤ → Bytes
  /-- What `LZ4_decompress_safe` writes; none when it answers a negative number. -/
  decompressSafe : Bytes → ℤ → ℤ → Option Bytes

/-- What LZ4 promises. -/
structure Lz4.Lawful (lz4 : Lz4) : Prop where
  /-- With room for the bound a source that is not too large is compressed, and
  `LZ4_decompress_safe` undoes it. -/
  roundTrip : ∀ raw : Bytes, raw.length ≤ lz4MaxInputSize →
    lz4.decompressSafe
      (lz4.compressDefault raw raw.length (lz4CompressBound raw.length))
      (lz4.compressDefault raw raw.length (lz4CompressBound raw.length)).length raw.length =
      some raw
  /-- No more is written than there is room for. -/
  capacity : ∀ raw size room, ((lz4.compressDefault raw size room).length : ℤ) ≤ max room 0
  /-- An empty block is malformed. -/
  emptyBlock : ∀ room, lz4.decompressSafe [] 0 room = none

/-- What nlohmann promises: a text it reads as a row is no shorter than the one it would dump. -/
structure Nlohmann.Lawful (json : Nlohmann) : Prop where
  parseShort : ∀ row text text', json.parse text' = some row → rowToJson json row = some text →
    text.length ≤ text'.length

def lz4CompressPrependSize (lz4 : Lz4) (raw : Bytes) : Bytes :=
  pushLe32 (toUInt32 raw.length) ++
    lz4.compressDefault raw (toInt32 raw.length) (lz4CompressBound (toInt32 raw.length))

def lz4DecompressSizePrepended (lz4 : Lz4) (data : Bytes) : Reading (Option Bytes) :=
  if data.length < 4 then .ok none
  else do
    let origSize ← readLe32 data 0
    if origSize = 0 then .ok (some [])
    else if (data.length - 4 : ℕ) < toInt32 (data.length - 4) then .error .outside
    else
      match lz4.decompressSafe (data.drop 4) (toInt32 (data.length - 4)) (toInt32 origSize) with
      | none => .ok none
      | some out => .ok (if out.length = origSize then some out else none)

/-- The rows one after the other, each behind its length; none when a row is no JSON text. -/
def rawRows (json : Nlohmann) : List ByteRow → Option Bytes
  | [] => some []
  | row :: rows =>
    (rowToJson json row).bind fun text =>
      (rawRows json rows).map fun raw => pushLe32 (toUInt32 text.length) ++ text ++ raw

/-- What `save_table` writes to the file; none when it throws. -/
def saveTable (json : Nlohmann) (lz4 : Lz4) (rows : List ByteRow) : Option Bytes :=
  (rawRows json rows).map fun raw =>
    let compressed := lz4CompressPrependSize lz4 raw
    let header : PageHeader :=
      { magic := pageMagic
        version := 1
        flags := 1
        rowCount := toUInt32 rows.length
        pageCount := toUInt32 (max ((compressed.length + pageSize - 1) / pageSize) 1) }
    header.toBytes ++ compressed

/-- The loop of `load_rdb`; a row that is no JSON text is left out. -/
def loadRows (json : Nlohmann) (raw : Bytes) : ℕ → ℕ → Reading (List ByteRow)
  | 0, _ => .ok []
  | rowCount + 1, pos =>
    if raw.length < pos + 4 then .ok []
    else do
      let len ← readLe32 raw pos
      if raw.length < pos + 4 + len then .ok []
      else do
        let text ← readSlice raw (pos + 4) len
        let rows ← loadRows json raw rowCount (pos + 4 + len)
        .ok (match rowFromJson json text with
          | some row => row :: rows
          | none => rows)

/-- `load_rdb` of a file with these contents. -/
def loadRdb (json : Nlohmann) (lz4 : Lz4) (buf : Bytes) : Reading (List ByteRow) :=
  if buf.length < 32 then .ok []
  else do
    match ← PageHeader.fromBytes buf 32 with
    | none => .ok []
    | some header =>
      if header.isCompressed then do
        match ← lz4DecompressSizePrepended lz4 (buf.drop 32) with
        | none => .ok []
        | some raw => loadRows json raw header.rowCount 0
      else loadRows json (buf.drop 32) header.rowCount 0

def storedSize (json : Nlohmann) (rows : List ByteRow) : ℕ :=
  (rows.map fun row => 4 + ((rowToJson json row).getD []).length).sum

/-- The rows are read back from the file, or no file is written. -/
def ReadsBackOrRefused (json : Nlohmann) (lz4 : Lz4) (rows : List ByteRow) : Prop :=
  ∀ file, saveTable json lz4 rows = some file → loadRdb json lz4 file = .ok rows

end RusqlEngine
