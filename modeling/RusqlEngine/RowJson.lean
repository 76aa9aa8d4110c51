import RusqlEngine.Library.Buffer
import Mathlib.Data.Finmap
import Mathlib.Data.Finset.Sort

/-!
# The JSON text of a row

`row_to_json` writes a row as one object of strings, its keys in ascending order. `row_from_json`
reads such an object itself and leaves every other text to nlohmann, whose two functions are
parameters here. Strings are strings of bytes.
-/

namespace RusqlEngine

open Buffer

/-- `Row`, with its keys and values as bytes. -/
abbrev ByteRow := Finmap fun _ : Bytes => Bytes

namespace RowJson

/-- What is left to nlohmann; without a result it throws. -/
structure Nlohmann where
  /-- What `nlohmann::json(s).dump()` writes. -/
  dump : Bytes → Option Bytes
  /-- What `nlohmann::json::parse(text).get<Row>()` reads. -/
  parse : Bytes → Option ByteRow

/-- The ranges of the bytes that follow a lead byte; none for a byte that leads no sequence. -/
def continuations (b : Byte) : Option (List (Byte × Byte)) :=
  if 0xC2 ≤ b ∧ b ≤ 0xDF then some [(0x80, 0xBF)]
  else if b = 0xE0 then some [(0xA0, 0xBF), (0x80, 0xBF)]
  else if b = 0xED then some [(0x80, 0x9F), (0x80, 0xBF)]
  else if (0xE1 ≤ b ∧ b ≤ 0xEC) ∨ b = 0xEE ∨ b = 0xEF then some [(0x80, 0xBF), (0x80, 0xBF)]
  else if b = 0xF0 then some [(0x90, 0xBF), (0x80, 0xBF), (0x80, 0xBF)]
  else if 0xF1 ≤ b ∧ b ≤ 0xF3 then some [(0x80, 0xBF), (0x80, 0xBF), (0x80, 0xBF)]
  else if b = 0xF4 then some [(0x80, 0x8F), (0x80, 0xBF), (0x80, 0xBF)]
  else none

def continued : List (Byte × Byte) → Bytes → Bool
  | [], _ => true
  | _ :: _, [] => false
  | (lo, hi) :: ranges, b :: s => lo ≤ b && b ≤ hi && continued ranges s

/-- `utf8_sequence_length` of the text that begins with this lead byte. -/
def utf8SequenceLength (b : Byte) (s : Bytes) : ℕ :=
  match continuations b with
  | none => 0
  | some ranges => if continued ranges s then ranges.length + 1 else 0

def quote : Byte := 0x22

def backslash : Byte := 0x5C

/-- The digit `"0123456789abcdef"[d]`. -/
def hexDigit (d : ℕ) : Byte :=
  Fin.ofNat 256 (if d < 10 then 0x30 + d else 0x57 + d)

/-- The bytes that are written as a backslash and a letter. -/
def escapeLetter (c : Byte) : Option Byte :=
  if c = quote then some quote
  else if c = backslash then some backslash
  else if c = 0x08 then some 0x62
  else if c = 0x0C then some 0x66
  else if c = 0x0A then some 0x6E
  else if c = 0x0D then some 0x72
  else if c = 0x09 then some 0x74
  else none

/-- What `append_json_string` writes for a byte below `0x80`. -/
def escape (c : Byte) : Bytes :=
  match escapeLetter c with
  | some e => [backslash, e]
  | none =>
    if c < 0x20 then
      [backslash, 0x75, 0x30, 0x30, hexDigit (c.val / 16), hexDigit (c.val % 16)]
    else [c]

/-- The text between the quotes; `k` bytes of a sequence are still to be copied. None where the
bytes are no valid UTF-8. -/
def stringBody : ℕ → Bytes → Option Bytes
  | _, [] => some []
  | k + 1, c :: s => (stringBody k s).map (c :: ·)
  | 0, c :: s =>
    if c < 0x80 then (stringBody 0 s).map (escape c ++ ·)
    else
      match utf8SequenceLength c s with
      | 0 => none
      | k + 1 => (stringBody k s).map (c :: ·)

/-- `append_json_string`. -/
def jsonString (json : Nlohmann) (s : Bytes) : Option Bytes :=
  match stringBody 0 s with
  | some body => some (quote :: body ++ [quote])
  | none => json.dump s

/-- The members between the braces. -/
def membersText (json : Nlohmann) : List (Bytes × Bytes) → Option Bytes
  | [] => some []
  | [(key, value)] =>
    (jsonString json key).bind fun k => (jsonString json value).map fun v => k ++ 0x3A :: v
  | (key, value) :: member :: members =>
    (jsonString json key).bind fun k => (jsonString json value).bind fun v =>
      (membersText json (member :: members)).map fun rest => k ++ 0x3A :: v ++ 0x2C :: rest

def sortedCells (row : ByteRow) : List (Bytes × Bytes) :=
  (row.keys.sort (· ≤ ·)).map fun key => (key, (row.lookup key).getD [])

def rowToJson (json : Nlohmann) (row : ByteRow) : Option Bytes :=
  (membersText json (sortedCells row)).map fun members => 0x7B :: members ++ [0x7D]

def skipWs : Bytes → Bytes
  | [] => []
  | c :: s => if c = 0x20 ∨ c = 0x09 ∨ c = 0x0A ∨ c = 0x0D then skipWs s else c :: s

def hexValue (c : Byte) : Option ℕ :=
  if 0x30 ≤ c ∧ c ≤ 0x39 then some (c.val - 0x30)
  else if 0x61 ≤ c ∧ c ≤ 0x66 then some (c.val - 0x61 + 10)
  else if 0x41 ≤ c ∧ c ≤ 0x46 then some (c.val - 0x41 + 10)
  else none

def readHex4 (a b c d : Byte) : Option ℕ :=
  (hexValue a).bind fun a => (hexValue b).bind fun b => (hexValue c).bind fun c =>
    (hexValue d).map fun d => ((a * 16 + b) * 16 + c) * 16 + d

/-- `append_utf8`; the bits that are joined do not overlap. -/
def utf8Bytes (cp : ℕ) : Bytes :=
  if cp < 0x80 then [Fin.ofNat 256 cp]
  else if cp < 0x800 then [Fin.ofNat 256 (0xC0 + cp / 64), Fin.ofNat 256 (0x80 + cp % 64)]
  else if cp < 0x10000 then
    [Fin.ofNat 256 (0xE0 + cp / 4096), Fin.ofNat 256 (0x80 + cp / 64 % 64),
      Fin.ofNat 256 (0x80 + cp % 64)]
  else
    [Fin.ofNat 256 (0xF0 + cp / 262144), Fin.ofNat 256 (0x80 + cp / 4096 % 64),
      Fin.ofNat 256 (0x80 + cp / 64 % 64), Fin.ofNat 256 (0x80 + cp % 64)]

/-- The escapes of one letter. -/
def letterEscape (e : Byte) : Option Byte :=
  if e = quote then some quote
  else if e = backslash then some backslash
  else if e = 0x2F then some 0x2F
  else if e = 0x62 then some 0x08
  else if e = 0x66 then some 0x0C
  else if e = 0x6E then some 0x0A
  else if e = 0x72 then some 0x0D
  else if e = 0x74 then some 0x09
  else none

def prepend (bytes : Bytes) (read : Bytes × Bytes) : Bytes × Bytes :=
  (bytes ++ read.1, read.2)

/-- The low half of a pair that begins here. -/
def lowSurrogate : Bytes → Option ℕ
  | x :: y :: a :: b :: c :: d :: _ =>
    if x = backslash ∧ y = 0x75 then
      (readHex4 a b c d).filter fun lo => 0xDC00 ≤ lo ∧ lo ≤ 0xDFFF
    else none
  | _ => none

/-- What stands behind `\u`: the bytes it is read as, and how many bytes the escape has behind the
backslash. -/
def readUnicode : Bytes → Option (Bytes × ℕ)
  | a :: b :: c :: d :: s =>
    match readHex4 a b c d with
    | none => none
    | some cp =>
      if 0xD800 ≤ cp ∧ cp ≤ 0xDBFF then
        (lowSurrogate s).map fun lo =>
          (utf8Bytes (0x10000 + (cp - 0xD800) * 1024 + (lo - 0xDC00)), 11)
      else if 0xDC00 ≤ cp ∧ cp ≤ 0xDFFF then none
      else some (utf8Bytes cp, 5)
  | _ => none

/-- What stands behind a backslash. -/
def readEscape : Bytes → Option (Bytes × ℕ)
  | [] => none
  | e :: s =>
    match letterEscape e with
    | some b => some ([b], 1)
    | none => if e = 0x75 then readUnicode s else none

/-- `read_json_string` behind the opening quote: the value and what follows. `skip` bytes of an
escape are still to be passed, or `copy` bytes of a sequence to be copied. None is `kNpos`. -/
def readString : ℕ → ℕ → Bytes → Option (Bytes × Bytes)
  | _, _, [] => none
  | skip + 1, copy, _ :: s => readString skip copy s
  | 0, copy + 1, c :: s => (readString 0 copy s).map (prepend [c])
  | 0, 0, c :: s =>
    if c = quote then some ([], s)
    else if c = backslash then
      match readEscape s with
      | none => none
      | some (bytes, skip) => (readString skip 0 s).map (prepend bytes)
    else if c < 0x20 then none
    else if c < 0x80 then (readString 0 0 s).map (prepend [c])
    else
      match utf8SequenceLength c s with
      | 0 => none
      | copy + 1 => (readString 0 copy s).map (prepend [c])

/-- The loop of `read_flat_object`, which meets no more members than the text has bytes. -/
def readMembers : ℕ → Option Bytes → Bytes → Option (List (Bytes × Bytes) × Bytes)
  | 0, _, _ => none
  | fuel + 1, prev, s =>
    match s with
    | [] => none
    | c :: s =>
      if c = quote then
        (readString 0 0 s).bind fun (key, s) =>
          if prev.all fun before => decide (before < key) then
            match skipWs s with
            | [] => none
            | c :: s =>
              if c = 0x3A then
                match skipWs s with
                | [] => none
                | c :: s =>
                  if c = quote then
                    (readString 0 0 s).bind fun (value, s) =>
                      match skipWs s with
                      | [] => none
                      | c :: s =>
                        if c = 0x7D then some ([(key, value)], s)
                        else if c = 0x2C then
                          (readMembers fuel (some key) (skipWs s)).map
                            fun (members, s) => ((key, value) :: members, s)
                        else none
                  else none
              else none
          else none
      else none

def ofMembers (members : List (Bytes × Bytes)) : ByteRow :=
  members.foldl (fun row member => row.insert member.1 member.2) ∅

/-- `read_flat_object` behind the opening brace. -/
def readFlatObject (s : Bytes) : Option (ByteRow × Bytes) :=
  match skipWs s with
  | [] => none
  | c :: s =>
    if c = 0x7D then some (∅, s)
    else
      (readMembers (s.length + 1) none (c :: s)).map fun (members, s) => (ofMembers members, s)

def rowFromJson (json : Nlohmann) (text : Bytes) : Option ByteRow :=
  match skipWs text with
  | [] => json.parse text
  | c :: s =>
    if c = 0x7B then
      match readFlatObject s with
      | some (row, rest) => if skipWs rest = [] then some row else json.parse text
      | none => json.parse text
    else json.parse text

end RowJson

end RusqlEngine
