import RusqlEngine.Library.DigitText
import Mathlib.Data.Fintype.Basic

/-!
# Parameters of a statement that is executed

`parse_execute_params` takes the parameters out of a `COM_STMT_EXECUTE` payload and answers the
text of each. Every read from the payload is one that could lie outside of it. Beside it stands
how the protocol writes the parameters.
-/

namespace RusqlEngine.ExecuteParams

open Buffer DigitText

/-- How `fmt_double_param` writes the pattern of a float, widened, and of a double. -/
structure DoubleText where
  ofFloat : ℕ → Bytes
  ofDouble : ℕ → Bytes

/-- The text `NULL`. -/
def nullText : Bytes :=
  [0x4E, 0x55, 0x4C, 0x4C]

def apostrophe : Byte :=
  0x27

/-- An unsigned number of `bits` bits, read as a signed one. -/
def asSigned (bits n : ℕ) : ℤ :=
  if n < 2 ^ (bits - 1) then n else n - 2 ^ bits

/-- A date written with `%04u-%02u-%02u`. -/
def dateDigits (year month day : ℕ) : Bytes :=
  padded 4 year ++ 0x2D :: (padded 2 month ++ 0x2D :: padded 2 day)

/-- A time written with `%02u:%02u:%02u`. -/
def timeDigits (hour minute second : ℕ) : Bytes :=
  padded 2 hour ++ 0x3A :: (padded 2 minute ++
    0x3A :: padded 2 second)

def quoted (text : Bytes) : Bytes :=
  apostrophe :: text ++ [apostrophe]

def escaped (s : Bytes) : Bytes :=
  s.flatMap fun c => if c = apostrophe then [apostrophe, apostrophe] else [c]

/-- `read_lenenc`: the length, and how many bytes it takes. -/
def readLenenc (buf : Bytes) (len : ℕ) : Reading (ℕ × ℕ) :=
  if len = 0 then .ok (0, 1)
  else do
    let b ← readAt buf 0
    if b < 251 then .ok (b.val, 1)
    else if b = 0xFC ∧ 3 ≤ len then do
      let b₁ ← readAt buf 1
      let b₂ ← readAt buf 2
      .ok (b₁.val + b₂.val * 256, 3)
    else if b = 0xFD ∧ 4 ≤ len then do
      let b₁ ← readAt buf 1
      let b₂ ← readAt buf 2
      let b₃ ← readAt buf 3
      .ok (b₁.val + b₂.val * 256 + b₃.val * 65536, 4)
    else .ok (0, 1)

section

variable (doubles : DoubleText) (payload : Bytes)

/-- `pos < payload.size() ? payload[pos] : otherwise` -/
def byteOr (otherwise : Byte) (pos : ℕ) : Reading Byte :=
  if pos < payload.length then readAt payload pos else .ok otherwise

/-- A value of so many bytes; where they are not there, nothing is read any more. -/
def readFixed (size : ℕ) (text : Bytes → Bytes) (pos : ℕ) : Reading (Bytes × ℕ) :=
  if payload.length < pos + size then .ok (nullText, payload.length)
  else do
    let bytes ← readSlice payload pos size
    .ok (text bytes, pos + size)

def dateOf : Bytes → Bytes
  | y₀ :: y₁ :: month :: day :: _ => dateDigits (y₀.val + y₁.val * 256) month.val day.val
  | _ => []

def timeOf : Bytes → Bytes
  | hour :: minute :: second :: _ => timeDigits hour.val minute.val second.val
  | _ => []

/-- DATETIME / TIMESTAMP: the fields that are not there are zero. -/
def readDatetime (pos : ℕ) : Reading (Bytes × ℕ) := do
  let dlen ← byteOr payload 0 pos
  let pos := pos + 1
  if 4 ≤ dlen ∧ pos + 4 ≤ payload.length then do
    let date ← readSlice payload pos 4
    let time ← if 7 ≤ dlen ∧ pos + 7 ≤ payload.length then readSlice payload (pos + 4) 3
      else .ok [0, 0, 0]
    .ok (quoted (dateOf date ++ 0x20 :: timeOf time), pos + dlen.val)
  else .ok (nullText, pos + dlen.val)

/-- VAR_STRING / BLOB / default. -/
def readText (pos : ℕ) : Reading (Bytes × ℕ) :=
  if payload.length ≤ pos then .ok (nullText, pos)
  else do
    let (slen, nbytes) ← readLenenc (payload.drop pos) (payload.length - pos)
    let pos := pos + nbytes
    if payload.length < pos + slen then .ok (nullText, pos)
    else do
      let s ← readSlice payload pos slen
      .ok (quoted (escaped s), pos + slen)

/-- The `switch` over the type: the text of the value, and the position behind it. -/
def readValue (ft : Byte) (pos : ℕ) : Reading (Bytes × ℕ) :=
  if ft = 0x01 then do
    let b ← byteOr payload 0 pos
    .ok (signed (asSigned 8 b.val), pos + 1)
  else if ft = 0x02 then
    readFixed payload 2 (fun bytes => signed (asSigned 16 (leNat bytes))) pos
  else if ft = 0x03 ∨ ft = 0x09 then
    readFixed payload 4 (fun bytes => signed (asSigned 32 (leNat bytes))) pos
  else if ft = 0x08 ∨ ft = 0x10 then
    readFixed payload 8 (fun bytes => signed (asSigned 64 (leNat bytes))) pos
  else if ft = 0x04 then readFixed payload 4 (fun bytes => doubles.ofFloat (leNat bytes)) pos
  else if ft = 0x05 then readFixed payload 8 (fun bytes => doubles.ofDouble (leNat bytes)) pos
  else if ft = 0x0A then readFixed payload 4 (fun bytes => quoted (dateOf bytes)) pos
  else if ft = 0x0B ∨ ft = 0x0C then readDatetime payload pos
  else readText payload pos

/-- The types of `count` parameters, and the position behind them; the flag beside a type is read
and not used. -/
def readTypes : ℕ → ℕ → Reading (List Byte × ℕ)
  | 0, pos => .ok ([], pos)
  | count + 1, pos => do
      let ft ← byteOr payload 0xFD pos
      let _ ← byteOr payload 0 (pos + 1)
      let (types, pos) ← readTypes count (pos + 2)
      .ok (ft :: types, pos)

/-- The loop over the parameters from the `i`-th on. -/
def readParams : ℕ → List Byte → ℕ → Reading (List Bytes)
  | _, [], _ => .ok []
  | i, ft :: types, pos => do
      let bits ← readAt payload (9 + i / 8)
      if bits.val / 2 ^ (i % 8) % 2 = 1 then do
        let params ← readParams (i + 1) types pos
        .ok (nullText :: params)
      else do
        let (val, pos) ← readValue doubles payload ft pos
        let params ← readParams (i + 1) types pos
        .ok (val :: params)

def parseExecuteParams (numParams : ℕ) : Reading (List Bytes) :=
  if numParams = 0 then .ok []
  else if payload.length ≤ 9 then .ok (List.replicate numParams nullText)
  else if payload.length < 9 + (numParams + 7) / 8 then .ok (List.replicate numParams nullText)
  else do
    let pos := 9 + (numParams + 7) / 8
    let newParamsBound ← byteOr payload 0 pos
    let pos := pos + 1
    let (types, pos) ← if newParamsBound = 1 then readTypes payload numParams pos
      else .ok (List.replicate numParams 0xFD, pos)
    readParams doubles payload 0 types pos

end

/-- The integer types, by their bytes in the type block. -/
inductive IntType
  | tiny
  | short
  | long
  | int24
  | longlong
deriving DecidableEq

def IntType.code : IntType → Byte
  | .tiny => 0x01
  | .short => 0x02
  | .long => 0x03
  | .int24 => 0x09
  | .longlong => 0x08

def IntType.size : IntType → ℕ
  | .tiny => 1
  | .short => 2
  | .long => 4
  | .int24 => 4
  | .longlong => 8

/-- The types of strings and BLOBs. -/
inductive StringType
  | varchar
  | varString
  | string
  | tinyBlob
  | mediumBlob
  | longBlob
  | blob
deriving DecidableEq

def StringType.code : StringType → Byte
  | .varchar => 0x0F
  | .varString => 0xFD
  | .string => 0xFE
  | .tinyBlob => 0xF9
  | .mediumBlob => 0xFA
  | .longBlob => 0xFB
  | .blob => 0xFC

structure Date where
  year : Fin 65536
  month : Byte
  day : Byte
deriving DecidableEq

structure Clock where
  hour : Byte
  minute : Byte
  second : Byte
deriving DecidableEq

structure Datetime where
  date : Date
  clock : Clock
  microsecond : Fin 4294967296
deriving DecidableEq

structure Time where
  negative : Bool
  days : Fin 4294967296
  clock : Clock
  microsecond : Fin 4294967296
deriving DecidableEq

/-- A parameter of one of the types, with its value. -/
inductive Param
  | null (type flag : Byte)
  | int (type : IntType) (isUnsigned : Bool) (bits : Fin (256 ^ type.size))
  | float (bits : Fin (2 ^ 32))
  | double (bits : Fin (2 ^ 64))
  | date (d : Date)
  | datetime (t : Datetime)
  | timestamp (t : Datetime)
  | time (t : Time)
  | string (type : StringType) (s : Bytes)

def Date.zero : Date :=
  ⟨0, 0, 0⟩

def Clock.zero : Clock :=
  ⟨0, 0, 0⟩

def Date.toBytes (d : Date) : Bytes :=
  leBytes 2 d.year ++ [d.month, d.day]

def Clock.toBytes (c : Clock) : Bytes :=
  [c.hour, c.minute, c.second]

def Date.encode (d : Date) : Bytes :=
  if d = .zero then [0] else 4 :: d.toBytes

/-- A date and a time of day with their length; what is zero at the end is left out. -/
def Datetime.encode (t : Datetime) : Bytes :=
  if t.microsecond ≠ 0 then 11 :: (t.date.toBytes ++ t.clock.toBytes ++ leBytes 4 t.microsecond)
  else if t.clock ≠ .zero then 7 :: (t.date.toBytes ++ t.clock.toBytes)
  else if t.date ≠ .zero then 4 :: t.date.toBytes
  else [0]

/-- A time with its length; what is zero at the end is left out. -/
def Time.encode (t : Time) : Bytes :=
  let sign : Byte := if t.negative then 1 else 0
  if t.microsecond ≠ 0 then
    12 :: sign :: (leBytes 4 t.days ++ t.clock.toBytes ++ leBytes 4 t.microsecond)
  else if t.days ≠ 0 ∨ t.clock ≠ .zero then
    8 :: sign :: (leBytes 4 t.days ++ t.clock.toBytes)
  else [0]

/-- A length-encoded integer. -/
def lenenc (n : ℕ) : Bytes :=
  if n < 251 then leBytes 1 n
  else if n < 65536 then 0xFC :: leBytes 2 n
  else if n < 16777216 then 0xFD :: leBytes 3 n
  else 0xFE :: leBytes 8 n

namespace Param

/-- The type of a parameter and the flag that says whether it is unsigned. -/
def typeBytes : Param → Bytes
  | null type flag => [type, flag]
  | int type isUnsigned _ => [type.code, if isUnsigned then 0x80 else 0]
  | float _ => [0x04, 0]
  | double _ => [0x05, 0]
  | date _ => [0x0A, 0]
  | datetime _ => [0x0C, 0]
  | timestamp _ => [0x07, 0]
  | time _ => [0x0B, 0]
  | string type _ => [type.code, 0]

/-- How a value is written; `NULL` stands in the bitmap only. -/
def encode : Param → Bytes
  | null _ _ => []
  | int type _ bits => leBytes type.size bits
  | float bits => leBytes 4 bits
  | double bits => leBytes 8 bits
  | date d => d.encode
  | datetime t => t.encode
  | timestamp t => t.encode
  | time t => t.encode
  | string _ s => lenenc s.length ++ s

def isNull : Param → Bool
  | null _ _ => true
  | _ => false

end Param

def fraction (microsecond : ℕ) : Bytes :=
  if microsecond = 0 then [] else 0x2E :: padded 6 microsecond

def Datetime.text (t : Datetime) : Bytes :=
  dateDigits t.date.year t.date.month t.date.day ++
    0x20 :: (timeDigits t.clock.hour t.clock.minute t.clock.second ++ fraction t.microsecond)

/-- Zero has no sign. -/
def Time.text (t : Time) : Bytes :=
  (if t.negative ∧ t.encode ≠ [0] then [0x2D] else []) ++
    (timeDigits (t.days * 24 + t.clock.hour) t.clock.minute t.clock.second ++
      fraction t.microsecond)

/-- The text of a value, as a literal of SQL. -/
def Param.literal (doubles : DoubleText) : Param → Bytes
  | null _ _ => nullText
  | int type isUnsigned bits =>
    signed (if isUnsigned then bits else asSigned (8 * type.size) bits)
  | float bits => doubles.ofFloat bits
  | double bits => doubles.ofDouble bits
  | date d => quoted (dateDigits d.year d.month d.day)
  | datetime t => quoted t.text
  | timestamp t => quoted t.text
  | time t => quoted t.text
  | string _ s => quoted (escaped s)

/-- Bit `k` says whether the `k`-th of at most eight parameters is `NULL`. -/
def bitmapByte : List Param → ℕ
  | [] => 0
  | p :: ps => (if p.isNull then 1 else 0) + 2 * bitmapByte ps

/-- The bitmap of `NULL`s, eight parameters to a byte. -/
def nullBitmap : ℕ → List Param → Bytes
  | 0, _ => []
  | size + 1, ps => Fin.ofNat 256 (bitmapByte (ps.take 8)) :: nullBitmap size (ps.drop 8)

/-- The start of a payload. -/
structure ExecuteHeader where
  statementId : Fin 4294967296
  flags : Byte
  iterationCount : Fin 4294967296

def ExecuteHeader.toBytes (header : ExecuteHeader) : Bytes :=
  leBytes 4 header.statementId ++ header.flags :: leBytes 4 header.iterationCount

/-- A payload with these parameters. The types are sent with the first execution only, or with
each. -/
def executePayload (header : ExecuteHeader) (typesSent : Bool) (params : List Param) : Bytes :=
  header.toBytes ++
    if params = [] then []
    else nullBitmap ((params.length + 7) / 8) params ++
      ((if typesSent then 1 :: params.flatMap Param.typeBytes else [0]) ++
        params.flatMap Param.encode)

end RusqlEngine.ExecuteParams
