import RusqlEngine.Library.Scan
import RusqlEngine.RedoLogFile
import RusqlEngine.TxnManager

/-!
# The records of the log files

A record of the WAL and of the undo log is an operation, a transaction, strings with their lengths
before them and a checksum of all that; the reader moves the position of its caller as it goes. The
redo log is read by batches.
-/

namespace RusqlEngine

open Buffer Scan RedoLogFile

/-- A `WalRecord`, its texts as bytes. -/
structure LoggedWalRecord where
  op : WalOp
  txnId : UInt64
  tableName : Bytes
  key : Bytes
  data : Bytes
deriving DecidableEq

/-- An `UndoEntry`, its texts as bytes; `newKey` is not written. -/
structure LoggedUndoEntry where
  txnId : UInt64
  operation : String
  table : Bytes
  key : Bytes
  oldData : Option Bytes
  newKey : Option Bytes
deriving DecidableEq

namespace WalFile

/-- The value of a `WalOp`. -/
def walOpToU8 : WalOp → Byte
  | .insert => 0x01
  | .update => 0x02
  | .delete => 0x03
  | .commit => 0xFF
  | .rollback => 0xFE
  | .checkpoint => 0xFD

def walOpFromU8 (v : Byte) : Option WalOp :=
  if v = 0x01 then some .insert
  else if v = 0x02 then some .update
  else if v = 0x03 then some .delete
  else if v = 0xFF then some .commit
  else if v = 0xFE then some .rollback
  else if v = 0xFD then some .checkpoint
  else none

/-- What the checksum covers. -/
def body (r : LoggedWalRecord) : Bytes :=
  [walOpToU8 r.op] ++ (leBytes 8 r.txnId.toNat ++ (putStr r.tableName ++
    (putStr r.key ++ putStr r.data)))

def encode (r : LoggedWalRecord) : Bytes :=
  body r ++ putU32 (fnv1a (body r))

/-- The fields of a record. -/
def fields : Scan LoggedWalRecord := do
  let op ← accept 1 fun bytes => bytes.head?.bind walOpFromU8
  let txnId ← u64
  let tableName ← string
  let key ← string
  let data ← string
  return ⟨op, txnId, tableName, key, data⟩

def decode : Scan LoggedWalRecord :=
  checked fnv1a fields

def Fits (r : LoggedWalRecord) : Prop :=
  r.tableName.length < 2 ^ 32 ∧ r.key.length < 2 ^ 32 ∧ r.data.length < 2 ^ 32

theorem walOpFromU8_walOpToU8 (op : WalOp) : walOpFromU8 (walOpToU8 op) = some op := by
  cases op <;> rfl

theorem keeps_fields : Keeps fields :=
  (keeps_accept 1 _).bind fun _ => keeps_u64.bind fun _ => keeps_string.bind fun _ =>
    keeps_string.bind fun _ => keeps_string.bind fun _ => keeps_pure _

theorem moves_fields : Moves fields :=
  (moves_accept Nat.one_pos _).bind (keeps_accept 1 _) fun _ => keeps_u64.bind fun _ =>
    keeps_string.bind fun _ => keeps_string.bind fun _ => keeps_string.bind fun _ => keeps_pure _

def reader : RecordReader LoggedWalRecord where
  read := decode
  keeps := keeps_fields.checked fnv1a
  moves := moves_fields.checked keeps_fields fnv1a

theorem fits_of_read : Yields Fits reader.read := by
  refine Yields.checked ?_ fnv1a
  refine (yields_any _).bind fun _ _ => (yields_any _).bind fun _ _ => ?_
  refine yields_string.bind fun _ htable => yields_string.bind fun _ hkey => ?_
  exact yields_string.bind fun _ hdata => yields_pure ⟨htable, hkey, hdata⟩

end WalFile

theorem putStr_eq {s : Bytes} (h : s.length < 2 ^ 32) : putStr s = leBytes 4 s.length ++ s := by
  rw [putStr, putU32, Nat.mod_eq_of_lt h]

theorem codes_putStr {s : Bytes} (h : s.length < 2 ^ 32) : Codes string (putStr s) s := by
  rw [putStr_eq h]
  exact codes_string h

theorem codes_summed {α : Type} {m : Scan α} {bytes : Bytes} {a : α} (h : Codes m bytes a) :
    Codes (checked fnv1a m) (bytes ++ putU32 (fnv1a bytes)) a := by
  rw [putU32, Nat.mod_eq_of_lt (fnv1a_lt bytes)]
  exact h.checked (fnv1a_lt bytes)

namespace WalFile

theorem codes_fields {r : LoggedWalRecord} (h : Fits r) : Codes fields (body r) r := by
  obtain ⟨htable, hkey, hdata⟩ := h
  have hop : Codes (accept 1 fun bytes => bytes.head?.bind walOpFromU8) [walOpToU8 r.op] r.op :=
    codes_accept rfl (walOpFromU8_walOpToU8 r.op)
  refine hop.bind ?_
  refine (codes_u64 r.txnId).bind ((codes_putStr htable).bind ((codes_putStr hkey).bind ?_))
  rw [← List.append_nil (putStr r.data)]
  exact (codes_putStr hdata).bind (codes_pure r)

theorem codes {r : LoggedWalRecord} (h : Fits r) : Codes reader.read (encode r) r :=
  codes_summed (codes_fields h)

end WalFile

namespace UndoFile

def operationByte (operation : String) : Byte :=
  if operation = "INSERT" then 0x01
  else if operation = "UPDATE" then 0x02
  else if operation = "DELETE" then 0x03
  else 0x00

def operationOf (op : Byte) : Option String :=
  if op = 0x01 then some "INSERT"
  else if op = 0x02 then some "UPDATE"
  else if op = 0x03 then some "DELETE"
  else none

def putOldData : Option Bytes → Bytes
  | some data => [1] ++ putStr data
  | none => [0]

def body (e : LoggedUndoEntry) : Bytes :=
  [operationByte e.operation] ++ (leBytes 8 e.txnId.toNat ++ (putStr e.table ++
    (putStr e.key ++ putOldData e.oldData)))

def encode (e : LoggedUndoEntry) : Bytes :=
  body e ++ putU32 (fnv1a (body e))

def getOldData : Scan (Option Bytes) := do
  let hasData ← byte
  if hasData = 1 then do
    let data ← string
    return some data
  else return none

def fields : Scan LoggedUndoEntry := do
  let op ← byte
  let operation ← ofOption (operationOf op)
  let txnId ← u64
  let table ← string
  let key ← string
  let oldData ← getOldData
  return ⟨txnId, operation, table, key, oldData, none⟩

def decode : Scan LoggedUndoEntry :=
  checked fnv1a fields

/-- One of the three operations, and strings that are shorter than their length fields can say. -/
def Fits (e : LoggedUndoEntry) : Prop :=
  (e.operation = "INSERT" ∨ e.operation = "UPDATE" ∨ e.operation = "DELETE") ∧
    e.table.length < 2 ^ 32 ∧ e.key.length < 2 ^ 32 ∧ ∀ data ∈ e.oldData, data.length < 2 ^ 32

def written (e : LoggedUndoEntry) : LoggedUndoEntry :=
  { e with newKey := none }

theorem operationOf_operationByte {operation : String}
    (h : operation = "INSERT" ∨ operation = "UPDATE" ∨ operation = "DELETE") :
    operationOf (operationByte operation) = some operation := by
  rcases h with rfl | rfl | rfl <;> rfl

theorem keeps_getOldData : Keeps getOldData := by
  refine keeps_byte.bind fun hasData => ?_
  split_ifs
  · exact keeps_string.bind fun _ => keeps_pure _
  · exact keeps_pure _

theorem keeps_fields : Keeps fields :=
  keeps_byte.bind fun _ => (keeps_ofOption _).bind fun _ => keeps_u64.bind fun _ =>
    keeps_string.bind fun _ => keeps_string.bind fun _ => keeps_getOldData.bind fun _ =>
      keeps_pure _

theorem moves_fields : Moves fields :=
  (moves_accept Nat.one_pos _).bind keeps_byte fun _ => (keeps_ofOption _).bind fun _ =>
    keeps_u64.bind fun _ => keeps_string.bind fun _ => keeps_string.bind fun _ =>
      keeps_getOldData.bind fun _ => keeps_pure _

def reader : RecordReader LoggedUndoEntry where
  read := decode
  keeps := keeps_fields.checked fnv1a
  moves := moves_fields.checked keeps_fields fnv1a

theorem codes_getOldData {oldData : Option Bytes} (h : ∀ data ∈ oldData, data.length < 2 ^ 32) :
    Codes getOldData (putOldData oldData) oldData := by
  cases oldData with
  | none => exact (codes_byte 0).bind (codes_pure none)
  | some data =>
    refine (codes_byte 1).bind ?_
    rw [← List.append_nil (putStr data)]
    exact (codes_putStr (h data rfl)).bind (codes_pure (some data))

theorem codes {e : LoggedUndoEntry} (h : Fits e) : Codes reader.read (encode e) (written e) := by
  obtain ⟨hoperation, htable, hkey, hdata⟩ := h
  refine codes_summed ?_
  refine (codes_byte _).bind ?_
  rw [← List.nil_append (leBytes 8 e.txnId.toNat ++ _)]
  refine Codes.bind (a := e.operation) ?_ ?_
  · rw [operationOf_operationByte hoperation]
    exact codes_ofOption e.operation
  · refine (codes_u64 e.txnId).bind ((codes_putStr htable).bind ((codes_putStr hkey).bind ?_))
    rw [← List.append_nil (putOldData e.oldData)]
    exact (codes_getOldData hdata).bind (codes_pure (written e))

theorem fits_of_read : Yields Fits reader.read := by
  have hold : Yields (fun oldData : Option Bytes => ∀ data ∈ oldData, data.length < 2 ^ 32)
      getOldData := by
    refine (yields_any byte).bind fun hasData _ => ?_
    split_ifs
    · exact yields_string.bind fun data hdata => yields_pure fun _ h => Option.some.inj h ▸ hdata
    · exact yields_pure fun _ h => by cases h
  have hoperation : ∀ op, Yields (fun operation => operation = "INSERT" ∨ operation = "UPDATE" ∨
      operation = "DELETE") (ofOption (operationOf op)) := by
    intro op _ _ operation h
    change operationOf op = some operation at h
    rw [operationOf] at h
    split_ifs at h
    all_goals
      cases h
      simp
  refine Yields.checked ?_ fnv1a
  refine (yields_any byte).bind fun op _ => (hoperation op).bind fun _ hop => ?_
  refine (yields_any u64).bind fun _ _ => yields_string.bind fun _ htable => ?_
  exact yields_string.bind fun _ hkey => hold.bind fun _ hdata =>
    yields_pure ⟨hop, htable, hkey, hdata⟩

theorem written_of_read : Yields (fun e => written e = e) reader.read := by
  refine Yields.checked ?_ fnv1a
  refine (yields_any _).bind fun _ _ => (yields_any _).bind fun _ _ => (yields_any _).bind ?_
  exact fun _ _ => (yields_any _).bind fun _ _ => (yields_any _).bind fun _ _ =>
    (yields_any _).bind fun _ _ => yields_pure rfl

end UndoFile

namespace RedoLogFile

def opScan : Scan LoggedOp := do
  let kind ← byte
  let table ← string
  let rowJson ← string
  let xmax ← string
  return ⟨kind, table, rowJson, xmax⟩

def before (limit : ℕ) : Scan Unit := fun _ pos =>
  (if limit ≤ pos then none else some (), pos)

/-- The loop over the operations of a batch whose payload ends at `limit`. -/
def opsScan (limit : ℕ) : ℕ → Scan (List LoggedOp)
  | 0 => pure []
  | count + 1 => do
      before limit
      let op ← opScan
      let ops ← opsScan limit count
      return op :: ops

def countedOps (limit : ℕ) : Scan (List LoggedOp) := do
  let count ← u32
  opsScan limit count

/-- What stands behind the length of a payload. The operations have a position of their own; that of
the loop moves behind the checksum when the batch is taken. -/
def payloadScan (len : ℕ) : Scan (List LoggedOp) := fun buf pos =>
  if pos + len + 4 ≤ buf.length ∧
      fnv1a ((buf.drop pos).take len) = leNat ((buf.drop (pos + len)).take 4) then
    match (countedOps (pos + len) buf pos).1 with
    | some ops => (some ops, pos + len + 4)
    | none => (none, pos)
  else (none, pos)

/-- One round of the loop of `read_all`, with its position. -/
def batchScan : Scan (List LoggedOp) := do
  let len ← u32
  payloadScan len

theorem keeps_payloadScan (len : ℕ) : Keeps (payloadScan len) := by
  intro buf pos h
  rw [payloadScan]
  split_ifs with hwhole
  · cases (countedOps (pos + len) buf pos).1 with
    | none => exact ⟨le_rfl, h⟩
    | some ops => exact ⟨(Nat.le_add_right pos len).trans (Nat.le_add_right _ 4), hwhole.1⟩
  · exact ⟨le_rfl, h⟩

def reader : RecordReader (List LoggedOp) where
  read := batchScan
  keeps := keeps_u32.bind keeps_payloadScan
  moves := (moves_accept (Nat.succ_pos 3) _).bind keeps_u32 keeps_payloadScan

/-- A scan and a reader of what is left of the buffer say the same. -/
def SameAs {α : Type} (m : Scan α) (g : Bytes → Option (α × Bytes)) : Prop :=
  ∀ buf pos, pos ≤ buf.length →
    g (buf.drop pos) = (m buf pos).1.map fun a => (a, buf.drop (m buf pos).2)

section

variable {α β : Type} {m : Scan α} {f : α → Scan β} {g : Bytes → Option (α × Bytes)}
  {g' : α → Bytes → Option (β × Bytes)}

theorem SameAs.bind (h : SameAs m g) (hm : Keeps m) (hf : ∀ a, SameAs (f a) (g' a)) :
    SameAs (m >>= f) fun b => (g b).bind fun p => g' p.1 p.2 := by
  intro buf pos hpos
  dsimp only
  have hkeeps := hm buf pos hpos
  rw [h buf pos hpos]
  cases hread : m buf pos with
  | mk found pos' =>
    rw [hread] at hkeeps
    cases found with
    | none => rw [bind_of_none (by rw [hread])]; rfl
    | some a =>
      rw [bind_of_some hread]
      exact hf a buf pos' hkeeps.2

theorem sameAs_pure (a : α) : SameAs (pure a) fun b => some (a, b) :=
  fun _ _ _ => rfl

theorem sameAs_accept {k : ℕ} {f : Bytes → α} (hg : ∀ b, g b =
    if k ≤ b.length then some (f (b.take k), b.drop k) else none) :
    SameAs (accept k fun bytes => some (f bytes)) g := by
  intro buf pos hpos
  rw [hg, List.length_drop, List.drop_drop]
  by_cases hk : pos + k ≤ buf.length
  · have hread : accept k (fun bytes => some (f bytes)) buf pos =
        (some (f ((buf.drop pos).take k)), pos + k) := accept_of_some hk rfl
    rw [if_pos (by omega), hread]
    rfl
  · have hread : accept k (fun bytes => some (f bytes)) buf pos = (none, pos) :=
      accept_of_lt (Nat.lt_of_not_le hk)
    rw [if_neg (by omega), hread]
    rfl

theorem sameAs_u32 : SameAs u32 getU32 :=
  sameAs_accept fun _ => rfl

theorem sameAs_string : SameAs string getStr :=
  sameAs_u32.bind keeps_u32 fun _ => sameAs_accept fun _ => rfl

theorem sameAs_opScan : SameAs opScan getOp := by
  have hall : SameAs opScan fun b => (if 1 ≤ b.length then b.head?.map (·, b.drop 1) else none).bind
      fun p => (getStr p.2).bind fun table => (getStr table.2).bind fun rowJson =>
        (getStr rowJson.2).bind fun xmax => some (⟨p.1, table.1, rowJson.1, xmax.1⟩, xmax.2) := by
    refine SameAs.bind ?_ keeps_byte fun _ => sameAs_string.bind keeps_string fun _ =>
      sameAs_string.bind keeps_string fun _ => sameAs_string.bind keeps_string fun _ =>
        sameAs_pure _
    intro buf pos hpos
    dsimp only
    rw [List.length_drop, List.drop_drop]
    cases hdrop : buf.drop pos with
    | nil =>
      have hend : buf.length ≤ pos := List.drop_eq_nil_iff.mp hdrop
      have hread : byte buf pos = (none, pos) := accept_of_lt (by omega)
      rw [if_neg (by omega), hread]
      rfl
    | cons b rest =>
      have hlt : pos < buf.length := by
        by_contra hge
        rw [List.drop_eq_nil_of_le (Nat.le_of_not_lt hge)] at hdrop
        cases hdrop
      have hread : byte buf pos = (some b, pos + 1) :=
        accept_of_some hlt (by rw [hdrop]; rfl)
      rw [if_pos (by omega), hread]
      rfl
  intro buf pos hpos
  rw [← hall buf pos hpos]
  cases buf.drop pos with
  | nil => rfl
  | cons b rest => rfl

theorem keeps_opScan : Keeps opScan :=
  keeps_byte.bind fun _ => keeps_string.bind fun _ => keeps_string.bind fun _ =>
    keeps_string.bind fun _ => keeps_pure _

theorem getOps_eq {buf : Bytes} {limit : ℕ} (hlimit : limit ≤ buf.length) :
    ∀ (count : ℕ) {pos : ℕ}, pos ≤ buf.length →
      getOps (buf.length - limit) count (buf.drop pos) = (opsScan limit count buf pos).1
  | 0, _, _ => rfl
  | count + 1, pos, hpos => by
      rw [getOps, opsScan, List.length_drop]
      by_cases hend : limit ≤ pos
      · have hread : before limit buf pos = (none, pos) := by rw [before, if_pos hend]
        rw [if_pos (by omega), bind_of_none (by rw [hread])]
      · have hread : before limit buf pos = (some (), pos) := by rw [before, if_neg hend]
        rw [if_neg (by omega), bind_of_some hread, sameAs_opScan buf pos hpos]
        have hkeeps := (keeps_opScan buf pos hpos).2
        cases hop : opScan buf pos with
        | mk found pos' =>
          rw [hop] at hkeeps
          cases found with
          | none => rw [bind_of_none (by rw [hop])]; rfl
          | some op =>
            rw [bind_of_some hop]
            change (getOps (buf.length - limit) count (buf.drop pos')).map (op :: ·) = _
            rw [getOps_eq hlimit count hkeeps]
            cases hops : opsScan limit count buf pos' with
            | mk found' pos'' =>
              cases found' with
              | none => rw [bind_of_none (by rw [hops])]; rfl
              | some ops => rw [bind_of_some hops]; rfl

theorem sameAs_batchScan : SameAs batchScan getBatch := by
  have htail : ∀ len, SameAs (payloadScan len) fun b =>
      if len + 4 ≤ b.length then
        (getU32 (b.drop len)).bind fun stored =>
          if fnv1a (b.take len) = stored.1 then
            (getU32 b).bind fun count =>
              (getOps (b.length - len) count.1 count.2).map fun batch => (batch, stored.2)
          else none
      else none := by
    intro len buf pos hpos
    dsimp only
    rw [payloadScan, List.length_drop]
    by_cases hwhole : pos + len + 4 ≤ buf.length
    · have hstored : getU32 (buf.drop (pos + len)) =
          some (leNat ((buf.drop (pos + len)).take 4), buf.drop (pos + len + 4)) := by
        rw [getU32, List.length_drop, if_pos (by omega), List.drop_drop]
      rw [if_pos (by omega), List.drop_drop, hstored, Option.bind_some]
      dsimp only
      by_cases hsum : fnv1a ((buf.drop pos).take len) = leNat ((buf.drop (pos + len)).take 4)
      · rw [if_pos hsum, if_pos ⟨hwhole, hsum⟩, sameAs_u32 buf pos hpos, countedOps]
        have hkeeps := (keeps_u32 buf pos hpos).2
        cases hcount : u32 buf pos with
        | mk found pos' =>
          rw [hcount] at hkeeps
          cases found with
          | none => rw [bind_of_none (by rw [hcount])]; rfl
          | some count =>
            have hlimit : pos + len ≤ buf.length := by omega
            have hops := getOps_eq hlimit count hkeeps
            rw [bind_of_some hcount, Option.map_some, Option.bind_some, Nat.sub_sub, hops]
            cases (opsScan (pos + len) count buf pos').1 with
            | none => rfl
            | some ops => rfl
      · rw [if_neg hsum, if_neg fun h => hsum h.2]
        rfl
    · rw [if_neg (by omega), if_neg fun h => hwhole h.1]
      rfl
  exact sameAs_u32.bind keeps_u32 htail

end

theorem codes {ops : List LoggedOp} (h : RedoLogFile.Fits ops) :
    Codes reader.read (recordBytes ops) ops where
  reads := fun front rest => by
    have hpos : front.length ≤ (front ++ (recordBytes ops ++ rest)).length := by
      rw [List.length_append]
      exact Nat.le_add_right _ _
    have hsame := sameAs_batchScan (front ++ (recordBytes ops ++ rest)) front.length hpos
    have hkeeps := reader.keeps _ _ hpos
    rw [List.drop_left, getBatch_append h rest] at hsame
    change batchScan _ _ = _
    change _ ∧ (batchScan _ _).2 ≤ _ at hkeeps
    cases hread : batchScan (front ++ (recordBytes ops ++ rest)) front.length with
    | mk found pos' =>
      rw [hread] at hsame hkeeps
      cases found with
      | none => cases hsame
      | some batch =>
        obtain ⟨rfl, hrest⟩ := Prod.mk.inj (Option.some.inj hsame)
        have hlength := congrArg List.length hrest
        simp only [List.length_drop, List.length_append] at hlength hkeeps ⊢
        rw [Prod.mk.injEq]
        exact ⟨rfl, by omega⟩
  torn := fun front n hn => by
    have hpos : front.length ≤ (front ++ (recordBytes ops).take n).length := by
      rw [List.length_append]
      exact Nat.le_add_right _ _
    have hsame := sameAs_batchScan (front ++ (recordBytes ops).take n) front.length hpos
    rw [List.drop_left, (short_take h hn).getBatch] at hsame
    exact Option.map_eq_none_iff.mp hsame.symm

theorem readAll_drop (buf : Bytes) (pos : ℕ) (h : pos ≤ buf.length) :
    RedoLogFile.readAll (buf.drop pos) = (reader.readAll buf pos h).1.flatten := by
  induction hleft : buf.length - pos using Nat.strong_induction_on generalizing pos with
  | _ left ih =>
    have hsame := sameAs_batchScan buf pos h
    have hkeeps := (reader.keeps buf pos h).2
    cases hread : reader.read buf pos with
    | mk found pos' =>
      rw [show batchScan buf pos = (found, pos') from hread] at hsame
      rw [hread] at hkeeps
      cases found with
      | none =>
        rw [reader.readAll_of_none h (by rw [hread]), readAll_eq_nil hsame]
        rfl
      | some batch =>
        have hmoves := reader.moves buf pos batch h (by rw [hread])
        rw [hread] at hmoves
        dsimp only at hmoves hkeeps
        rw [reader.readAll_of_some h hread hkeeps, readAll_eq_append hsame, List.flatten_cons]
        exact congrArg (batch ++ ·) (ih (buf.length - pos') (by omega) pos' hkeeps rfl)

theorem readAll_eq_flatten (buf : Bytes) : RedoLogFile.readAll buf = (reader.records buf).flatten :=
  readAll_drop buf 0 (Nat.zero_le _)

end RedoLogFile

open RecordReader

/-- What was encoded is decoded again; of a file cut anywhere the readers return the records, and
the redo log the operations of the batches, that lie inside; and they end inside the buffer on any
bytes. -/
theorem logs_recovered (wal : List LoggedWalRecord) (undo : List LoggedUndoEntry)
    (redo : List (List LoggedOp)) (hwal : ∀ r ∈ wal, WalFile.Fits r)
    (hundo : ∀ e ∈ undo, UndoFile.Fits e) (hredo : ∀ ops ∈ redo, RedoLogFile.Fits ops) :
    (WalFile.reader.records (wal.flatMap WalFile.encode) = wal ∧
      UndoFile.reader.records (undo.flatMap UndoFile.encode) = undo.map UndoFile.written ∧
      RedoLogFile.readAll (redo.flatMap recordBytes) = redo.flatten) ∧
    (∀ n, WalFile.reader.records ((wal.flatMap WalFile.encode).take n) =
        wholeIn WalFile.encode n wal ∧
      UndoFile.reader.records ((undo.flatMap UndoFile.encode).take n) =
        (wholeIn UndoFile.encode n undo).map UndoFile.written ∧
      RedoLogFile.readAll ((redo.flatMap recordBytes).take n) =
        (wholeIn recordBytes n redo).flatten) ∧
    ∀ buf, (WalFile.reader.readAll buf 0 (Nat.zero_le _)).2 ≤ buf.length ∧
      (UndoFile.reader.readAll buf 0 (Nat.zero_le _)).2 ≤ buf.length ∧
      (RedoLogFile.reader.readAll buf 0 (Nat.zero_le _)).2 ≤ buf.length := by
  have hw : ∀ r ∈ wal, Codes WalFile.reader.read (WalFile.encode r) (id r) :=
    fun r hr => WalFile.codes (hwal r hr)
  have hu : ∀ e ∈ undo, Codes UndoFile.reader.read (UndoFile.encode e) (UndoFile.written e) :=
    fun e he => UndoFile.codes (hundo e he)
  have hr : ∀ ops ∈ redo, Codes RedoLogFile.reader.read (recordBytes ops) (id ops) :=
    fun ops hops => RedoLogFile.codes (hredo ops hops)
  refine ⟨⟨?_, records_flatMap hu, ?_⟩, fun n => ⟨?_, records_take hu n, ?_⟩, fun buf =>
    ⟨readAll_inside _ buf 0 _, readAll_inside _ buf 0 _, readAll_inside _ buf 0 _⟩⟩
  · rw [records_flatMap hw, List.map_id]
  · rw [RedoLogFile.readAll_eq_flatten, records_flatMap hr, List.map_id]
  · rw [records_take hw, List.map_id]
  · rw [RedoLogFile.readAll_eq_flatten, records_take hr, List.map_id]

/-- Two records of each log, as they are and with the last byte torn off. -/
theorem logs_recovered_torn : let wal : List LoggedWalRecord :=
      [⟨.insert, 7, [116], [49], [123, 125]⟩, ⟨.commit, 7, [], [], []⟩]
    let undo : List LoggedUndoEntry :=
      [⟨7, "INSERT", [116], [49], none, none⟩, ⟨7, "UPDATE", [116], [49], some [123, 125], none⟩]
    let redo : List (List LoggedOp) := [[⟨1, [116], [123, 125], []⟩], [⟨2, [116], [123, 125], []⟩]]
    let torn := fun {ρ : Type} (encode : ρ → Bytes) (log : List ρ) => (log.flatMap encode).dropLast
    WalFile.reader.records (wal.flatMap WalFile.encode) = wal ∧
      RedoLogFile.readAll (redo.flatMap recordBytes) = redo.flatten ∧
      WalFile.reader.records (torn WalFile.encode wal) = wal.take 1 ∧
      UndoFile.reader.records (torn UndoFile.encode undo) = undo.take 1 ∧
      RedoLogFile.readAll (torn recordBytes redo) = redo.headD [] := by
  intro wal undo redo torn
  simp only [torn, List.dropLast_eq_take]
  obtain ⟨hwhole, htorn, -⟩ := logs_recovered wal undo redo (by simp [wal, WalFile.Fits])
    (by simp [undo, UndoFile.Fits])
    (by simp [redo, RedoLogFile.Fits, payload, opBytes, putStr, length_putU32])
  refine ⟨hwhole.1, hwhole.2.2, (htorn _).1.trans ?_, (htorn _).2.1.trans ?_,
    (htorn _).2.2.trans ?_⟩
  all_goals decide +kernel

/-- A payload of exactly 2^32 bytes is written with the length 0. -/
theorem redo_length_wraps : ¬ ∀ redo : List (List LoggedOp),
    (∀ ops ∈ redo, ∀ op ∈ ops, OpFits op) →
    RedoLogFile.readAll (redo.flatMap recordBytes) = redo.flatten := by
  intro h
  obtain ⟨table, htable⟩ : ∃ table : Bytes, table.length = 4294967279 :=
    ⟨List.replicate 4294967279 0, List.length_replicate⟩
  have hread := h [[⟨1, table, [], []⟩]] (by simp [OpFits, htable])
  have hlength : (payload [⟨1, table, [], []⟩]).length = 4294967296 := by
    simp [payload, opBytes, putStr, length_putU32, htable]
  have hzero : putU32 4294967296 = putU32 0 := by decide
  have hcount : ∀ rest, getU32 (payload [⟨1, table, [], []⟩] ++ rest) =
      some (1, [(⟨1, table, [], []⟩ : LoggedOp)].flatMap opBytes ++ rest) := fun rest => by
    rw [payload, List.append_assoc]
    exact getU32_append (show 1 < 2 ^ 32 by decide) _
  -- the payload of length 0 is taken for sound only if its checksum is the number of operations
  have hsum : fnv1a [] ≠ 1 := by decide
  have hnone : getBatch (recordBytes [⟨1, table, [], []⟩]) = none := by
    rw [recordBytes, hlength, hzero, getBatch, getU32_append (by decide), Option.bind_some]
    dsimp only
    rw [List.drop_zero, List.take_zero, hcount, Option.bind_some]
    dsimp only
    rw [if_neg hsum, ite_self]
  rw [List.flatMap_cons, List.flatMap_nil, List.append_nil, readAll_eq_nil hnone] at hread
  cases hread

end RusqlEngine
