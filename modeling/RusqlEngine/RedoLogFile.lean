import RusqlEngine.Library.Buffer
import RusqlEngine.Library.Transition

/-!
# The redo log file

`append_batch` writes a batch as one record: the length of its payload, the payload and a checksum
of it. When the write fails part of the record may stay in the file, and the next record goes
behind it. `read_all` stops at the first record that does not check.
-/

namespace RusqlEngine

open Buffer Transition

/-- The strings and the kind of a `RedoOp` as they stand in the file. -/
structure LoggedOp where
  kind : Byte
  table : Bytes
  rowJson : Bytes
  xmax : Bytes
deriving DecidableEq

namespace RedoLogFile

/-- `put_u32` of what is cast to 32 bits. -/
def putU32 (v : ℕ) : Bytes :=
  leBytes 4 (v % 2 ^ 32)

def putStr (s : Bytes) : Bytes :=
  putU32 s.length ++ s

/-- `get_u32`, and the bytes behind it. -/
def getU32 (b : Bytes) : Option (ℕ × Bytes) :=
  if 4 ≤ b.length then some (leNat (b.take 4), b.drop 4) else none

def getStr (b : Bytes) : Option (Bytes × Bytes) :=
  (getU32 b).bind fun (len, b) =>
    if len ≤ b.length then some (b.take len, b.drop len) else none

def fnv1a (bytes : Bytes) : ℕ :=
  (bytes.foldl (fun h b => (h ^^^ BitVec.ofNat 32 b.val) * 16777619#32) 2166136261#32).toNat

def opBytes (op : LoggedOp) : Bytes :=
  op.kind :: (putStr op.table ++ (putStr op.rowJson ++ putStr op.xmax))

def payload (ops : List LoggedOp) : Bytes :=
  putU32 ops.length ++ ops.flatMap opBytes

/-- What `append_batch` writes. -/
def recordBytes (ops : List LoggedOp) : Bytes :=
  putU32 (payload ops).length ++ (payload ops ++ putU32 (fnv1a (payload ops)))

/-- One operation of a batch, and the bytes behind it; the strings are bounded by the file only. -/
def getOp : Bytes → Option (LoggedOp × Bytes)
  | [] => none
  | kind :: b =>
    (getStr b).bind fun (table, b) =>
      (getStr b).bind fun (rowJson, b) =>
        (getStr b).bind fun (xmax, b) => some (⟨kind, table, rowJson, xmax⟩, b)

/-- The loop over the operations of a batch; `behind` is how many bytes of the file come after
the payload. -/
def getOps (behind : ℕ) : ℕ → Bytes → Option (List LoggedOp)
  | 0, _ => some []
  | count + 1, b =>
    if b.length ≤ behind then none
    else (getOp b).bind fun (op, b) => (getOps behind count b).map (op :: ·)

/-- The batch at the head of the file, if it checks, and the bytes behind it. -/
def getBatch (b : Bytes) : Option (List LoggedOp × Bytes) :=
  (getU32 b).bind fun (len, b) =>
    if len + 4 ≤ b.length then
      (getU32 (b.drop len)).bind fun (stored, rest) =>
        if fnv1a (b.take len) = stored then
          (getU32 b).bind fun (count, ops) =>
            (getOps (b.length - len) count ops).map fun batch => (batch, rest)
        else none
    else none

theorem getU32_eq_some {b rest : Bytes} {v : ℕ} (h : getU32 b = some (v, rest)) :
    4 ≤ b.length ∧ rest = b.drop 4 := by
  rw [getU32] at h
  split at h
  next hlength => exact ⟨hlength, (congrArg Prod.snd (Option.some.inj h)).symm⟩
  next => exact nomatch h

theorem getBatch_length {b rest : Bytes} {ops : List LoggedOp}
    (h : getBatch b = some (ops, rest)) : rest.length < b.length := by
  obtain ⟨⟨len, b'⟩, hlen, h⟩ := Option.bind_eq_some_iff.mp h
  obtain ⟨hfour, rfl⟩ := getU32_eq_some hlen
  dsimp only at h
  split at h
  next =>
    obtain ⟨⟨stored, rest'⟩, hstored, h⟩ := Option.bind_eq_some_iff.mp h
    obtain ⟨-, rfl⟩ := getU32_eq_some hstored
    dsimp only at h
    split at h
    next =>
      obtain ⟨⟨count, b''⟩, -, h⟩ := Option.bind_eq_some_iff.mp h
      obtain ⟨batch, -, h⟩ := Option.map_eq_some_iff.mp h
      obtain ⟨-, rfl⟩ := Prod.mk.inj h
      simp only [List.length_drop]
      omega
    next => exact nomatch h
  next => exact nomatch h

def readAll (b : Bytes) : List LoggedOp :=
  match h : getBatch b with
  | none => []
  | some (ops, rest) =>
    have : rest.length < b.length := getBatch_length h
    ops ++ readAll rest
termination_by b.length

section

variable {ops : List LoggedOp} {s : Bytes}

theorem length_putU32 (v : ℕ) : (putU32 v).length = 4 :=
  length_leBytes ..

theorem getU32_append {v : ℕ} (h : v < 2 ^ 32) (rest : Bytes) :
    getU32 (putU32 v ++ rest) = some (v, rest) := by
  have hvalue : leNat (putU32 v) = v := by
    rw [putU32, Nat.mod_eq_of_lt h]
    exact leNat_leBytes h
  rw [getU32, List.take_left' (length_putU32 v), List.drop_left' (length_putU32 v), hvalue, if_pos]
  rw [List.length_append, length_putU32]
  exact Nat.le_add_right ..

theorem getStr_append (h : s.length < 2 ^ 32) (rest : Bytes) :
    getStr (putStr s ++ rest) = some (s, rest) := by
  rw [putStr, List.append_assoc, getStr, getU32_append h, Option.bind_some]
  dsimp only
  rw [if_pos (by simp), List.take_left, List.drop_left]

def OpFits (op : LoggedOp) : Prop :=
  op.table.length < 2 ^ 32 ∧ op.rowJson.length < 2 ^ 32 ∧ op.xmax.length < 2 ^ 32

theorem getOp_append {op : LoggedOp} (h : OpFits op) (rest : Bytes) :
    getOp (opBytes op ++ rest) = some (op, rest) := by
  obtain ⟨htable, hrow, hxmax⟩ := h
  simp only [opBytes, List.cons_append, List.append_assoc, getOp, getStr_append htable,
    getStr_append hrow, getStr_append hxmax, Option.bind_some]

theorem getOps_append (hfits : ∀ op ∈ ops, OpFits op) (rest : Bytes) :
    getOps rest.length ops.length (ops.flatMap opBytes ++ rest) = some ops := by
  induction ops with
  | nil => rfl
  | cons op ops ih =>
    obtain ⟨hop, hops⟩ := List.forall_mem_cons.mp hfits
    have hmore : ¬ (opBytes op ++ (ops.flatMap opBytes ++ rest)).length ≤ rest.length := by
      simp only [opBytes, List.length_append, List.length_cons]
      omega
    rw [List.length_cons, getOps, List.flatMap_cons, List.append_assoc, if_neg hmore,
      getOp_append hop, Option.bind_some]
    dsimp only
    rw [ih hops, Option.map_some]

def Fits (ops : List LoggedOp) : Prop :=
  (payload ops).length < 2 ^ 32

theorem length_le_flatMap (ops : List LoggedOp) : ops.length ≤ (ops.flatMap opBytes).length := by
  induction ops with
  | nil => exact Nat.le_refl 0
  | cons op ops ih =>
    rw [List.flatMap_cons, List.length_append, opBytes, List.length_cons, List.length_cons]
    omega

theorem Fits.count (h : Fits ops) : ops.length < 2 ^ 32 := by
  have hall := length_le_flatMap ops
  rw [Fits, payload, List.length_append, length_putU32] at h
  omega

theorem Fits.opFits {op : LoggedOp} (h : Fits ops) (hop : op ∈ ops) : OpFits op := by
  obtain ⟨before, after, rfl⟩ := List.append_of_mem hop
  simp only [Fits, payload, opBytes, putStr, List.flatMap_append, List.flatMap_cons,
    List.length_append, List.length_cons] at h
  exact ⟨by omega, by omega, by omega⟩

theorem fnv1a_lt (bytes : Bytes) : fnv1a bytes < 2 ^ 32 :=
  BitVec.isLt _

theorem getBatch_append (h : Fits ops) (rest : Bytes) :
    getBatch (recordBytes ops ++ rest) = some (ops, rest) := by
  have hlength : (payload ops).length + 4 ≤
      (payload ops ++ (putU32 (fnv1a (payload ops)) ++ rest)).length := by
    simp only [List.length_append, length_putU32]
    omega
  have hbehind : (payload ops ++ (putU32 (fnv1a (payload ops)) ++ rest)).length -
      (payload ops).length = (putU32 (fnv1a (payload ops)) ++ rest).length := by
    rw [List.length_append, Nat.add_sub_cancel_left]
  have hcount : getU32 (payload ops ++ (putU32 (fnv1a (payload ops)) ++ rest)) =
      some (ops.length, ops.flatMap opBytes ++ (putU32 (fnv1a (payload ops)) ++ rest)) := by
    rw [payload, List.append_assoc]
    exact getU32_append h.count _
  simp only [recordBytes, List.append_assoc, getBatch, getU32_append h, Option.bind_some,
    if_pos hlength, List.drop_left, List.take_left, getU32_append (fnv1a_lt _), hcount, hbehind,
    getOps_append fun _ => h.opFits, if_true, Option.map_some]

theorem readAll_eq_nil {b : Bytes} (h : getBatch b = none) : readAll b = [] := by
  rw [readAll]
  split
  next => rfl
  next heq => exact nomatch h.symm.trans heq

theorem readAll_eq_append {b rest : Bytes} (h : getBatch b = some (ops, rest)) :
    readAll b = ops ++ readAll rest := by
  rw [readAll]
  split
  next heq => exact nomatch h.symm.trans heq
  next heq =>
    obtain ⟨rfl, rfl⟩ := Prod.mk.inj (Option.some.inj (h.symm.trans heq))
    rfl

theorem readAll_append (h : Fits ops) (rest : Bytes) :
    readAll (recordBytes ops ++ rest) = ops ++ readAll rest :=
  readAll_eq_append (getBatch_append h rest)

end

def Short (b : Bytes) : Prop :=
  ∀ len rest, getU32 b = some (len, rest) → rest.length < len + 4

theorem Short.getBatch {b : Bytes} (h : Short b) : getBatch b = none := by
  rw [RedoLogFile.getBatch]
  cases hlen : getU32 b with
  | none => rfl
  | some head =>
    obtain ⟨len, rest⟩ := head
    rw [Option.bind_some]
    exact if_neg (Nat.not_le_of_lt (h len rest hlen))

theorem Short.readAll {b : Bytes} (h : Short b) : readAll b = [] :=
  readAll_eq_nil h.getBatch

theorem short_take {ops : List LoggedOp} {written : ℕ} (h : Fits ops)
    (hwritten : written < (recordBytes ops).length) : Short ((recordBytes ops).take written) := by
  intro len rest hlen
  obtain ⟨hfour, rfl⟩ := getU32_eq_some hlen
  rw [List.length_take] at hfour
  have hcut : (recordBytes ops).take written = putU32 (payload ops).length ++
      (payload ops ++ putU32 (fnv1a (payload ops))).take (written - 4) := by
    rw [recordBytes, List.take_append, length_putU32, List.take_of_length_le]
    rw [length_putU32]
    omega
  rw [hcut, getU32_append h] at hlen
  obtain ⟨rfl, -⟩ := Prod.mk.inj (Option.some.inj hlen)
  simp only [recordBytes, List.length_append, length_putU32, List.length_drop,
    List.length_take] at hwritten ⊢
  omega

end RedoLogFile

/-- A call of `append_batch`; one that throws has written so many bytes of its record. -/
inductive AppendCall
  | returns (ops : List LoggedOp)
  | throws (ops : List LoggedOp) (written : ℕ)

/-- The file, the operations of the batches whose call returned, and what stands in the file from
the first bytes of a failed call on. -/
structure AppendedLog where
  file : Bytes
  acked : List LoggedOp
  left : Bytes

namespace AppendedLog

open RedoLogFile

def start : AppendedLog where
  file := []
  acked := []
  left := []

/-- An empty batch is not written. -/
def step (s : AppendedLog) : AppendCall → Option AppendedLog
  | .returns ops =>
    if ops = [] then some s
    else some {
      file := s.file ++ recordBytes ops
      acked := s.acked ++ ops
      left := if s.left = [] then [] else s.left ++ recordBytes ops }
  | .throws ops written =>
    if ops ≠ [] ∧ written < (recordBytes ops).length then
      some {
        file := s.file ++ (recordBytes ops).take written
        acked := s.acked
        left := s.left ++ (recordBytes ops).take written }
    else none

/-- `read_all` returns what was acknowledged. -/
def Intact (s : AppendedLog) : Prop :=
  readAll s.file = s.acked

/-- A batch is written whole only where no failed call has left bytes, and its lengths fit; failed
calls leave little. -/
def nothingBehind (s : AppendedLog) : AppendCall → Prop
  | .returns ops => ops = [] ∨ RedoLogFile.Fits ops ∧ s.left = []
  | .throws ops written => Short (s.left ++ (recordBytes ops).take written)

/-- Whole records, and behind them what is short. -/
structure Sound (s : AppendedLog) : Prop where
  whole : ∃ records, s.file = records ++ s.left ∧
    ∀ rest, readAll (records ++ rest) = s.acked ++ readAll rest
  short : Short s.left

theorem start_sound : start.Sound where
  whole := ⟨[], rfl, fun _ => rfl⟩
  short := nofun

theorem step_sound {s s' : AppendedLog} {a : AppendCall} (h : s.Sound) (hok : s.nothingBehind a)
    (hstep : s.step a = some s') : s'.Sound := by
  obtain ⟨⟨records, hfile, hread⟩, hshort⟩ := h
  cases a with
  | returns ops =>
    rw [step] at hstep
    split at hstep
    next =>
      obtain rfl := Option.some.inj hstep
      exact ⟨⟨records, hfile, hread⟩, hshort⟩
    next hsome =>
      obtain ⟨hfits, hleft⟩ := hok.resolve_left hsome
      obtain rfl := Option.some.inj hstep
      refine ⟨⟨records ++ recordBytes ops, ?_, fun rest => ?_⟩, ?_⟩
      · simp only [hfile, hleft, List.append_nil, if_true]
      · rw [List.append_assoc, hread, readAll_append hfits, List.append_assoc]
      · simp only [hleft, if_true]
        exact nofun
  | throws ops written =>
    rw [step] at hstep
    split at hstep
    next =>
      obtain rfl := Option.some.inj hstep
      refine ⟨⟨records, ?_, hread⟩, hok⟩
      simp only [hfile, List.append_assoc]
    next => exact nomatch hstep

/-- Where nothing is written behind what a failed call has left, `read_all` returns the
operations of the batches whose calls returned, in their order. -/
theorem readAll_acked {s : AppendedLog} (h : Reaches step nothingBehind start s) : s.Intact := by
  obtain ⟨⟨records, hfile, hread⟩, hshort⟩ := h.invariant (fun _ _ _ => step_sound) start_sound
  rw [Intact, hfile, hread, hshort.readAll, List.append_nil]

def blankOp : LoggedOp :=
  ⟨1, [], [], []⟩

def retried : List AppendCall :=
  [.throws [blankOp] 1, .returns [blankOp]]

/-- The acknowledged batch is not read. -/
theorem readAll_retried : ¬ ∀ s, Reaches step anyStep start s → s.Intact := by
  intro hall
  have hrun := Reaches.of_exec retried (execOk_anyStep step start retried) rfl
  have hintact := hall _ hrun
  have hnone : readAll ((recordBytes [blankOp]).take 1 ++ recordBytes [blankOp]) = [] := by
    -- the byte left behind and the first three of the new record announce 4369 bytes
    refine Short.readAll fun len rest hlen => ?_
    obtain ⟨hfour, rfl⟩ := getU32_eq_some hlen
    rw [getU32, if_pos hfour] at hlen
    obtain rfl : 4369 = len := congrArg Prod.fst (Option.some.inj hlen)
    have hrest : (((recordBytes [blankOp]).take 1 ++ recordBytes [blankOp]).drop 4).length = 22 :=
      rfl
    rw [hrest]
    decide
  exact nomatch hnone.symm.trans hintact

def torn : List AppendCall :=
  [.returns [blankOp], .throws [blankOp] 1]

/-- The acknowledged batch is read, and nothing else. -/
theorem readAll_acked_torn : ∃ s, Reaches step nothingBehind start s ∧ s.acked = [blankOp] ∧
    s.Intact := by
  have hfits : RedoLogFile.Fits [blankOp] := show 17 < 2 ^ 32 by decide
  have hshort : Short ((recordBytes [blankOp]).take 1) := short_take hfits (by decide)
  have hok : execOk step nothingBehind start torn :=
    execOk_cons (.inr ⟨hfits, rfl⟩) rfl (execOk_cons hshort rfl trivial)
  have hrun := Reaches.of_exec torn hok rfl
  exact ⟨_, hrun, rfl, readAll_acked hrun⟩

end AppendedLog

end RusqlEngine
