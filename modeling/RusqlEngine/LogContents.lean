import RusqlEngine.LogCodec

/-!
# The tracked contents of a log file

The writers of a log file note whose records are in it. While that is known, the records of a
transaction are removed without reading the file if they are not there or are alone there; else the
file is read, and written anew with the records of the others.
-/

namespace RusqlEngine

open Buffer RedoLogFile Scan Transition UndoFile Function

/-- How the records of a log file are written and read; `image` is what the file says of a
record. -/
structure LogFormat (ρ : Type) where
  reader : RecordReader ρ
  encode : ρ → Bytes
  txnOf : ρ → UInt64
  isCheckpoint : ρ → Bool
  image : ρ → ρ
  Fits : ρ → Prop
  codes : ∀ r, Fits r → Codes reader.read (encode r) (image r)
  fits_read : Yields Fits reader.read
  image_read : Yields (fun r => image r = r) reader.read
  txnOf_image : ∀ r, txnOf (image r) = txnOf r

structure LogContents where
  path : String
  known : Bool
  txns : Finset UInt64

/-- The log files of the data directories, and what is tracked of one of them. -/
structure LogIo where
  files : String → Option Bytes
  contents : LogContents

inductive LogStep (ρ : Type)
  | append (path : String) (record : ρ)
  | removeTxn (path : String) (txnId : UInt64)
  | clear (path : String)
  | truncateToLastCheckpoint (path : String)
  | rewriteTxn (path : String) (txnId : UInt64) (entries : List ρ)

/-- `tracked_contents`. -/
def LogContents.tracked (c : LogContents) (path : String) : LogContents :=
  if c.path ≠ path then ⟨path, false, ∅⟩ else c

namespace LogIo

variable {ρ : Type} (fmt : LogFormat ρ)

/-- `read_all_locked`. -/
def readAll (file : Option Bytes) : List ρ :=
  match file with
  | none => []
  | some bytes => fmt.reader.records bytes

def txnIdsOf (records : List ρ) : Finset UInt64 :=
  (records.map fmt.txnOf).toFinset

def put (s : LogIo) (path : String) (file : Option Bytes) (known : Bool) (txns : Finset UInt64) :
    LogIo where
  files := update s.files path file
  contents := ⟨path, known, txns⟩

def append (s : LogIo) (path : String) (record : ρ) : LogIo :=
  let contents := s.contents.tracked path
  s.put path (some ((s.files path).getD [] ++ fmt.encode record)) contents.known
    (if contents.known then insert (fmt.txnOf record) contents.txns else contents.txns)

/-- `clear_locked`: the file is removed. -/
def clear (s : LogIo) (path : String) : LogIo :=
  s.put path none true ∅

def rewrite (s : LogIo) (path : String) (records : List ρ) : LogIo :=
  s.put path (some (records.flatMap fmt.encode)) true (txnIdsOf fmt records)

def truncate (s : LogIo) (path : String) : LogIo :=
  s.put path (some []) true ∅

def othersIn (file : Option Bytes) (txnId : UInt64) : List ρ :=
  (readAll fmt file).filter fun r => fmt.txnOf r ≠ txnId

def removeTxn (s : LogIo) (path : String) (txnId : UInt64) : LogIo :=
  let contents := s.contents.tracked path
  if contents.known ∧ txnId ∉ contents.txns then { s with contents := contents }
  else if contents.known ∧ contents.txns.card = 1 then s.truncate path
  else
    let remaining := othersIn fmt (s.files path) txnId
    if remaining = [] then
      if (s.files path).isSome then s.truncate path else s.clear path
    else s.rewrite fmt path remaining

def lastCheckpoint (records : List ρ) : Option ℕ :=
  (List.range records.length).reverse.find? fun i => (records[i]?).any fmt.isCheckpoint

def truncateToLastCheckpoint (s : LogIo) (path : String) : LogIo :=
  let records := readAll fmt (s.files path)
  match lastCheckpoint fmt records with
  | none => s
  | some lastCp =>
    let remaining := records.drop lastCp
    if remaining.length ≤ 1 then s.clear path else s.rewrite fmt path remaining

def rewriteTxn (s : LogIo) (path : String) (txnId : UInt64) (entries : List ρ) : LogIo :=
  let all := othersIn fmt (s.files path) txnId ++ entries
  if all = [] then s.clear path else s.rewrite fmt path all

def step (s : LogIo) : LogStep ρ → Option LogIo
  | .append path record => some (s.append fmt path record)
  | .removeTxn path txnId => some (s.removeTxn fmt path txnId)
  | .clear path => some (s.clear path)
  | .truncateToLastCheckpoint path => some (s.truncateToLastCheckpoint fmt path)
  | .rewriteTxn path txnId entries => some (s.rewriteTxn fmt path txnId entries)

/-- What is written has strings that their length fields can say. -/
def stepFits (_ : LogIo) : LogStep ρ → Prop
  | .append _ record => fmt.Fits record
  | .rewriteTxn _ _ entries => ∀ e ∈ entries, fmt.Fits e
  | _ => True

/-- The transactions that are tracked are those in the file, and `remove_txn` leaves the records of
the others. -/
def Exact (s : LogIo) : Prop :=
  (s.contents.known →
    s.contents.txns = txnIdsOf fmt (readAll fmt (s.files s.contents.path))) ∧
  ∀ path txnId, readAll fmt ((s.removeTxn fmt path txnId).files path) =
    othersIn fmt (s.files path) txnId

def Holds (file : Option Bytes) (records : List ρ) : Prop :=
  file.getD [] = records.flatMap fmt.encode ∧ ∀ r ∈ records, fmt.Fits r

/-- What is known of the file is so. -/
def Sound (s : LogIo) : Prop :=
  s.contents.known = true → ∃ records, Holds fmt (s.files s.contents.path) records ∧
    s.contents.txns = txnIdsOf fmt records

section

variable {fmt} {s : LogIo} {file : Option Bytes} {records : List ρ} {path : String}
  {txnId : UInt64}

theorem readAll_getD (file : Option Bytes) :
    readAll fmt file = fmt.reader.records (file.getD []) := by
  cases file with
  | some bytes => rfl
  | none => exact fmt.reader.records_nil.symm

theorem Holds.readAll (h : Holds fmt file records) : readAll fmt file = records.map fmt.image := by
  rw [readAll_getD, h.1]
  exact RecordReader.records_flatMap fun r hr => fmt.codes r (h.2 r hr)

theorem txnIdsOf_image (records : List ρ) :
    txnIdsOf fmt (records.map fmt.image) = txnIdsOf fmt records := by
  have hmap : fmt.txnOf ∘ fmt.image = fmt.txnOf := funext fmt.txnOf_image
  rw [txnIdsOf, List.map_map, hmap, txnIdsOf]

theorem mem_txnIdsOf : txnId ∈ txnIdsOf fmt records ↔ ∃ r ∈ records, fmt.txnOf r = txnId := by
  rw [txnIdsOf, List.mem_toFinset, List.mem_map]

theorem mem_othersIn {r : ρ} : r ∈ othersIn fmt file txnId ↔
    r ∈ readAll fmt file ∧ fmt.txnOf r ≠ txnId := by
  rw [othersIn, List.mem_filter, decide_eq_true_eq]

theorem fits_of_mem_readAll {r : ρ} (h : r ∈ readAll fmt file) : fmt.Fits r ∧ fmt.image r = r := by
  rw [readAll_getD] at h
  exact ⟨RecordReader.forall_records fmt.fits_read _ r h,
    RecordReader.forall_records fmt.image_read _ r h⟩

theorem holds_nil (h : file.getD [] = []) : Holds fmt file [] :=
  ⟨h, nofun⟩

end

section

variable {fmt} {s : LogIo} {path : String} {txnId : UInt64} {records : List ρ} {record : ρ}

theorem tracked_known {c : LogContents} (h : (c.tracked path).known) :
    c.path = path ∧ c.known ∧ c.tracked path = c := by
  rw [LogContents.tracked] at h ⊢
  split_ifs at h ⊢ with hpath
  · exact ⟨not_not.mp hpath, h, rfl⟩

theorem put_sound {file : Option Bytes} {known : Bool} {txns : Finset UInt64}
    (h : known → ∃ records, Holds fmt file records ∧ txns = txnIdsOf fmt records) :
    Sound fmt (s.put path file known txns) := by
  intro hknown
  obtain ⟨records, hholds, htxns⟩ := h hknown
  refine ⟨records, ?_, htxns⟩
  change Holds fmt (update s.files path file path) records
  rwa [update_self]

theorem clear_sound (s : LogIo) (path : String) : Sound fmt (s.clear path) :=
  put_sound fun _ => ⟨[], holds_nil rfl, rfl⟩

theorem truncate_sound (s : LogIo) (path : String) : Sound fmt (s.truncate path) :=
  put_sound fun _ => ⟨[], holds_nil rfl, rfl⟩

theorem rewrite_sound (s : LogIo) (path : String) (h : ∀ r ∈ records, fmt.Fits r) :
    Sound fmt (s.rewrite fmt path records) :=
  put_sound fun _ => ⟨records, ⟨rfl, h⟩, rfl⟩

theorem append_sound (h : Sound fmt s) (hfits : fmt.Fits record) :
    Sound fmt (s.append fmt path record) := by
  refine put_sound fun hknown => ?_
  obtain ⟨rfl, hbefore, htracked⟩ := tracked_known hknown
  obtain ⟨records, hholds, htxns⟩ := h hbefore
  refine ⟨records ++ [record], ⟨?_, ?_⟩, ?_⟩
  · rw [Option.getD_some, hholds.1, List.flatMap_append, List.flatMap_singleton]
  · rw [List.forall_mem_append]
    exact ⟨hholds.2, List.forall_mem_singleton.mpr hfits⟩
  · rw [if_pos hknown, htracked, htxns, txnIdsOf, txnIdsOf, List.map_append,
      List.toFinset_append, Finset.insert_eq, Finset.union_comm]
    rfl

theorem removeTxn_sound (h : Sound fmt s) : Sound fmt (s.removeTxn fmt path txnId) := by
  rw [removeTxn]
  dsimp only
  split_ifs with hskip halone hnone hexists
  · obtain ⟨-, -, htracked⟩ := tracked_known hskip.1
    rw [htracked]
    exact h
  · exact truncate_sound s path
  · exact truncate_sound s path
  · exact clear_sound s path
  · exact rewrite_sound s path fun r hr => (fits_of_mem_readAll (mem_othersIn.mp hr).1).1

theorem truncateToLastCheckpoint_sound (h : Sound fmt s) :
    Sound fmt (s.truncateToLastCheckpoint fmt path) := by
  rw [truncateToLastCheckpoint]
  dsimp only
  cases lastCheckpoint fmt (readAll fmt (s.files path)) with
  | none => exact h
  | some lastCp =>
    dsimp only
    split_ifs
    · exact clear_sound s path
    · exact rewrite_sound s path fun r hr => (fits_of_mem_readAll (List.mem_of_mem_drop hr)).1

theorem rewriteTxn_sound {entries : List ρ} (hfits : ∀ e ∈ entries, fmt.Fits e) :
    Sound fmt (s.rewriteTxn fmt path txnId entries) := by
  rw [rewriteTxn]
  split_ifs
  · exact clear_sound s path
  · refine rewrite_sound s path (List.forall_mem_append.mpr ⟨fun r hr => ?_, hfits⟩)
    exact (fits_of_mem_readAll (mem_othersIn.mp hr).1).1

theorem step_sound {s' : LogIo} {a : LogStep ρ} (h : Sound fmt s) (hok : stepFits fmt s a)
    (hstep : step fmt s a = some s') : Sound fmt s' := by
  cases a with
  | append path record =>
    cases hstep
    exact append_sound h hok
  | removeTxn path txnId =>
    cases hstep
    exact removeTxn_sound h
  | clear path =>
    cases hstep
    exact clear_sound s path
  | truncateToLastCheckpoint path =>
    cases hstep
    exact truncateToLastCheckpoint_sound h
  | rewriteTxn path txnId entries =>
    cases hstep
    exact rewriteTxn_sound hok

theorem removeTxn_leaves_others (h : Sound fmt s) (path : String) (txnId : UInt64) :
    readAll fmt ((s.removeTxn fmt path txnId).files path) = othersIn fmt (s.files path) txnId := by
  have hput : ∀ file known txns, ((s.put path file known txns).files path) = file :=
    fun file _ _ => update_self ..
  have hempty : ∀ file : Option Bytes, file.getD [] = [] → readAll fmt file = [] :=
    fun file hfile => (holds_nil hfile).readAll
  rw [removeTxn]
  dsimp only
  split_ifs with hskip halone hnone hexists
  · obtain ⟨rfl, hknown, htracked⟩ := tracked_known hskip.1
    obtain ⟨records, hholds, htxns⟩ := h hknown
    rw [htracked, htxns] at hskip
    refine (List.filter_eq_self.mpr fun r hr => ?_).symm
    rw [decide_eq_true_eq]
    intro heq
    refine hskip.2 ?_
    rw [← txnIdsOf_image, ← hholds.readAll]
    exact mem_txnIdsOf.mpr ⟨r, hr, heq⟩
  · obtain ⟨rfl, hknown, htracked⟩ := tracked_known halone.1
    obtain ⟨records, hholds, htxns⟩ := h hknown
    rw [htracked] at hskip halone
    have hmem : txnId ∈ s.contents.txns := by
      by_contra hnot
      exact hskip ⟨hknown, hnot⟩
    obtain ⟨only, honly⟩ := Finset.card_eq_one.mp halone.2
    rw [truncate, hput, hempty _ rfl]
    refine (List.filter_eq_nil_iff.mpr fun r hr => ?_).symm
    have hr' : fmt.txnOf r ∈ s.contents.txns := by
      rw [htxns, ← txnIdsOf_image, ← hholds.readAll]
      exact mem_txnIdsOf.mpr ⟨r, hr, rfl⟩
    rw [honly, Finset.mem_singleton] at hr' hmem
    simp [hr', hmem]
  · rw [truncate, hput, hempty _ rfl, hnone]
  · rw [clear, hput, hempty _ rfl, hnone]
  · rw [rewrite, hput]
    have hothers : ∀ r ∈ othersIn fmt (s.files path) txnId, fmt.Fits r ∧ fmt.image r = r :=
      fun r hr => fits_of_mem_readAll (mem_othersIn.mp hr).1
    rw [Holds.readAll ⟨rfl, fun r hr => (hothers r hr).1⟩]
    exact (List.map_congr_left fun r hr => (hothers r hr).2).trans (List.map_id _)

theorem exact_of_sound (h : Sound fmt s) : Exact fmt s := by
  refine ⟨fun hknown => ?_, removeTxn_leaves_others h⟩
  obtain ⟨records, hholds, htxns⟩ := h hknown
  rw [htxns, hholds.readAll, txnIdsOf_image]

end

end LogIo

def walFormat : LogFormat LoggedWalRecord where
  reader := WalFile.reader
  encode := WalFile.encode
  txnOf := LoggedWalRecord.txnId
  isCheckpoint := fun r => r.op = .checkpoint
  image := id
  Fits := WalFile.Fits
  codes := fun _ h => WalFile.codes h
  fits_read := WalFile.fits_of_read
  image_read := fun _ _ _ _ => rfl
  txnOf_image := fun _ => rfl

/-- The undo log has no checkpoints. -/
def undoFormat : LogFormat LoggedUndoEntry where
  reader := reader
  encode := encode
  txnOf := LoggedUndoEntry.txnId
  isCheckpoint := fun _ => false
  image := written
  Fits := Fits
  codes := fun _ h => codes h
  fits_read := fits_of_read
  image_read := written_of_read
  txnOf_image := fun _ => rfl

namespace LogIo

/-- However appends, removals, clearings, checkpoints and rewrites have followed each other: while
the contents of a file are tracked they are the transactions of its records, and `remove_txn` leaves
the records of the others, for the WAL and the undo log. -/
theorem logContents_exact {w₀ w u₀ u : LogIo} (hw₀ : w₀.contents.known = false)
    (hw : Reaches (step walFormat) (stepFits walFormat) w₀ w) (hu₀ : u₀.contents.known = false)
    (hu : Reaches (step undoFormat) (stepFits undoFormat) u₀ u) :
    Exact walFormat w ∧ Exact undoFormat u := by
  have hunknown : ∀ {ρ : Type} (fmt : LogFormat ρ) {s : LogIo}, s.contents.known = false →
      Sound fmt s := fun _ _ hs hknown => by
    rw [hs] at hknown
    cases hknown
  exact ⟨exact_of_sound (hw.invariant (fun _ _ _ => step_sound) (hunknown walFormat hw₀)),
    exact_of_sound (hu.invariant (fun _ _ _ => step_sound) (hunknown undoFormat hu₀))⟩

def untouched : LogIo where
  files := fun _ => none
  contents := ⟨"", false, ∅⟩

/-- Two transactions have written to the WAL, and one of them is removed from the undo log. -/
theorem logContents_exact_pair : ∃ w u, Reaches (step walFormat) (stepFits walFormat) untouched w ∧
    Reaches (step undoFormat) (stepFits undoFormat) untouched u ∧ w.contents.known ∧
    Exact walFormat w ∧ Exact undoFormat u := by
  have hrun : Reaches (step walFormat) (stepFits walFormat) untouched _ := Reaches.of_exec
    [.clear "rusql.wal", .append "rusql.wal" ⟨.insert, 1, [116], [49], [123, 125]⟩,
      .append "rusql.wal" ⟨.insert, 2, [116], [50], [123, 125]⟩]
    ⟨trivial, fun _ _ => ⟨by simp [stepFits, walFormat, WalFile.Fits], fun _ _ =>
      ⟨by simp [stepFits, walFormat, WalFile.Fits], fun _ _ => trivial⟩⟩⟩ rfl
  have hremoved : Reaches (step undoFormat) (stepFits undoFormat) untouched _ := Reaches.of_exec
    [.clear "rusql.undo", .append "rusql.undo" ⟨1, "INSERT", [116], [49], none, none⟩,
      .append "rusql.undo" ⟨2, "INSERT", [116], [50], none, none⟩, .removeTxn "rusql.undo" 1]
    ⟨trivial, fun _ _ => ⟨by simp [stepFits, undoFormat, UndoFile.Fits], fun _ _ =>
      ⟨by simp [stepFits, undoFormat, UndoFile.Fits], fun _ _ => ⟨trivial, fun _ _ => trivial⟩⟩⟩⟩
    rfl
  have hunknown : untouched.contents.known = false := rfl
  obtain ⟨hwal, hundo⟩ := logContents_exact hunknown hrun hunknown hremoved
  exact ⟨_, _, hrun, hremoved, rfl, hwal, hundo⟩

theorem append_clear {ρ : Type} (fmt : LogFormat ρ) (s : LogIo) (path : String) (record : ρ) :
    ((s.clear path).append fmt path record).contents = ⟨path, true, {fmt.txnOf record}⟩ ∧
      ((s.clear path).append fmt path record).files path = some (fmt.encode record) := by
  have htracked : (s.clear path).contents.tracked path = ⟨path, true, ∅⟩ := by
    rw [clear, put, LogContents.tracked, if_neg (not_not.mpr rfl)]
  have hfile : (s.clear path).files path = none := update_self ..
  rw [append, htracked, hfile]
  refine ⟨?_, update_self ..⟩
  rw [put, if_pos rfl]
  rfl

/-- A record whose data is 2^32 bytes long is tracked, and not read. -/
theorem logContents_wraps : ¬ ∀ s₀ s, s₀.contents.known = false →
    Reaches (step walFormat) anyStep s₀ s → Exact walFormat s := by
  intro h
  obtain ⟨tail, htail⟩ : ∃ tail : Bytes, tail.length = 4294967292 :=
    ⟨List.replicate 4294967292 0, List.length_replicate⟩
  obtain ⟨bytes, hbytes⟩ : ∃ bytes,
      WalFile.encode ⟨.insert, 1, [], [], 0 :: 0 :: 0 :: 0 :: tail⟩ =
      WalFile.body ⟨.insert, 1, [], [], []⟩ ++ ([0, 0, 0, 0] ++ bytes) := by
    have hzero : putU32 4294967296 = putU32 0 := by decide
    have hlength : putU32 (0 :: 0 :: 0 :: 0 :: tail).length = putU32 0 := by
      rw [← hzero]
      exact congrArg putU32 (by simp only [List.length_cons, htail])
    refine ⟨tail ++ putU32 (fnv1a
      (WalFile.body ⟨.insert, 1, [], [], 0 :: 0 :: 0 :: 0 :: tail⟩)), ?_⟩
    simp only [WalFile.encode, WalFile.body, putStr, hlength, List.length_nil, List.append_assoc,
      List.append_nil, List.cons_append, List.nil_append]
  -- the zeros are taken for the checksum of the record with empty strings
  have hsum : leNat [0, 0, 0, 0] ≠ fnv1a (WalFile.body ⟨.insert, 1, [], [], []⟩) := by
    decide
  have hnone : ∀ body : Bytes, leNat [0, 0, 0, 0] ≠ fnv1a body →
      Codes WalFile.fields body ⟨.insert, 1, [], [], []⟩ →
      (WalFile.decode (body ++ ([0, 0, 0, 0] ++ bytes)) 0).1 = none := by
    intro body hne hcodes
    have hfields := hcodes.reads [] ([0, 0, 0, 0] ++ bytes)
    rw [List.nil_append, List.nil_append, List.length_nil] at hfields
    rw [WalFile.decode, checked, hfields]
    dsimp only
    rw [Nat.sub_zero, List.drop_zero, List.take_left, accept]
    rw [List.drop_left, List.take_left' (by rfl), if_neg hne]
    split <;> rfl
  have hread : ∀ buf, (WalFile.decode buf 0).1 = none → walFormat.reader.records buf = [] :=
    fun buf hn => congrArg Prod.fst (RecordReader.readAll_of_none (Nat.zero_le _) hn)
  have hrun : Reaches (step walFormat) anyStep untouched _ := Reaches.of_exec
    [.clear "rusql.wal", .append "rusql.wal" ⟨.insert, 1, [], [], 0 :: 0 :: 0 :: 0 :: tail⟩]
    (execOk_anyStep ..) rfl
  obtain ⟨hcontents, hfile⟩ := append_clear walFormat untouched "rusql.wal"
    ⟨.insert, 1, [], [], 0 :: 0 :: 0 :: 0 :: tail⟩
  have htxns := (h untouched _ rfl hrun).1 rfl
  have hempty := hread _ (hnone _ hsum (WalFile.codes_fields (by simp [WalFile.Fits])))
  rw [← hbytes] at hempty
  rw [hcontents, hfile] at htxns
  change ({1} : Finset UInt64) = txnIdsOf walFormat (walFormat.reader.records _) at htxns
  rw [show walFormat.reader.records (walFormat.encode _) = [] from hempty] at htxns
  exact Finset.singleton_ne_empty 1 htxns

end LogIo

end RusqlEngine
