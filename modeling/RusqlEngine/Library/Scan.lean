import RusqlEngine.Library.Buffer

/-!
# Readers with a shared position

A scan reads a buffer at a position and moves it, also where it fails half way. A scan codes a
record when it reads the record's bytes back wherever they stand and fails on every part of them;
then a loop of such scans reads, of any cut of a file of records, the records that lie inside.
-/

open Buffer

def Scan (α : Type) : Type := Bytes → ℕ → Option α × ℕ

namespace Scan

variable {α β : Type}

instance : Monad Scan where
  pure a := fun _ pos => (some a, pos)
  bind m f := fun buf pos =>
    match m buf pos with
    | (some a, pos') => f a buf pos'
    | (none, pos') => (none, pos')

/-- The next `k` bytes; the position moves behind them if they are accepted. -/
def accept (k : ℕ) (f : Bytes → Option α) : Scan α := fun buf pos =>
  if pos + k ≤ buf.length then
    match f ((buf.drop pos).take k) with
    | some a => (some a, pos + k)
    | none => (none, pos)
  else (none, pos)

def ofOption (a : Option α) : Scan α := fun _ pos => (a, pos)

def byte : Scan Byte :=
  accept 1 List.head?

def u32 : Scan ℕ :=
  accept 4 fun bytes => some (leNat bytes)

def u64 : Scan UInt64 :=
  accept 8 fun bytes => some (UInt64.ofNat (leNat bytes))

def string : Scan Bytes := do
  let len ← u32
  accept len some

/-- A record, and behind it a checksum of its bytes. -/
def checked (sum : Bytes → ℕ) (body : Scan α) : Scan α := fun buf pos =>
  match body buf pos with
  | (some a, pos') =>
    accept 4 (fun stored =>
      if leNat stored = sum ((buf.drop pos).take (pos' - pos)) then some a else none) buf pos'
  | (none, pos') => (none, pos')

section

variable {m : Scan α} {f : α → Scan β} {buf : Bytes} {pos pos' : ℕ} {a : α}

theorem bind_of_some (h : m buf pos = (some a, pos')) : (m >>= f) buf pos = f a buf pos' := by
  change (match m buf pos with
    | (some a, pos') => f a buf pos'
    | (none, pos') => (none, pos')) = _
  rw [h]

theorem bind_of_none (h : (m buf pos).1 = none) : (m >>= f) buf pos = (none, (m buf pos).2) := by
  change (match m buf pos with
    | (some a, pos') => f a buf pos'
    | (none, pos') => (none, pos')) = _
  cases hm : m buf pos with
  | mk found pos' =>
    rw [hm] at h
    cases h
    rfl

theorem pure_apply (a : α) (buf : Bytes) (pos : ℕ) : (pure a : Scan α) buf pos = (some a, pos) :=
  rfl

theorem accept_of_some {k : ℕ} {f : Bytes → Option α} (hk : pos + k ≤ buf.length)
    (hf : f ((buf.drop pos).take k) = some a) : accept k f buf pos = (some a, pos + k) := by
  rw [accept, if_pos hk, hf]

theorem accept_of_lt {k : ℕ} {f : Bytes → Option α} (hk : buf.length < pos + k) :
    accept k f buf pos = (none, pos) := by
  rw [accept, if_neg (Nat.not_le_of_lt hk)]

theorem accept_cases (k : ℕ) (f : Bytes → Option α) (buf : Bytes) (pos : ℕ) :
    accept k f buf pos = (none, pos) ∨ ∃ a, f ((buf.drop pos).take k) = some a ∧
      pos + k ≤ buf.length ∧ accept k f buf pos = (some a, pos + k) := by
  by_cases hk : pos + k ≤ buf.length
  · cases hf : f ((buf.drop pos).take k) with
    | none => exact .inl (by rw [accept, if_pos hk, hf])
    | some a => exact .inr ⟨a, rfl, hk, accept_of_some hk hf⟩
  · exact .inl (accept_of_lt (Nat.lt_of_not_le hk))

end

section

def Keeps (m : Scan α) : Prop :=
  ∀ buf pos, pos ≤ buf.length → pos ≤ (m buf pos).2 ∧ (m buf pos).2 ≤ buf.length

def Moves (m : Scan α) : Prop :=
  ∀ buf pos a, pos ≤ buf.length → (m buf pos).1 = some a → pos < (m buf pos).2

variable {m : Scan α} {f : α → Scan β}

theorem keeps_pure (a : α) : Keeps (pure a : Scan α) :=
  fun _ _ h => ⟨le_rfl, h⟩

theorem keeps_ofOption (a : Option α) : Keeps (ofOption a) :=
  fun _ _ h => ⟨le_rfl, h⟩

theorem keeps_accept (k : ℕ) (f : Bytes → Option α) : Keeps (accept k f) := by
  intro buf pos h
  rcases accept_cases k f buf pos with heq | ⟨a, -, hk, heq⟩
  · rw [heq]
    exact ⟨le_rfl, h⟩
  · rw [heq]
    exact ⟨Nat.le_add_right pos k, hk⟩

theorem Keeps.bind (h : Keeps m) (hf : ∀ a, Keeps (f a)) : Keeps (m >>= f) := by
  intro buf pos hpos
  have hm := h buf pos hpos
  cases hread : m buf pos with
  | mk found pos' =>
    rw [hread] at hm
    cases found with
    | none =>
      rw [bind_of_none (by rw [hread]), hread]
      exact hm
    | some a =>
      rw [bind_of_some hread]
      have hnext := hf a buf pos' hm.2
      exact ⟨hm.1.trans hnext.1, hnext.2⟩

theorem keeps_byte : Keeps byte :=
  keeps_accept 1 _

theorem keeps_u32 : Keeps u32 :=
  keeps_accept 4 _

theorem keeps_u64 : Keeps u64 :=
  keeps_accept 8 _

theorem keeps_string : Keeps string :=
  keeps_u32.bind fun len => keeps_accept len _

theorem Keeps.checked (h : Keeps m) (sum : Bytes → ℕ) : Keeps (checked sum m) := by
  intro buf pos hpos
  have hm := h buf pos hpos
  rw [Scan.checked]
  cases hread : m buf pos with
  | mk found pos' =>
    rw [hread] at hm
    cases found with
    | none => exact hm
    | some a =>
      have hnext := keeps_accept 4 (fun stored =>
        if leNat stored = sum ((buf.drop pos).take (pos' - pos)) then some a else none)
        buf pos' hm.2
      exact ⟨hm.1.trans hnext.1, hnext.2⟩

theorem moves_accept {k : ℕ} (hk : 0 < k) (f : Bytes → Option α) : Moves (accept k f) := by
  intro buf pos a _ hsome
  rcases accept_cases k f buf pos with heq | ⟨b, -, -, heq⟩
  · rw [heq] at hsome
    cases hsome
  · rw [heq]
    exact Nat.lt_add_of_pos_right hk

theorem Moves.bind (h : Moves m) (hk : Keeps m) (hf : ∀ a, Keeps (f a)) : Moves (m >>= f) := by
  intro buf pos b hpos hsome
  have hm := hk buf pos hpos
  cases hread : m buf pos with
  | mk found pos' =>
    rw [hread] at hm
    cases found with
    | none =>
      rw [bind_of_none (by rw [hread])] at hsome
      cases hsome
    | some a =>
      rw [bind_of_some hread]
      have hlt := h buf pos a hpos (by rw [hread])
      rw [hread] at hlt
      exact lt_of_lt_of_le hlt (hf a buf pos' hm.2).1

theorem Moves.checked (h : Moves m) (hk : Keeps m) (sum : Bytes → ℕ) : Moves (checked sum m) := by
  intro buf pos b hpos hsome
  have hm := hk buf pos hpos
  rw [Scan.checked] at hsome ⊢
  cases hread : m buf pos with
  | mk found pos' =>
    rw [hread] at hm hsome
    cases found with
    | none => cases hsome
    | some a =>
      have hlt := h buf pos a hpos (by rw [hread])
      rw [hread] at hlt
      exact lt_of_lt_of_le hlt (keeps_accept 4 (fun stored =>
        if leNat stored = sum ((buf.drop pos).take (pos' - pos)) then some a else none)
        buf pos' hm.2).1

end

section

/-- The bytes are read back, whatever stands before and behind them, and no part of them is. -/
structure Codes (m : Scan α) (bytes : Bytes) (a : α) : Prop where
  reads : ∀ front rest, m (front ++ (bytes ++ rest)) front.length =
    (some a, (front ++ bytes).length)
  torn : ∀ front n, n < bytes.length → (m (front ++ bytes.take n) front.length).1 = none

variable {m : Scan α} {f : α → Scan β} {bytes bytes' : Bytes} {a : α} {b : β}

theorem codes_pure (a : α) : Codes (pure a) [] a where
  reads := fun front _ => by rw [pure_apply, List.append_nil]
  torn := fun _ _ h => absurd h (Nat.not_lt_zero _)

theorem codes_ofOption (a : α) : Codes (ofOption (some a)) [] a where
  reads := fun front _ => by rw [ofOption, List.append_nil]
  torn := fun _ _ h => absurd h (Nat.not_lt_zero _)

theorem codes_accept {k : ℕ} {f : Bytes → Option α} (hk : bytes.length = k)
    (hf : f bytes = some a) : Codes (accept k f) bytes a where
  reads := fun front rest => by
    have hslice : ((front ++ (bytes ++ rest)).drop front.length).take k = bytes := by
      rw [List.drop_left, List.take_left' hk]
    rw [accept_of_some (a := a), List.length_append, hk]
    · simp only [List.length_append]
      omega
    · rw [hslice, hf]
  torn := fun front n hn => by
    rw [accept_of_lt]
    simp only [List.length_append, List.length_take]
    omega

theorem Codes.bind (h : Codes m bytes a) (hf : Codes (f a) bytes' b) :
    Codes (m >>= f) (bytes ++ bytes') b where
  reads := fun front rest => by
    rw [List.append_assoc bytes, bind_of_some (h.reads front (bytes' ++ rest)),
      ← List.append_assoc front, hf.reads (front ++ bytes) rest, List.append_assoc front]
  torn := fun front n hn => by
    by_cases hcut : n < bytes.length
    · rw [List.take_append_of_le_length hcut.le, bind_of_none (h.torn front n hcut)]
    · have hle : bytes.length ≤ n := Nat.le_of_not_lt hcut
      rw [List.length_append] at hn
      rw [List.take_append, List.take_of_length_le hle, bind_of_some (h.reads front _),
        ← List.append_assoc]
      exact hf.torn (front ++ bytes) (n - bytes.length) (by omega)

theorem codes_byte (b : Byte) : Codes byte [b] b :=
  codes_accept rfl rfl

theorem codes_u32 {v : ℕ} (h : v < 2 ^ 32) : Codes u32 (leBytes 4 v) v :=
  codes_accept (length_leBytes 4 v) (congrArg some (leNat_leBytes h))

theorem codes_u64 (v : UInt64) : Codes u64 (leBytes 8 v.toNat) v := by
  refine codes_accept (length_leBytes 8 _) ?_
  rw [leNat_leBytes v.toNat_lt, UInt64.ofNat_toNat]

theorem codes_string {s : Bytes} (h : s.length < 2 ^ 32) :
    Codes string (leBytes 4 s.length ++ s) s :=
  (codes_u32 h).bind (codes_accept rfl rfl)

theorem Codes.checked (h : Codes m bytes a) {sum : Bytes → ℕ} (hsum : sum bytes < 2 ^ 32) :
    Codes (checked sum m) (bytes ++ leBytes 4 (sum bytes)) a where
  reads := fun front rest => by
    have hslice : ((front ++ (bytes ++ (leBytes 4 (sum bytes) ++ rest))).drop front.length).take
        ((front ++ bytes).length - front.length) = bytes := by
      rw [List.drop_left, List.length_append, Nat.add_sub_cancel_left, List.take_left]
    have hsum' : leNat (leBytes 4 (sum bytes)) = sum bytes := leNat_leBytes hsum
    have htail := (codes_accept (k := 4) (f := fun stored =>
      if leNat stored = sum bytes then some a else none) (length_leBytes 4 (sum bytes))
      (if_pos hsum')).reads (front ++ bytes) rest
    rw [List.append_assoc bytes, Scan.checked, h.reads front (leBytes 4 (sum bytes) ++ rest)]
    simp only [hslice]
    rw [← List.append_assoc front, ← List.append_assoc front]
    exact htail
  torn := fun front n hn => by
    by_cases hcut : n < bytes.length
    · have hnone := h.torn front n hcut
      rw [List.take_append_of_le_length hcut.le, Scan.checked]
      cases hread : m (front ++ bytes.take n) front.length with
      | mk found pos' =>
        rw [hread] at hnone
        cases hnone
        rfl
    · have hle : bytes.length ≤ n := Nat.le_of_not_lt hcut
      rw [List.length_append, length_leBytes] at hn
      rw [List.take_append, List.take_of_length_le hle, Scan.checked, h.reads front _]
      refine congrArg Prod.fst (accept_of_lt ?_)
      simp only [List.length_append, List.length_take, length_leBytes]
      omega

end

section

def Yields (P : α → Prop) (m : Scan α) : Prop :=
  ∀ buf pos a, (m buf pos).1 = some a → P a

variable {m : Scan α} {f : α → Scan β} {P : α → Prop} {Q : β → Prop}

theorem yields_pure {a : α} (h : P a) : Yields P (pure a) := by
  intro _ _ _ hsome
  cases hsome
  exact h

theorem yields_accept {k : ℕ} {f : Bytes → Option α}
    (h : ∀ bytes a, bytes.length = k → f bytes = some a → P a) : Yields P (accept k f) := by
  intro buf pos a hsome
  rcases accept_cases k f buf pos with heq | ⟨b, hf, hk, heq⟩
  · rw [heq] at hsome
    cases hsome
  · rw [heq] at hsome
    cases hsome
    refine h _ _ ?_ hf
    rw [List.length_take, List.length_drop]
    omega

theorem Yields.bind (h : Yields P m) (hf : ∀ a, P a → Yields Q (f a)) : Yields Q (m >>= f) := by
  intro buf pos b hsome
  cases hread : m buf pos with
  | mk found pos' =>
    cases found with
    | none =>
      rw [bind_of_none (by rw [hread])] at hsome
      cases hsome
    | some a =>
      rw [bind_of_some hread] at hsome
      exact hf a (h buf pos a (by rw [hread])) buf pos' b hsome

theorem yields_any (m : Scan α) : Yields (fun _ => True) m :=
  fun _ _ _ _ => trivial

theorem yields_u32 : Yields (· < 2 ^ 32) u32 := by
  refine yields_accept fun bytes v hlength hsome => ?_
  cases hsome
  have hlt := leNat_lt bytes
  rwa [hlength] at hlt

theorem yields_string : Yields (fun s : Bytes => s.length < 2 ^ 32) string := by
  refine yields_u32.bind fun len hlen => yields_accept fun bytes s hlength hsome => ?_
  cases hsome
  rwa [hlength]

theorem Yields.checked (h : Yields P m) (sum : Bytes → ℕ) : Yields P (checked sum m) := by
  intro buf pos a hsome
  rw [Scan.checked] at hsome
  cases hread : m buf pos with
  | mk found pos' =>
    rw [hread] at hsome
    cases found with
    | none => cases hsome
    | some b =>
      refine (yields_accept (P := P) fun bytes c _ hc => ?_) buf pos' a hsome
      split_ifs at hc
      cases hc
      exact h buf pos b (by rw [hread])

end

end Scan

/-- A scan that can be repeated to the end of a buffer. -/
structure RecordReader (ρ : Type) where
  read : Scan ρ
  keeps : Scan.Keeps read
  moves : Scan.Moves read

namespace RecordReader

variable {ρ σ : Type}

/-- The loop: records are read until one is not, and the position is where that left it. -/
def readAll (R : RecordReader ρ) (buf : Bytes) (pos : ℕ) (h : pos ≤ buf.length) : List ρ × ℕ :=
  match hread : R.read buf pos with
  | (none, pos') => ([], pos')
  | (some r, pos') =>
    have hkeeps : (R.read buf pos).2 ≤ buf.length := (R.keeps buf pos h).2
    have hmoves : pos < (R.read buf pos).2 := R.moves buf pos r h (by rw [hread])
    have hpos : (R.read buf pos).2 = pos' := by rw [hread]
    have hend : pos' ≤ buf.length := hpos ▸ hkeeps
    let rest := readAll R buf pos' hend
    (r :: rest.1, rest.2)
termination_by buf.length - pos

/-- `read_all` of a file. -/
def records (R : RecordReader ρ) (buf : Bytes) : List ρ :=
  (R.readAll buf 0 (Nat.zero_le _)).1

variable {R : RecordReader ρ} {buf : Bytes} {pos : ℕ}

theorem readAll_of_none (h : pos ≤ buf.length) (hread : (R.read buf pos).1 = none) :
    R.readAll buf pos h = ([], (R.read buf pos).2) := by
  rw [readAll]
  split
  · next pos' heq => rw [heq]
  · next r pos' heq =>
      rw [heq] at hread
      cases hread

theorem readAll_of_some (h : pos ≤ buf.length) {r : ρ} {pos' : ℕ}
    (hread : R.read buf pos = (some r, pos')) (h' : pos' ≤ buf.length) :
    R.readAll buf pos h = (r :: (R.readAll buf pos' h').1, (R.readAll buf pos' h').2) := by
  rw [readAll]
  split
  · next heq =>
      rw [hread] at heq
      cases heq
  · next heq =>
      rw [hread] at heq
      cases heq
      rfl

theorem readAll_inside (R : RecordReader ρ) (buf : Bytes) (pos : ℕ) (h : pos ≤ buf.length) :
    (R.readAll buf pos h).2 ≤ buf.length := by
  induction hleft : buf.length - pos using Nat.strong_induction_on generalizing pos with
  | _ left ih =>
    have hkeeps := (R.keeps buf pos h).2
    cases hread : R.read buf pos with
    | mk found pos' =>
      rw [hread] at hkeeps
      cases found with
      | none =>
        rw [readAll_of_none h (by rw [hread]), hread]
        exact hkeeps
      | some r =>
        have hmoves := R.moves buf pos r h (by rw [hread])
        rw [hread] at hmoves
        rw [readAll_of_some h hread hkeeps]
        exact ih (buf.length - pos') (by dsimp only at hmoves hkeeps; omega) pos' hkeeps rfl

theorem forall_readAll {P : ρ → Prop} (hyields : Scan.Yields P R.read) (buf : Bytes) (pos : ℕ)
    (h : pos ≤ buf.length) : ∀ r ∈ (R.readAll buf pos h).1, P r := by
  induction hleft : buf.length - pos using Nat.strong_induction_on generalizing pos with
  | _ left ih =>
    have hkeeps := (R.keeps buf pos h).2
    cases hread : R.read buf pos with
    | mk found pos' =>
      rw [hread] at hkeeps
      cases found with
      | none =>
        rw [readAll_of_none h (by rw [hread])]
        exact nofun
      | some r =>
        have hmoves := R.moves buf pos r h (by rw [hread])
        rw [hread] at hmoves
        dsimp only at hmoves hkeeps
        rw [readAll_of_some h hread hkeeps, List.forall_mem_cons]
        exact ⟨hyields buf pos r (by rw [hread]), ih (buf.length - pos') (by omega) pos' hkeeps rfl⟩

theorem forall_records {P : ρ → Prop} (hyields : Scan.Yields P R.read) (buf : Bytes) :
    ∀ r ∈ R.records buf, P r :=
  forall_readAll hyields buf 0 (Nat.zero_le _)

theorem read_end (R : RecordReader ρ) (buf : Bytes) : (R.read buf buf.length).1 = none := by
  cases hread : (R.read buf buf.length).1 with
  | none => rfl
  | some r =>
    have hmoves := R.moves buf buf.length r le_rfl hread
    have hkeeps := (R.keeps buf buf.length le_rfl).2
    omega

theorem records_nil (R : RecordReader ρ) : R.records [] = [] :=
  congrArg Prod.fst (readAll_of_none (Nat.zero_le _) (read_end R []))

/-- The records whose bytes lie inside the first `n`. -/
def wholeIn (encode : σ → Bytes) : ℕ → List σ → List σ
  | _, [] => []
  | n, r :: rs =>
    if (encode r).length ≤ n then r :: wholeIn encode (n - (encode r).length) rs else []

variable {encode : σ → Bytes} {image : σ → ρ}

theorem wholeIn_length (rs : List σ) : wholeIn encode (rs.flatMap encode).length rs = rs := by
  induction rs with
  | nil => rfl
  | cons r rs ih =>
    rw [wholeIn, List.flatMap_cons, List.length_append, if_pos (Nat.le_add_right ..),
      Nat.add_sub_cancel_left, ih]

theorem readAll_take {rs : List σ} (hcodes : ∀ r ∈ rs, Scan.Codes R.read (encode r) (image r))
    (front : Bytes) (n : ℕ) (h : pos ≤ buf.length) (hpos : pos = front.length)
    (hbuf : buf = front ++ (rs.flatMap encode).take n) :
    (R.readAll buf pos h).1 = (wholeIn encode n rs).map image := by
  induction rs generalizing front n pos with
  | nil =>
    have hend : pos = buf.length := by
      rw [hpos, hbuf, List.flatMap_nil, List.take_nil, List.append_nil]
    rw [readAll_of_none h (by rw [hend]; exact read_end R buf), wholeIn, List.map_nil]
  | cons r rs ih =>
    obtain ⟨hr, hrs⟩ := List.forall_mem_cons.mp hcodes
    rw [List.flatMap_cons, List.take_append] at hbuf
    rw [wholeIn]
    split_ifs with hn
    · have hread : R.read buf pos = (some (image r), (front ++ encode r).length) := by
        rw [hbuf, List.take_of_length_le hn, hpos]
        exact hr.reads front _
      have hinside : (front ++ encode r).length ≤ buf.length := by
        have hkeeps := (R.keeps buf pos h).2
        rwa [hread] at hkeeps
      rw [readAll_of_some h hread hinside, List.map_cons]
      refine congrArg (image r :: ·) (ih hrs (front ++ encode r) _ hinside rfl ?_)
      rw [hbuf, List.take_of_length_le hn, List.append_assoc]
    · have hcut : buf = front ++ (encode r).take n := by
        rw [hbuf, Nat.sub_eq_zero_of_le (Nat.le_of_not_le hn), List.take_zero, List.append_nil]
      rw [readAll_of_none h, List.map_nil]
      rw [hcut, hpos]
      exact hr.torn front n (Nat.lt_of_not_le hn)

theorem records_take {rs : List σ} (hcodes : ∀ r ∈ rs, Scan.Codes R.read (encode r) (image r))
    (n : ℕ) : R.records ((rs.flatMap encode).take n) = (wholeIn encode n rs).map image :=
  readAll_take hcodes [] n (Nat.zero_le _) rfl rfl

theorem records_flatMap {rs : List σ} (hcodes : ∀ r ∈ rs, Scan.Codes R.read (encode r) (image r)) :
    R.records (rs.flatMap encode) = rs.map image := by
  have htake := records_take hcodes (rs.flatMap encode).length
  rwa [List.take_length, wholeIn_length] at htake

end RecordReader
