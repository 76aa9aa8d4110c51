import RusqlEngine.LikeExact
import RusqlEngine.AccessPaths

/-!
# The scan of a text index for a prefix

A pattern whose only wildcard is a `%` at its end is looked for in the index of a text column: the
tree is read from the prefix on, up to the first key that does not match the pattern. Each entry
stands for the rows of texts that are equal in the collation, under the text of the first of them.
-/

namespace RusqlEngine.LikeScan

open Buffer (Bytes)
open KeyOrder (cmpKeys)
open UnicodeCollation
open Where.AccessPaths (likePrefix)

variable {ρ : Type} (table : Table)

/-- The index of a text column: `value` is that of the column in a row. -/
structure TextIndex (ρ : Type) where
  tree : BPlusTree Bytes (List ρ)
  value : ρ → Bytes
  wellFormed : BPlusTree.WellFormed (cmpKeys table [.text]) tree
  buckets : ∀ entry ∈ tree.collectAllKv, ∀ row ∈ entry.2,
    cmpKeys table [.text] (value row) entry.1 = .eq

/-- The lambda `like_prefix_scannable` of `exec_select`. -/
def likePrefixScannable (pref : Bytes) : Bool :=
  match pref with
  | [] => false
  | c :: _ => !(decide (DigitText.IsDigit c) || c = 0x2D || c = 0x2B || c = 0x2E)

variable {table}

namespace TextIndex

variable (index : TextIndex table ρ)

/-- The entries that are read for a prefix, where the index can be scanned for it. -/
def likeScan (pref : Bytes) : Option (List (Bytes × List ρ)) :=
  if likePrefixScannable pref then
    some ((index.tree.scanFrom (cmpKeys table [.text]) pref true).takeWhile fun kv =>
      like table kv.1 (pref ++ [0x25]) = some true)
  else none

/-- The entries that hold a row whose value matches the pattern. -/
def Holds (pat : Bytes) (entry : Bytes × List ρ) : Prop :=
  entry ∈ index.tree.collectAllKv ∧ ∃ row ∈ entry.2, like table (index.value row) pat = some true

def FindsAll (pat pref : Bytes) : Prop :=
  ∃ found, index.likeScan pref = some found ∧ ∀ entry, index.Holds pat entry → entry ∈ found

/-- From the prefix up to a key with a matching value, every key matches itself. -/
def Unbroken (pat pref : Bytes) : Prop :=
  ∀ entry, index.Holds pat entry → (cmpKeys table [.text] pref entry.1).isLE ∧
    ∀ other ∈ index.tree.collectAllKv, (cmpKeys table [.text] pref other.1).isLE →
      (cmpKeys table [.text] other.1 entry.1).isLE → like table other.1 pat = some true

end TextIndex

instance : Std.TransCmp (cmpKeys table [.text]) :=
  KeyOrder.cmpKeys_transCmp (by decide)

section

variable {κ ν : Type} {cmp : κ → κ → Ordering} [Std.TransCmp cmp] {p : κ × ν → Bool}

theorem mem_takeWhile_iff {entries : List (κ × ν)} (h : SortedMap.Sorted cmp entries)
    (entry : κ × ν) : entry ∈ entries.takeWhile p ↔
      entry ∈ entries ∧ ∀ other ∈ entries, (cmp other.1 entry.1).isLE → p other := by
  induction entries with
  | nil => simp
  | cons first rest ih =>
    obtain ⟨habove, hrest⟩ := SortedMap.sorted_cons.mp h
    have hself : (cmp first.1 first.1).isLE := by
      have heq : cmp first.1 first.1 = .eq := Std.ReflCmp.compare_self
      rw [heq]
      rfl
    have hfirst {other : κ × ν} (hother : other ∈ rest) : (cmp first.1 other.1).isLE := by
      rw [habove other hother]
      rfl
    have hafter {other : κ × ν} (hother : other ∈ rest) : ¬ (cmp other.1 first.1).isLE := by
      have hswap : cmp other.1 first.1 = (cmp first.1 other.1).swap := Std.OrientedCmp.eq_swap
      rw [hswap, habove other hother]
      exact Bool.false_ne_true
    by_cases hp : p first = true
    · rw [List.takeWhile_cons_of_pos hp, List.mem_cons, List.mem_cons, ih hrest,
        List.forall_mem_cons]
      constructor
      · rintro (rfl | ⟨hmem, hall⟩)
        · exact ⟨.inl rfl, fun _ => hp, fun other hother hle => absurd hle (hafter hother)⟩
        · exact ⟨.inr hmem, fun _ => hp, hall⟩
      · rintro ⟨rfl | hmem, -, hall⟩
        · exact .inl rfl
        · exact .inr ⟨hmem, hall⟩
    · rw [List.takeWhile_cons_of_neg hp]
      refine iff_of_false List.not_mem_nil ?_
      rintro ⟨hmem, hall⟩
      rcases List.mem_cons.mp hmem with rfl | hmem
      · exact hp (hall _ List.mem_cons_self hself)
      · exact hp (hall first List.mem_cons_self (hfirst hmem))

end

theorem likePrefix_eq_some {pat pref : Bytes} (h : likePrefix pat = some pref) :
    pat = pref ++ [0x25] := by
  rw [likePrefix] at h
  split at h
  next => exact nomatch h
  next hpat =>
    have hlast : pat.getLast? = some 0x25 := by
      by_contra hne
      exact hpat (.inl hne)
    obtain ⟨front, rfl⟩ := List.getLast?_eq_some_iff.mp hlast
    rw [List.dropLast_concat] at h
    rw [← Option.some.inj h]

namespace TextIndex

variable {index : TextIndex table ρ} {pat pref : Bytes}

theorem sorted (index : TextIndex table ρ) :
    SortedMap.Sorted (cmpKeys table [.text]) index.tree.collectAllKv := by
  cases htree : index.tree with
  | none => exact List.Pairwise.nil
  | some root =>
    obtain ⟨depth, hroot⟩ := index.wellFormed root htree
    exact (Node.wf_bounded 1 depth).sorted hroot

/-- What the scan reads: the entries from the prefix on, as long as every key matches. -/
theorem mem_likeScan (index : TextIndex table ρ) (hscan : likePrefixScannable pref) :
    ∃ found, index.likeScan pref = some found ∧ ∀ entry, entry ∈ found ↔
      (entry ∈ index.tree.collectAllKv ∧ (cmpKeys table [.text] pref entry.1).isLE) ∧
        ∀ other ∈ index.tree.collectAllKv, (cmpKeys table [.text] pref other.1).isLE →
          (cmpKeys table [.text] other.1 entry.1).isLE →
            like table other.1 (pref ++ [0x25]) = some true := by
  refine ⟨_, by rw [likeScan, if_pos hscan], fun entry => ?_⟩
  have hread : index.tree.scanFrom (cmpKeys table [.text]) pref true = _ :=
    BPlusTree.scanFrom_eq index.wellFormed pref
  rw [hread, mem_takeWhile_iff (index.sorted.filter _), List.mem_filter]
  simp only [List.mem_filter, and_imp, decide_eq_true_eq]
  rfl

/-- The scan for a prefix finds every matching value where no key in between stops it. -/
theorem findsAll_iff (hpat : likePrefix pat = some pref)
    (hscan : likePrefixScannable pref) : index.FindsAll pat pref ↔ index.Unbroken pat pref := by
  obtain rfl := likePrefix_eq_some hpat
  obtain ⟨found, hfound, hmem⟩ := index.mem_likeScan hscan
  constructor
  · rintro ⟨found', hfound', hall⟩ entry hholds
    obtain rfl := Option.some.inj (hfound.symm.trans hfound')
    obtain ⟨⟨-, hfrom⟩, hkeys⟩ := (hmem entry).mp (hall entry hholds)
    exact ⟨hfrom, hkeys⟩
  · intro hunbroken
    refine ⟨found, hfound, fun entry hholds => ?_⟩
    obtain ⟨hfrom, hkeys⟩ := hunbroken entry hholds
    exact (hmem entry).mpr ⟨⟨hholds.1, hfrom⟩, hkeys⟩

/-- The index of a column with the texts `a` and `nullable`. -/
def nullableIndex : TextIndex controlTable Bytes where
  tree := BPlusTree.afterOps (cmpKeys controlTable [.text])
    [.insert [0x61] [[0x61]],
      .insert [0x6E, 0x75, 0x6C, 0x6C, 0x61, 0x62, 0x6C, 0x65]
        [[0x6E, 0x75, 0x6C, 0x6C, 0x61, 0x62, 0x6C, 0x65]]]
  value := id
  wellFormed := (BPlusTree.afterOps_wellFormed _).1
  buckets := by decide +kernel

theorem nullableIndex_entries : nullableIndex.tree.collectAllKv = [([0x61], [[0x61]]),
    ([0x6E, 0x75, 0x6C, 0x6C, 0x61, 0x62, 0x6C, 0x65],
      [[0x6E, 0x75, 0x6C, 0x6C, 0x61, 0x62, 0x6C, 0x65]])] := by
  decide +kernel

/-- `A%` finds the text `a`. -/
theorem findsAll_letters : nullableIndex.FindsAll [0x41, 0x25] [0x41] := by
  refine (findsAll_iff (by decide) (by decide)).mpr fun entry hholds => ?_
  obtain ⟨hmem, row, hrow, hlike⟩ := hholds
  rw [nullableIndex_entries] at hmem ⊢
  rcases List.mem_cons.mp hmem with rfl | hmem
  · refine ⟨by decide, ?_⟩
    decide
  · obtain rfl := List.mem_singleton.mp hmem
    obtain rfl := List.mem_singleton.mp hrow
    exact absurd hlike (by decide)

/-- The prefix `NULL` is compared as the NULL that comes first: the scan begins at `a` and ends
there, and `nullable` is not found. -/
theorem not_findsAll_null : ¬ nullableIndex.FindsAll [0x4E, 0x55, 0x4C, 0x4C, 0x25]
    [0x4E, 0x55, 0x4C, 0x4C] := by
  rintro ⟨found, hfound, hall⟩
  have hempty : nullableIndex.likeScan [0x4E, 0x55, 0x4C, 0x4C] = some [] := by decide +kernel
  obtain rfl := Option.some.inj (hempty.symm.trans hfound)
  have hmem := hall ([0x6E, 0x75, 0x6C, 0x6C, 0x61, 0x62, 0x6C, 0x65],
      [[0x6E, 0x75, 0x6C, 0x6C, 0x61, 0x62, 0x6C, 0x65]])
    ⟨by rw [nullableIndex_entries]; exact List.mem_cons_of_mem _ List.mem_cons_self,
      _, List.mem_singleton_self _, by decide⟩
  exact List.not_mem_nil hmem

end TextIndex

end RusqlEngine.LikeScan
