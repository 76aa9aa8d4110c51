import RusqlEngine.GapRange

/-!
# Partitions and the rows a WHERE can match

`partition_child_for_value` tells the partition of a row by its value in the partition column, and
`prune_partition_children` the partitions that a WHERE has to read. Where nothing is left after
pruning all partitions are read.
-/

namespace RusqlEngine.Where

open Buffer (Byte Bytes)
open NumericText
open UnicodeCollation (Table)

inductive PartitionKind
  | range | list | hash
deriving DecidableEq, Repr

/-- `PartitionDef`; its name is the end of the name of its table. -/
structure PartitionDef where
  rangeUpperBound : Option Bytes
  rangeIsMaxvalue : Bool
  listValues : List Bytes
  childTable : Bytes
deriving DecidableEq

structure PartitionBy where
  kind : PartitionKind
  column : Bytes
  partitions : List PartitionDef

/-- `std::stoll`: the integer that the text starts with; it throws where there is none, or one out
of range. -/
def stoll (s : Bytes) : Option ℤ :=
  let s := s.dropWhile NumericText.isSpace
  if digitsOf (dropSign s) = [] then none
  else int64Of (signedBy (s.head? = some minus) (DigitText.value (digitsOf (dropSign s))))

/-- The bucket of a value among `count`; what is no integer counts as 0. -/
def bucket (count : ℕ) (value : Bytes) : ℕ :=
  ((stoll value).getD 0 % (count : ℤ)).toNat

section

variable (table : Table)

def PartitionDef.takes (d : PartitionDef) (value : Bytes) : Bool :=
  d.rangeIsMaxvalue || d.rangeUpperBound.any fun bound => cmpVal table value bound == .lt

def PartitionDef.lists (d : PartitionDef) (value : Bytes) : Bool :=
  d.listValues.any fun listed => UnicodeCollation.equal table listed value

/-- `partition_child_for_value`; an empty name is a value without a partition. -/
def partitionChildForValue (info : PartitionBy) (value : Bytes) : Bytes :=
  match info.kind with
  | .range => ((info.partitions.find? (·.takes table value)).map (·.childTable)).getD []
  | .list => ((info.partitions.find? (·.lists table value)).map (·.childTable)).getD []
  | .hash =>
    (info.partitions[bucket info.partitions.length value]?.map (·.childTable)).getD []

/-- The partitions with their lower edges, each the upper bound of the one before. -/
def withEdges : Option Bytes → List PartitionDef → List (Option Bytes × PartitionDef)
  | _, [] => []
  | prevBound, d :: ds => (prevBound, d) :: withEdges d.rangeUpperBound ds

def upperEdge (d : PartitionDef) : Option Bytes :=
  if d.rangeIsMaxvalue then none else d.rangeUpperBound

/-- Whether a partition overlaps the range of the WHERE. -/
def overlaps (qr : GapRange) (p : Option Bytes × PartitionDef) : Bool :=
  !(match upperEdge p.2, qr.lo with
    | some partHi, some lo => cmpVal table partHi lo != .gt
    | _, _ => false) &&
  !(match p.1, qr.hi with
    | some partLo, some hi =>
      let c := cmpVal table partLo hi
      c == .gt || (c == .eq && !qr.hiInclusive)
    | _, _ => false)

variable {ε : Type}

/-- The values of an `=` or IN on the column. -/
def Condition.values (column : Bytes) (cond : Condition ε) : Option (List Bytes) :=
  match cond.left with
  | .expr _ => none
  | .column col =>
    if col.name ≠ column then none
    else
      match cond.op, cond.value with
      | .eq, .literal v _ => some [v]
      | .isIn, .literalList values => some (values.map Prod.fst)
      | _, _ => none

/-- `find_eq_or_in_values`: the first such comparison. -/
def findEqOrInValues (cond : CondExpr ε) (column : Bytes) : Option (List Bytes) :=
  cond.andLeaves.findSome? (Condition.values column)

def orAll (all pruned : List Bytes) : List Bytes :=
  if pruned = [] then all else pruned

def prunePartitionChildren (info : PartitionBy) (condition : Option (CondExpr ε)) : List Bytes :=
  let all := info.partitions.map (·.childTable)
  match condition with
  | none => all
  | some cond =>
    match info.kind with
    | .range =>
      let qr := extractPkGapRange table (some cond) info.column
      if qr.lo = none ∧ qr.hi = none then all
      else
        orAll all (((withEdges none info.partitions).filter (overlaps table qr)).map
          (·.2.childTable))
    | .list =>
      match findEqOrInValues cond info.column with
      | none => all
      | some values =>
        orAll all ((info.partitions.filter fun d => values.any (d.lists table)).map
          (·.childTable))
    | .hash =>
      match findEqOrInValues cond info.column with
      | some [value] =>
        let child := partitionChildForValue table info value
        if child = [] then all else [child]
      | _ => all

end

/-- The tables of the partitions have names, no two the same. -/
structure WellNamed (info : PartitionBy) : Prop where
  nodup : (info.partitions.map (·.childTable)).Nodup
  named : ∀ d ∈ info.partitions, d.childTable ≠ []

/-- The partition reaches beyond the bound by `cmp_val`. -/
def passes (table : Table) (b : Bound) (p : Option Bytes × PartitionDef) : Bool :=
  if b.lower then (upperEdge p.2).all fun edge => cmpVal table edge b.literal == .gt
  else p.1.all fun edge => b.holds (cmpVal table edge b.literal)

/-- The partition that takes the value, with its lower edge. -/
def ownEdges (table : Table) (info : PartitionBy) (value : Bytes) :
    Option (Option Bytes × PartitionDef) :=
  (withEdges none info.partitions).find? fun p => p.2.takes table value

def ownList (table : Table) (info : PartitionBy) (value : Bytes) : Option PartitionDef :=
  info.partitions.find? (·.lists table value)

/-- The comparison leaves the partition of the value: each bound does, or no partition reaches
beyond it; a listed value equals one of the literals, or no partition lists any; the literal is in
the bucket of the value. -/
def Fits {ε : Type} (table : Table) (info : PartitionBy) (value : Bytes) (leaf : Condition ε) :
    Prop :=
  match info.kind with
  | .range => ∀ p, ownEdges table info value = some p → ∀ b ∈ leaf.bounds info.column,
      passes table b p ∨ ∀ q ∈ withEdges none info.partitions, passes table b q = false
  | .list => ∀ d, ownList table info value = some d →
      ∀ literals, leaf.values info.column = some literals →
        literals.any (d.lists table) ∨
          ∀ e ∈ info.partitions, literals.any (e.lists table) = false
  | .hash => ∀ literal, leaf.values info.column = some [literal] →
      bucket info.partitions.length literal = bucket info.partitions.length value

/-- A BETWEEN that no partition meets: all are read. -/
def MeetsNone {ε : Type} (table : Table) (info : PartitionBy) (leaf : Condition ε) : Prop :=
  leaf.op = .between ∧ ∀ q ∈ withEdges none info.partitions,
    ∃ b ∈ leaf.bounds info.column, passes table b q = false

variable {p : Option Bytes × PartitionDef}

section

variable {table : Table} {ε : Type} {info : PartitionBy} {value : Bytes}

theorem overlaps_iff {qr : GapRange} : overlaps table qr p ↔ ∀ b ∈ qr.bounds, passes table b p := by
  obtain ⟨lo, hi, loInclusive, hiInclusive⟩ := qr
  obtain ⟨lower, d⟩ := p
  rw [overlaps, Bool.and_eq_true, GapRange.bounds, List.forall_mem_append]
  refine and_congr ?_ ?_
  · cases lo with
    | none =>
      refine iff_of_true ?_ fun _ h => absurd h List.not_mem_nil
      cases upperEdge d <;> rfl
    | some lo =>
      change _ ↔ ∀ b ∈ [(⟨lo, true, loInclusive⟩ : Bound)], _
      rw [List.forall_mem_singleton, passes, if_pos rfl]
      dsimp only
      cases upperEdge d with
      | none => exact iff_of_true rfl rfl
      | some partHi =>
        change (!(cmpVal table partHi lo != .gt)) = true ↔ (cmpVal table partHi lo == .gt) = true
        cases cmpVal table partHi lo <;> decide
  · cases hi with
    | none =>
      refine iff_of_true ?_ fun _ h => absurd h List.not_mem_nil
      cases lower <;> rfl
    | some hi =>
      change _ ↔ ∀ b ∈ [(⟨hi, false, hiInclusive⟩ : Bound)], _
      rw [List.forall_mem_singleton, passes, if_neg Bool.false_ne_true]
      cases lower with
      | none => exact iff_of_true rfl rfl
      | some partLo =>
        dsimp only
        rw [not_above]
        rfl

theorem withEdges_snd : ∀ {prevBound : Option Bytes} {ds : List PartitionDef},
    (withEdges prevBound ds).map Prod.snd = ds
  | _, [] => rfl
  | _, d :: ds => by rw [withEdges, List.map_cons, withEdges_snd]

/-- The lower edge of a partition is the upper bound of another. -/
theorem exists_of_lowerEdge {edge : Bytes} {d : PartitionDef} :
    ∀ {prevBound : Option Bytes} {ds : List PartitionDef}, (some edge, d) ∈ withEdges prevBound ds →
      prevBound = some edge ∨ ∃ p ∈ withEdges prevBound ds, p.2.rangeUpperBound = some edge
  | _, [], h => nomatch h
  | prevBound, e :: ds, h => by
      rw [withEdges] at h ⊢
      rcases List.mem_cons.mp h with h | h
      · exact .inl (congrArg Prod.fst h).symm
      · refine .inr ?_
        rcases exists_of_lowerEdge h with h | ⟨p, hp, hbound⟩
        · exact ⟨_, List.mem_cons_self, h⟩
        · exact ⟨p, List.mem_cons_of_mem _ hp, hbound⟩

theorem passes_next {w : Bytes} (d : PartitionDef) (h : passes table ⟨w, true, true⟩ p ≠ true) :
    passes table ⟨w, false, true⟩ (p.2.rangeUpperBound, d) := by
  rw [passes, if_pos rfl, upperEdge] at h
  split_ifs at h with hmax
  · exact absurd rfl h
  · rw [passes, if_neg Bool.false_ne_true]
    cases hbound : p.2.rangeUpperBound with
    | none => rfl
    | some u =>
      rw [hbound] at h
      dsimp only [Option.all_some, Bound.holds] at h ⊢
      cases hcmp : cmpVal table u w with
      | lt => rfl
      | eq => rfl
      | gt => exact absurd (by rw [hcmp]; rfl) h

/-- The first partition that ends above a value begins at it or below. -/
theorem exists_around {w : Bytes} : ∀ {prevBound : Option Bytes} {ds : List PartitionDef},
    (∀ d, passes table ⟨w, false, true⟩ (prevBound, d)) →
    (∃ p ∈ withEdges prevBound ds, passes table ⟨w, true, true⟩ p) →
    ∃ p ∈ withEdges prevBound ds,
      passes table ⟨w, true, true⟩ p ∧ passes table ⟨w, false, true⟩ p = true
  | _, [], _, ⟨_, hp, _⟩ => nomatch hp
  | prevBound, d :: ds, hprev, ⟨p, hp, hpass⟩ => by
      rw [withEdges] at hp ⊢
      by_cases hfirst : passes table ⟨w, true, true⟩ (prevBound, d) = true
      · exact ⟨_, List.mem_cons_self, hfirst, hprev d⟩
      · rcases List.mem_cons.mp hp with rfl | hp
        · exact absurd hpass hfirst
        · obtain ⟨q, hq, hboth⟩ := exists_around (fun e => passes_next e hfirst) ⟨p, hp, hpass⟩
          exact ⟨q, List.mem_cons_of_mem _ hq, hboth⟩

theorem mem_orAll {α : Type} {ps : List α} {name : α → Bytes} {f : α → Bool} {p : α}
    (hnodup : (ps.map name).Nodup) (hp : p ∈ ps) :
    name p ∈ orAll (ps.map name) ((ps.filter f).map name) ↔
      f p ∨ ∀ q ∈ ps, f q = false := by
  have hkept : name p ∈ (ps.filter f).map name ↔ f p := by
    constructor
    · intro h
      obtain ⟨q, hq, hname⟩ := List.mem_map.mp h
      obtain ⟨hmem, hf⟩ := List.mem_filter.mp hq
      rwa [← List.inj_on_of_nodup_map hnodup hmem hp hname]
    · exact fun h => List.mem_map.mpr ⟨p, List.mem_filter.mpr ⟨hp, h⟩, rfl⟩
  rw [orAll]
  split_ifs with hempty
  · have hnone : ∀ q ∈ ps, f q = false := fun q hq => by
      have hq' := List.filter_eq_nil_iff.mp (List.map_eq_nil_iff.mp hempty) q hq
      exact Bool.eq_false_iff.mpr hq'
    exact iff_of_true (List.mem_map_of_mem hp) (.inr hnone)
  · refine hkept.trans (or_iff_left fun hnone => hempty ?_).symm
    rw [List.map_eq_nil_iff, List.filter_eq_nil_iff]
    exact fun q hq => Bool.eq_false_iff.mp (hnone q hq)

theorem ownEdges_of_child (hkind : info.kind = .range)
    (hchild : partitionChildForValue table info value ≠ []) :
    ∃ p, ownEdges table info value = some p ∧ p ∈ withEdges none info.partitions ∧
      partitionChildForValue table info value = p.2.childTable := by
  have hfind : info.partitions.find? (·.takes table value) =
      (ownEdges table info value).map Prod.snd := by
    conv_lhs => rw [← @withEdges_snd none info.partitions]
    rw [List.find?_map]
    rfl
  rw [partitionChildForValue, hkind] at hchild ⊢
  dsimp only at hchild ⊢
  rw [hfind] at hchild ⊢
  cases hown : ownEdges table info value with
  | none => exact absurd (by rw [hown]; rfl) hchild
  | some p => exact ⟨p, rfl, List.mem_of_find?_eq_some hown, rfl⟩

theorem ownList_of_child (hkind : info.kind = .list)
    (hchild : partitionChildForValue table info value ≠ []) :
    ∃ d, ownList table info value = some d ∧ d ∈ info.partitions ∧
      partitionChildForValue table info value = d.childTable := by
  rw [partitionChildForValue, hkind] at hchild ⊢
  dsimp only at hchild ⊢
  change ((ownList table info value).map _).getD [] ≠ [] at hchild
  change ∃ d, _ ∧ _ ∧ ((ownList table info value).map _).getD [] = _
  cases hown : ownList table info value with
  | none => exact absurd (by rw [hown]; rfl) hchild
  | some d => exact ⟨d, rfl, List.mem_of_find?_eq_some hown, rfl⟩

/-- The partition of a value is read when it meets the range, or no partition does. -/
theorem mem_prune_range (hkind : info.kind = .range) (hnames : WellNamed info)
    (hp : p ∈ withEdges none info.partitions) (cond : CondExpr ε) :
    p.2.childTable ∈ prunePartitionChildren table info (some cond) ↔
      (∀ b ∈ (extractPkGapRange table (some cond) info.column).bounds, passes table b p) ∨
        ∀ q ∈ withEdges none info.partitions,
          ∃ b ∈ (extractPkGapRange table (some cond) info.column).bounds,
            passes table b q = false := by
  have hall : info.partitions.map (·.childTable) =
      (withEdges none info.partitions).map (·.2.childTable) := by
    conv_lhs => rw [← @withEdges_snd none info.partitions]
    rw [List.map_map]
    rfl
  have hnodup := hnames.nodup
  rw [prunePartitionChildren, hkind]
  dsimp only
  generalize extractPkGapRange table (some cond) info.column = qr
  rw [hall] at hnodup ⊢
  split_ifs with hfree
  · have hbounds : qr.bounds = [] := by rw [GapRange.bounds, hfree.1, hfree.2]; rfl
    rw [hbounds]
    exact iff_of_true (List.mem_map_of_mem hp) (.inl fun _ h => absurd h List.not_mem_nil)
  · have hfalse (q : Option Bytes × PartitionDef) : overlaps table qr q = false ↔
        ∃ b ∈ qr.bounds, passes table b q = false := by
      rw [← Bool.not_eq_true, overlaps_iff]
      simp only [not_forall, Bool.not_eq_true, exists_prop]
    refine (mem_orAll hnodup hp).trans ?_
    simp only [overlaps_iff, hfalse]

theorem mem_prune_list (hkind : info.kind = .list) (hnames : WellNamed info) {d : PartitionDef}
    (hd : d ∈ info.partitions) (cond : CondExpr ε) :
    d.childTable ∈ prunePartitionChildren table info (some cond) ↔
      ∀ literals, findEqOrInValues cond info.column = some literals →
        literals.any (d.lists table) ∨
          ∀ e ∈ info.partitions, literals.any (e.lists table) = false := by
  rw [prunePartitionChildren, hkind]
  dsimp only
  cases findEqOrInValues cond info.column with
  | none => exact iff_of_true (List.mem_map_of_mem hd) fun _ h => by cases h
  | some literals =>
    refine (mem_orAll hnames.nodup hd).trans ⟨fun h ls hls => ?_, fun h => h literals rfl⟩
    obtain rfl := Option.some.inj hls
    exact h

theorem bucket_lt (v : Bytes) (h : info.partitions ≠ []) :
    bucket info.partitions.length v < info.partitions.length := by
  have hpos : 0 < (info.partitions.length : ℤ) :=
    Int.natCast_pos.mpr (List.length_pos_of_ne_nil h)
  have hlt := Int.emod_lt_of_pos ((stoll v).getD 0) hpos
  have hle := Int.emod_nonneg ((stoll v).getD 0) hpos.ne'
  rw [bucket]
  omega

theorem hash_child (hkind : info.kind = .hash) (v : Bytes) (h : info.partitions ≠ []) :
    partitionChildForValue table info v =
      (info.partitions.get ⟨bucket info.partitions.length v, bucket_lt v h⟩).childTable := by
  rw [partitionChildForValue, hkind]
  dsimp only
  rw [List.getElem?_eq_getElem (bucket_lt v h)]
  rfl

/-- A literal is read in the bucket of the value when the two are in one bucket. -/
theorem mem_prune_hash (hkind : info.kind = .hash) (hnames : WellNamed info)
    (hchild : partitionChildForValue table info value ≠ []) (cond : CondExpr ε) :
    partitionChildForValue table info value ∈ prunePartitionChildren table info (some cond) ↔
      ∀ literal, findEqOrInValues cond info.column = some [literal] →
        bucket info.partitions.length literal = bucket info.partitions.length value := by
  have hsome : info.partitions ≠ [] := by
    rintro hnil
    rw [partitionChildForValue, hkind, hnil] at hchild
    exact hchild rfl
  have hall : partitionChildForValue table info value ∈ info.partitions.map (·.childTable) := by
    rw [hash_child hkind value hsome]
    exact List.mem_map_of_mem (List.get_mem ..)
  have hone (v : Bytes) : partitionChildForValue table info v ≠ [] := by
    rw [hash_child hkind v hsome]
    exact hnames.named _ (List.get_mem ..)
  have hsame (v : Bytes) :
      partitionChildForValue table info value = partitionChildForValue table info v ↔
        bucket info.partitions.length v = bucket info.partitions.length value := by
    rw [hash_child hkind value hsome, hash_child hkind v hsome]
    constructor
    · intro h
      have hinj := List.nodup_iff_injective_get.mp (List.Nodup.of_map _ hnames.nodup)
      have hget := List.inj_on_of_nodup_map hnames.nodup (List.get_mem ..) (List.get_mem ..) h
      exact (Fin.mk.inj (hinj hget)).symm
    · intro h
      congr 2
      exact Fin.ext h.symm
  rw [prunePartitionChildren, hkind]
  dsimp only
  cases findEqOrInValues cond info.column with
  | none => exact iff_of_true hall fun _ h => by cases h
  | some literals =>
    match literals with
    | [] => exact iff_of_true hall fun _ h => by cases h
    | [literal] =>
      dsimp only
      rw [if_neg (hone literal), List.mem_singleton, hsame]
      exact ⟨fun h l hl => by cases hl; exact h, fun h => h literal rfl⟩
    | _ :: _ :: _ => exact iff_of_true hall fun _ h => by cases h

end

section

variable {table : Table} {ε : Type} {info : PartitionBy} {value : Bytes}

def Looked (column : Bytes) (leaf : Condition ε) : Prop :=
  leaf.bounds column ≠ [] ∨ leaf.values column ≠ none

theorem findEqOrInValues_mem {cond : CondExpr ε} {column : Bytes} {literals : List Bytes}
    (h : findEqOrInValues cond column = some literals) :
    ∃ leaf ∈ cond.andLeaves, leaf.values column = some literals :=
  List.exists_of_findSome?_eq_some h

theorem findEqOrInValues_leaf (leaf : Condition ε) (column : Bytes) :
    findEqOrInValues (.leaf leaf) column = leaf.values column := by
  rw [findEqOrInValues, CondExpr.andLeaves, List.findSome?_cons]
  cases leaf.values column <;> rfl

theorem mem_prune_of_fits (hnames : WellNamed info)
    (hchild : partitionChildForValue table info value ≠ []) {cond : CondExpr ε}
    (h : ∀ leaf ∈ cond.andLeaves, Looked info.column leaf → Fits table info value leaf) :
    partitionChildForValue table info value ∈ prunePartitionChildren table info (some cond) := by
  cases hkind : info.kind with
  | range =>
    obtain ⟨p, hown, hp, hname⟩ := ownEdges_of_child hkind hchild
    rw [hname, mem_prune_range hkind hnames hp]
    by_contra hout
    rw [not_or, not_forall] at hout
    obtain ⟨⟨b, hb⟩, hsome⟩ := hout
    rw [Classical.not_imp] at hb
    obtain ⟨leaf, hleaf, hbound⟩ := extract_bounds hb.1
    have hfits := h leaf hleaf (.inl (List.ne_nil_of_mem hbound))
    rw [Fits, hkind] at hfits
    rcases hfits p hown b hbound with hpass | hnone
    · exact hb.2 hpass
    · exact hsome fun q hq => ⟨b, hb.1, hnone q hq⟩
  | list =>
    obtain ⟨d, hown, hd, hname⟩ := ownList_of_child hkind hchild
    rw [hname, mem_prune_list hkind hnames hd]
    intro literals hliterals
    obtain ⟨leaf, hleaf, hvalues⟩ := findEqOrInValues_mem hliterals
    have hfits := h leaf hleaf (.inr (by rw [hvalues]; exact Option.some_ne_none _))
    rw [Fits, hkind] at hfits
    exact hfits d hown literals hvalues
  | hash =>
    rw [mem_prune_hash hkind hnames hchild]
    intro literal hliteral
    obtain ⟨leaf, hleaf, hvalues⟩ := findEqOrInValues_mem hliteral
    have hfits := h leaf hleaf (.inr (by rw [hvalues]; exact Option.some_ne_none _))
    rw [Fits, hkind] at hfits
    exact hfits literal hvalues

/-- Where the partition of the value is read for an equality, it reaches beyond both bounds, or none
ends above the literal. -/
theorem passes_of_equality {w : Bytes} (hp : p ∈ withEdges none info.partitions)
    (h : (∀ b ∈ [(⟨w, true, true⟩ : Bound), ⟨w, false, true⟩], passes table b p) ∨
      ∀ q ∈ withEdges none info.partitions,
        ∃ b ∈ [(⟨w, true, true⟩ : Bound), ⟨w, false, true⟩], passes table b q = false) :
    ∀ b ∈ [(⟨w, true, true⟩ : Bound), ⟨w, false, true⟩], passes table b p ∨
      ∀ q ∈ withEdges none info.partitions, passes table b q = false := by
  rcases h with h | h
  · exact fun b hb => .inl (h b hb)
  · have hnone : ∀ q ∈ withEdges none info.partitions, passes table ⟨w, true, true⟩ q = false := by
      by_contra hsome
      simp only [not_forall, Bool.not_eq_false] at hsome
      obtain ⟨q, hq, hpass⟩ := hsome
      obtain ⟨r, hr, hlow, hhigh⟩ := exists_around (fun _ => rfl) ⟨q, hq, hpass⟩
      obtain ⟨b, hb, hfails⟩ := h r hr
      rcases List.mem_cons.mp hb with rfl | hb
      · rw [hlow] at hfails
        cases hfails
      · rw [List.mem_singleton.mp hb, hhigh] at hfails
        cases hfails
    intro b hb
    rcases List.mem_cons.mp hb with rfl | hb
    · exact .inr hnone
    · obtain rfl := List.mem_singleton.mp hb
      refine .inl ?_
      -- a partition that begins above the literal follows one that ends above it
      obtain ⟨lower, d⟩ := p
      cases lower with
      | none => rfl
      | some u =>
        rcases exists_of_lowerEdge hp with hprev | ⟨q, hq, hbound⟩
        · cases hprev
        · rw [← hbound]
          refine passes_next d ?_
          rw [hnone q hq]
          exact Bool.false_ne_true

theorem fits_of_mem_prune (hnames : WellNamed info)
    (hchild : partitionChildForValue table info value ≠ []) {leaf : Condition ε}
    (h : partitionChildForValue table info value ∈
      prunePartitionChildren table info (some (.leaf leaf))) :
    Fits table info value leaf ∨ (info.kind = .range ∧ MeetsNone table info leaf) := by
  rw [Fits]
  cases hkind : info.kind with
  | range =>
    obtain ⟨p, hown, hp, hname⟩ := ownEdges_of_child hkind hchild
    rw [hname, mem_prune_range hkind hnames hp, extract_leaf_bounds] at h
    dsimp only
    have hall (hfits : ∀ b ∈ leaf.bounds info.column, passes table b p ∨
        ∀ q ∈ withEdges none info.partitions, passes table b q = false) :
        ∀ p', ownEdges table info value = some p' → ∀ b ∈ leaf.bounds info.column,
          passes table b p' ∨
            ∀ q ∈ withEdges none info.partitions, passes table b q = false := fun p' hp' => by
      obtain rfl := Option.some.inj (hown.symm.trans hp')
      exact hfits
    rcases bounds_cases info.column leaf with hb | ⟨b, hb⟩ | ⟨w, _, hb, rfl | hop⟩
    · refine .inl (hall fun b hmem => ?_)
      rw [hb] at hmem
      cases hmem
    · refine .inl (hall ?_)
      rw [hb] at h ⊢
      simpa using h
    · refine .inl (hall ?_)
      rw [hb] at h ⊢
      exact passes_of_equality hp h
    · rcases h with h | h
      · exact .inl (hall fun b hmem => .inl (h b hmem))
      · exact .inr ⟨rfl, hop, h⟩
  | list =>
    obtain ⟨d, hown, hd, hname⟩ := ownList_of_child hkind hchild
    rw [hname, mem_prune_list hkind hnames hd, findEqOrInValues_leaf] at h
    refine .inl fun d' hd' => ?_
    obtain rfl := Option.some.inj (hown.symm.trans hd')
    exact h
  | hash =>
    rw [mem_prune_hash hkind hnames hchild, findEqOrInValues_leaf] at h
    exact .inl h

/-- The value of the partition column in a row, and that it has a partition. -/
structure Routed (table : Table) (info : PartitionBy) (row : ByteRow) (value : Bytes) : Prop where
  holds : row.lookup info.column = some value
  notNull : value ≠ nullValue
  child : partitionChildForValue table info value ≠ []

/-- The partition of the row is read for every condition made of these comparisons of the column
that accepts the row. -/
def Kept (ev : Evaluator ε) (info : PartitionBy) (row : ByteRow)
    (comparisons : Set (Condition ε)) : Prop :=
  ∀ cond : CondExpr ε,
    (∀ leaf ∈ cond.andLeaves, Looked info.column leaf → leaf ∈ comparisons) →
    ev.evalCondexpr row cond → ∀ value, Routed ev.table info row value →
      partitionChildForValue ev.table info value ∈ prunePartitionChildren ev.table info (some cond)

/-- Pruning hides no matching row if every comparison that accepts the row leaves its partition. A
comparison that accepts the row and does not leave it hides the row, but for a BETWEEN after which
no partition is left. -/
theorem prune_keeps_iff (ev : Evaluator ε) (hnames : WellNamed info) (row : ByteRow)
    (comparisons : Set (Condition ε)) :
    ((∀ leaf ∈ comparisons, ev.evalSingle3 row leaf = .true → ∀ value,
        Routed ev.table info row value → Fits ev.table info value leaf) →
      Kept ev info row comparisons) ∧
    (Kept ev info row comparisons → ∀ leaf ∈ comparisons, ev.evalSingle3 row leaf = .true →
      ∀ value, Routed ev.table info row value → Fits ev.table info value leaf ∨
        (info.kind = .range ∧ MeetsNone ev.table info leaf)) := by
  constructor
  · intro h cond hcond haccepts value hvalue
    refine mem_prune_of_fits hnames hvalue.child fun leaf hleaf hlooked => ?_
    exact h leaf (hcond leaf hleaf hlooked) (evalSingle3_of_andLeaves ev haccepts leaf hleaf)
      value hvalue
  · intro h leaf hleaf haccepts value hvalue
    refine fits_of_mem_prune hnames hvalue.child
      (h (.leaf leaf) (fun l hl _ => ?_) (beq_iff_eq.mpr haccepts) value hvalue)
    rwa [List.mem_singleton.mp hl]

/-- A partition of the column `k`. -/
def partitionOf (bound : Option Bytes) (listed : List Bytes) (child : Byte) : PartitionDef where
  rangeUpperBound := bound
  rangeIsMaxvalue := bound.isNone
  listValues := listed
  childTable := [child]

/-- `LESS THAN ('5')` and `LESS THAN MAXVALUE`. -/
def byRange : PartitionBy where
  kind := .range
  column := [0x6B]
  partitions := [partitionOf (some [0x35]) [] 0x61, partitionOf none [] 0x62]

/-- `IN (1)` and `IN (2)`. -/
def byList : PartitionBy where
  kind := .list
  column := [0x6B]
  partitions := [partitionOf none [[0x31]] 0x61, partitionOf none [[0x32]] 0x62]

/-- Four buckets. -/
def byHash : PartitionBy where
  kind := .hash
  column := [0x6B]
  partitions := [partitionOf none [] 0x61, partitionOf none [] 0x62, partitionOf none [] 0x63,
    partitionOf none [] 0x64]

/-- A value in a list of numbers. -/
def inCondition (literals : List Bytes) : Condition Empty where
  left := .column (keyColumn .number)
  op := .isIn
  value := .literalList (literals.map (·, false))
  leftClass := .unknown
  rightClass := .unknown

/-- Whether the row with the value is accepted, and whether its partition is read. -/
def acceptedAndRead (info : PartitionBy) (leaf : Condition Empty) (value : Bytes) : Bool × Bool :=
  (plainEvaluator.evalCondexpr (keyRow value) (.leaf leaf),
    decide (partitionChildForValue plainEvaluator.table info value ∈
      prunePartitionChildren plainEvaluator.table info (some (.leaf leaf))))

theorem byList_kept :
    Kept plainEvaluator byList (keyRow [0x31]) {keyCondition .number .eq [0x31] false} := by
  refine (prune_keeps_iff plainEvaluator ⟨by decide, by decide⟩ _ _).1 fun leaf hleaf _ value hvalue
    => ?_
  obtain rfl : leaf = keyCondition .number .eq [0x31] false := hleaf
  obtain rfl : [0x31] = value := by
    have hlookup := hvalue.holds
    rw [keyRow, show byList.column = [0x6B] from rfl, Finmap.lookup_singleton_eq] at hlookup
    exact Option.some.inj hlookup
  intro d hd literals hliterals
  cases hd
  cases hliterals
  exact .inl (by decide)

/-- `k < '2'` for the text `10`, `k IN (1.0, 2)` for the number 1 and `k = '1e1'` for the number 10
are true, and the partitions of these values are not read. -/
theorem partitions_hide :
    acceptedAndRead byRange (keyCondition .text .lt [0x32] true) [0x31, 0x30] = (true, false) ∧
      acceptedAndRead byList (inCondition [[0x31, 0x2E, 0x30], [0x32]]) [0x31] = (true, false) ∧
      acceptedAndRead byHash (keyCondition .number .eq [0x31, 0x65, 0x31] true) [0x31, 0x30] =
        (true, false) := by
  refine ⟨?_, ?_, ?_⟩ <;> decide +kernel

end

end RusqlEngine.Where
