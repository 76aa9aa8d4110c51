import RusqlEngine.OrderCells

/-!
# Where ORDER BY sorts by one real order

The items of an `ORDER BY` decide in turn. All relations of the source are strict weak orders, and
those of a table agree, for every list of items over some columns exactly where the texts of each
column compare alike and in order, and a row that lacks a column ties with all others.
-/

namespace RusqlEngine.OrderRows

open WeakOrder UnicodeCollation
open Buffer (Bytes)
open RowList (Consistent)
open Std (OrientedCmp)

/-- The comparison of an item, given that of the texts of a class. -/
def itemOrder (cmp : ValueClass → Bytes → Bytes → Ordering) (lookup : RowLookup) (ord : OrderBy)
    (a b : ByteRow) : Ordering :=
  directed ord.ascending (cmp ord.cls (textAt lookup ord.column a) (textAt lookup ord.column b))

/-- The comparison of a list of items. -/
def rowsOrder (cmp : ValueClass → Bytes → Bytes → Ordering) (lookup : RowLookup)
    (orderBy : List OrderBy) (a b : ByteRow) : Ordering :=
  inTurn a b (orderBy.map (itemOrder cmp lookup))

def ascendingParts (orderBy : List OrderBy) : List OrderBy :=
  orderBy.map fun ord => { ord with ascending := true }

def Over (parts : Set (Bytes × ValueClass)) (orderBy : List OrderBy) : Prop :=
  ∀ ord ∈ orderBy, (ord.column, ord.cls) ∈ parts

/-- The relations of the source are strict weak orders, and those of a table agree; the parts of a
key are ascending. -/
structure RealOrder (table : Table) (lookup : RowLookup) (rows : List ByteRow)
    (orderBy : List OrderBy) : Prop where
  scan : StrictWeakOn (orderRowsLess table lookup orderBy) rows
  grouped : StrictWeakOn (fun a b => rowOrderLess table lookup a b orderBy) rows
  key : StrictWeakOn (fun a b => !beforeOrEqual table lookup b a orderBy) rows
  sets : StrictWeakOn (fun a b => SetOps.rowOrderLess table a b orderBy) rows
  grouped_eq : ∀ a ∈ rows, ∀ b ∈ rows,
    rowOrderLess table lookup a b orderBy = orderRowsLess table lookup orderBy a b
  key_eq : ∀ a ∈ rows, ∀ b ∈ rows,
    (!beforeOrEqual table lookup b a orderBy) =
      orderRowsLess table lookup (ascendingParts orderBy) a b

/-- The texts of a column of a class, and those of the rows that have it, sort alike everywhere. -/
structure SortsAlike (table : Table) (cls : ValueClass)
    (texts present : List Bytes) : Prop where
  alike : ∀ a ∈ texts, ∀ b ∈ texts, TextsAlike table cls a b
  keys : ∀ a ∈ present, ∀ b ∈ present, KeysAlike table cls a b
  apart : FractionsApart (texts.filter (numeric cls))
  separated : Separated (numeric cls) numericOrder (compare table) texts

/-- Every column of the set sorts alike everywhere. -/
structure ColumnsSort (table : Table) (lookup : RowLookup) (rows : List ByteRow)
    (parts : Set (Bytes × ValueClass)) : Prop where
  columns : ∀ part ∈ parts, SortsAlike table part.2 (rows.map (textAt lookup part.1))
    (rows.filterMap fun row => lookup row part.1)
  sets : ∀ part ∈ parts, Separated (fun s => (NumericText.parseNumber s).isSome) doubleOrder
    (compare table) (rows.map (textAt SetOps.find part.1))
  /-- A row without a column ties with all others in all columns. -/
  complete : ∀ part ∈ parts, ∀ row ∈ rows, lookup row part.1 = none → ∀ other ∈ parts,
    ∀ row' ∈ rows, cellOrder table other.2 (textAt lookup other.1 row)
      (textAt lookup other.1 row') = .eq

variable {table : Table} {lookup : RowLookup} {rows : List ByteRow}
  {parts : Set (Bytes × ValueClass)} {cmp cmp' : ValueClass → Bytes → Bytes → Ordering}
  {orderBy rest : List OrderBy} {ord : OrderBy} {a b : ByteRow} {column : Bytes} {cls : ValueClass}

/-! ### Items in turn -/

theorem Over.tail (h : Over parts (ord :: rest)) : Over parts rest :=
  fun o ho => h o (.tail _ ho)

theorem Over.ascending (h : Over parts orderBy) : Over parts (ascendingParts orderBy) := by
  intro ord hord
  obtain ⟨part, hpart, rfl⟩ := List.mem_map.mp hord
  exact h part hpart

theorem rowsOrder_nil : rowsOrder cmp lookup [] a b = .eq :=
  rfl

theorem rowsOrder_cons : rowsOrder cmp lookup (ord :: rest) a b =
    (itemOrder cmp lookup ord a b).then (rowsOrder cmp lookup rest a b) :=
  rfl

theorem decides_iff {c o : Ordering} {less : Bool} (h : less ↔ o = .lt) :
    (if c ≠ .eq then decide (c = .lt) else less) ↔ c.then o = .lt := by
  cases c <;> simp [h]

theorem rowOrderLess_iff : rowOrderLess table lookup a b orderBy ↔
    rowsOrder (groupedOrder table) lookup orderBy a b = .lt := by
  induction orderBy with
  | nil => exact iff_of_false Bool.false_ne_true (by rw [rowsOrder_nil]; decide)
  | cons ord rest ih =>
    rw [rowsOrder_cons, itemOrder, ← cmpKey_eq]
    exact decides_iff ih

theorem orderRowsLess_iff : orderRowsLess table lookup orderBy a b ↔
    rowsOrder (cellOrder table) lookup orderBy a b = .lt := by
  induction orderBy with
  | nil => exact iff_of_false Bool.false_ne_true (by rw [rowsOrder_nil]; decide)
  | cons ord rest ih =>
    rw [rowsOrder_cons, itemOrder, ← compareCells_readCell]
    exact decides_iff ih

theorem orderRowsLess_ascending : orderRowsLess table lookup (ascendingParts (ord :: rest)) a b =
    let c := cellOrder table ord.cls (textAt lookup ord.column a) (textAt lookup ord.column b)
    if c ≠ .eq then decide (c = .lt) else
      orderRowsLess table lookup (ascendingParts rest) a b := by
  rw [← compareCells_readCell]
  rfl

theorem setOps_rowOrderLess_iff : SetOps.rowOrderLess table a b orderBy ↔
    rowsOrder (fun _ => setOrder table) SetOps.find orderBy a b = .lt := by
  induction orderBy with
  | nil => exact iff_of_false Bool.false_ne_true (by rw [rowsOrder_nil]; decide)
  | cons ord rest ih =>
    rw [rowsOrder_cons, itemOrder, ← setOps_cmpKey_eq]
    exact decides_iff ih

theorem directed_swap {ascending : Bool} {c : Ordering} :
    directed ascending c.swap = (directed ascending c).swap := by
  cases ascending <;> rfl

theorem rowsOrder_swap (h : ∀ cls, OrientedCmp (cmp cls)) : rowsOrder cmp lookup orderBy b a =
    (rowsOrder cmp lookup orderBy a b).swap := by
  induction orderBy with
  | nil => rfl
  | cons ord rest ih =>
    rw [rowsOrder_cons, rowsOrder_cons, Ordering.swap_then, ← ih, itemOrder, itemOrder,
      ← directed_swap, ← OrientedCmp.eq_swap]

theorem rowsOrder_congr (ha : a ∈ rows) (hb : b ∈ rows) (hover : Over parts orderBy)
    (h : ∀ part ∈ parts, ∀ x ∈ rows.map (textAt lookup part.1),
      ∀ y ∈ rows.map (textAt lookup part.1), cmp part.2 x y = cmp' part.2 x y) :
    rowsOrder cmp lookup orderBy a b = rowsOrder cmp' lookup orderBy a b := by
  induction orderBy with
  | nil => rfl
  | cons ord rest ih =>
    rw [rowsOrder_cons, rowsOrder_cons, ih hover.tail, itemOrder, itemOrder,
      h _ (hover ord List.mem_cons_self) _ (List.mem_map_of_mem ha) _ (List.mem_map_of_mem hb)]

theorem consistent_rowsOrder (hover : Over parts orderBy)
    (h : ∀ part ∈ parts, Consistent (cmp part.2) (rows.map (textAt lookup part.1))) :
    Consistent (rowsOrder cmp lookup orderBy) rows := by
  refine consistent_inTurn fun c hc => ?_
  obtain ⟨ord, hord, rfl⟩ := List.mem_map.mp hc
  have hitem := consistent_map.mp (h _ (hover ord hord))
  cases hdir : ord.ascending with
  | true =>
    refine hitem.congr fun a _ b _ => ?_
    rw [itemOrder, hdir]
    rfl
  | false =>
    refine (consistent_swap hitem).congr fun a _ b _ => ?_
    rw [itemOrder, hdir]
    rfl

theorem rowsOrder_item : rowsOrder cmp lookup [⟨column, true, cls⟩] a b =
    cmp cls (textAt lookup column a) (textAt lookup column b) :=
  Ordering.then_eq

/-! ### Sorting alike is enough -/

namespace ColumnsSort

variable (h : ColumnsSort table lookup rows parts) (hover : Over parts orderBy)
include h

theorem consistent : ∀ part ∈ parts,
    Consistent (cellOrder table part.2) (rows.map (textAt lookup part.1)) :=
  fun part hpart =>
    consistent_cellOrder_iff.mpr ⟨(h.columns part hpart).apart, (h.columns part hpart).separated⟩

include hover

theorem scan : StrictWeakOn (orderRowsLess table lookup orderBy) rows :=
  (strictWeakOn_iff (fun _ _ _ _ => orderRowsLess_iff)
    fun _ _ _ _ => rowsOrder_swap fun _ => inferInstance).mpr
    (consistent_rowsOrder hover h.consistent)

theorem grouped_eq (ha : a ∈ rows) (hb : b ∈ rows) :
    rowOrderLess table lookup a b orderBy = orderRowsLess table lookup orderBy a b := by
  have heq : rowsOrder (cellOrder table) lookup orderBy a b =
      rowsOrder (groupedOrder table) lookup orderBy a b :=
    rowsOrder_congr ha hb hover fun part hpart x hx y hy =>
      groupedOrder_eq_iff.mpr ((h.columns part hpart).alike x hx y hy)
  rw [Bool.eq_iff_iff, rowOrderLess_iff, orderRowsLess_iff, heq]

theorem sets' : StrictWeakOn (fun a b => SetOps.rowOrderLess table a b orderBy) rows :=
  (strictWeakOn_iff (fun _ _ _ _ => setOps_rowOrderLess_iff)
    fun _ _ _ _ => rowsOrder_swap fun _ => inferInstance).mpr
    (consistent_rowsOrder hover fun part hpart => consistent_setOrder_iff.mpr (h.sets part hpart))

theorem tie {part : Bytes × ValueClass} (hpart : part ∈ parts) (ha : a ∈ rows) (hb : b ∈ rows)
    (hnone : lookup a part.1 = none ∨ lookup b part.1 = none) :
    rowsOrder (cellOrder table) lookup orderBy a b = .eq := by
  refine inTurn_eq_eq.mpr fun c hc => ?_
  obtain ⟨ord, hord, rfl⟩ := List.mem_map.mp hc
  have heq : cellOrder table ord.cls (textAt lookup ord.column a) (textAt lookup ord.column b) =
      .eq := by
    rcases hnone with hnone | hnone
    · exact h.complete part hpart a ha hnone _ (hover ord hord) b hb
    · exact OrientedCmp.eq_symm (h.complete part hpart b hb hnone _ (hover ord hord) a ha)
  rw [itemOrder, heq]
  cases ord.ascending <;> rfl

theorem key_eq (ha : a ∈ rows) (hb : b ∈ rows) : (!beforeOrEqual table lookup b a orderBy) =
    orderRowsLess table lookup (ascendingParts orderBy) a b := by
  induction orderBy with
  | nil => rfl
  | cons part rest ih =>
    have hpart := hover part List.mem_cons_self
    by_cases hnone : lookup a part.column = none ∨ lookup b part.column = none
    · have htie := h.tie hover.ascending hpart ha hb hnone
      have hbefore : beforeOrEqual table lookup b a (part :: rest) := by
        rw [beforeOrEqual]
        split
        next x y hx hy =>
          rw [hx, hy] at hnone
          exact absurd hnone (by simp)
        next => rfl
      rw [hbefore, Bool.not_true, eq_comm, ← Bool.not_eq_true, orderRowsLess_iff, htie]
      decide
    · rw [not_or] at hnone
      obtain ⟨x, hx⟩ := Option.ne_none_iff_exists'.mp hnone.1
      obtain ⟨y, hy⟩ := Option.ne_none_iff_exists'.mp hnone.2
      have hcmp : compareKeyPart table part.cls y x = (cellOrder table part.cls x y).swap := by
        rw [← OrientedCmp.eq_swap]
        exact compareKeyPart_eq_iff.mpr ((h.columns _ hpart).keys y
          (List.mem_filterMap.mpr ⟨b, hb, hy⟩) x (List.mem_filterMap.mpr ⟨a, ha, hx⟩))
      rw [beforeOrEqual, hy, hx, orderRowsLess_ascending, textAt, textAt, hx, hy, ← ih hover.tail]
      change (!if compareKeyPart table part.cls y x ≠ .eq then
        decide (compareKeyPart table part.cls y x = .lt) else _) = _
      rw [hcmp, Option.getD_some, Option.getD_some]
      cases cellOrder table part.cls x y <;> simp

theorem realOrder : RealOrder table lookup rows orderBy where
  scan := h.scan hover
  grouped := by
    have hless : ∀ a ∈ rows, ∀ b ∈ rows, (rowOrderLess table lookup a b orderBy ↔
        rowsOrder (cellOrder table) lookup orderBy a b = .lt) := fun a ha b hb => by
      rw [h.grouped_eq hover ha hb, orderRowsLess_iff]
    exact (strictWeakOn_iff hless fun _ _ _ _ => rowsOrder_swap fun _ => inferInstance).mpr
      (consistent_rowsOrder hover h.consistent)
  key := by
    have hless : ∀ a ∈ rows, ∀ b ∈ rows, ((!beforeOrEqual table lookup b a orderBy) ↔
        rowsOrder (cellOrder table) lookup (ascendingParts orderBy) a b = .lt) :=
      fun a ha b hb => by
      rw [h.key_eq hover ha hb, orderRowsLess_iff]
    exact (strictWeakOn_iff hless fun _ _ _ _ => rowsOrder_swap fun _ => inferInstance).mpr
      (consistent_rowsOrder hover.ascending h.consistent)
  sets := h.sets' hover
  grouped_eq a ha b hb := h.grouped_eq hover ha hb
  key_eq a ha b hb := h.key_eq hover ha hb

end ColumnsSort

/-! ### Sorting alike is needed -/

section

variable (h : ∀ orderBy, Over parts orderBy → RealOrder table lookup rows orderBy)
  {part other : Bytes × ValueClass} (hpart : part ∈ parts)

def itemOf (part : Bytes × ValueClass) : OrderBy :=
  ⟨part.1, true, part.2⟩

include hpart

theorem over_item : Over parts [itemOf part] := by
  intro ord hord
  rw [List.mem_singleton.mp hord]
  exact hpart

include h

theorem consistent_of_real :
    Consistent (cellOrder table part.2) (rows.map (textAt lookup part.1)) := by
  have hscan := (strictWeakOn_iff (fun _ _ _ _ => orderRowsLess_iff)
    fun _ _ _ _ => rowsOrder_swap fun _ => inferInstance).mp (h _ (over_item hpart)).scan
  exact consistent_map.mpr (hscan.congr fun _ _ _ _ => rowsOrder_item.symm)

theorem consistent_sets_of_real :
    Consistent (setOrder table) (rows.map (textAt SetOps.find part.1)) := by
  have hsets := (strictWeakOn_iff (fun _ _ _ _ => setOps_rowOrderLess_iff)
    fun _ _ _ _ => rowsOrder_swap fun _ => inferInstance).mp (h _ (over_item hpart)).sets
  have hitem (a b : ByteRow) : rowsOrder (fun _ => setOrder table) SetOps.find [itemOf part] a b =
      setOrder table (textAt SetOps.find part.1 a) (textAt SetOps.find part.1 b) := rowsOrder_item
  exact consistent_map.mpr (hsets.congr fun a _ b _ => (hitem a b).symm)

theorem textsAlike_of_real (ha : a ∈ rows) (hb : b ∈ rows) :
    TextsAlike table part.2 (textAt lookup part.1 a) (textAt lookup part.1 b) := by
  have hlt : ∀ a ∈ rows, ∀ b ∈ rows,
      (cellOrder table part.2 (textAt lookup part.1 a) (textAt lookup part.1 b) = .lt ↔
        groupedOrder table part.2 (textAt lookup part.1 a) (textAt lookup part.1 b) = .lt) := by
    intro a ha b hb
    have heq := (h _ (over_item hpart)).grouped_eq a ha b hb
    rw [Bool.eq_iff_iff, rowOrderLess_iff, orderRowsLess_iff, itemOf, rowsOrder_item,
      rowsOrder_item] at heq
    exact heq.symm
  exact groupedOrder_eq_iff.mp (eq_of_lt_iff (hlt a ha b hb) (hlt b hb a ha)
    OrientedCmp.eq_swap OrientedCmp.eq_swap)

theorem keysAlike_of_real {x y : Bytes} (ha : a ∈ rows) (hb : b ∈ rows)
    (hx : lookup a part.1 = some x) (hy : lookup b part.1 = some y) :
    KeysAlike table part.2 x y := by
  have hlt : ∀ a ∈ rows, ∀ b ∈ rows, ∀ x y, lookup a part.1 = some x → lookup b part.1 = some y →
      (compareKeyPart table part.2 x y = .lt ↔ cellOrder table part.2 x y = .lt) := by
    intro a ha b hb x y hx hy
    have heq := (h _ (over_item hpart)).key_eq a ha b hb
    have hbefore : beforeOrEqual table lookup b a [itemOf part] ↔
        compareKeyPart table part.2 x y ≠ .lt := by
      rw [beforeOrEqual, itemOf, hx, hy]
      change (if compareKeyPart table part.2 y x ≠ .eq then
        decide (compareKeyPart table part.2 y x = .lt) else true) = true ↔ _
      rw [compareKeyPart_swap (a := x)]
      cases compareKeyPart table part.2 x y <;> simp
    rw [Bool.eq_iff_iff, Bool.not_eq_true', ← Bool.not_eq_true, hbefore, not_not,
      orderRowsLess_iff] at heq
    refine heq.trans ?_
    change rowsOrder (cellOrder table) lookup [⟨part.1, true, part.2⟩] a b = .lt ↔ _
    rw [rowsOrder_item, textAt, textAt, hx, hy]
    rfl
  exact compareKeyPart_eq_iff.mp (eq_of_lt_iff (hlt a ha b hb x y hx hy)
    (hlt b hb a ha y x hy hx) compareKeyPart_swap OrientedCmp.eq_swap)

theorem tie_of_real (hother : other ∈ parts) (ha : a ∈ rows) (hb : b ∈ rows)
    (hnone : lookup a part.1 = none) :
    cellOrder table other.2 (textAt lookup other.1 a) (textAt lookup other.1 b) = .eq := by
  have hover : Over parts [itemOf part, itemOf other] := by
    intro ord hord
    rcases List.mem_pair.mp hord with rfl | rfl
    · exact hpart
    · exact hother
  have hbefore : ∀ a b, lookup a part.1 = none ∨ lookup b part.1 = none →
      beforeOrEqual table lookup a b [itemOf part, itemOf other] := by
    intro a b hnone
    rw [beforeOrEqual]
    split
    next x y hx hy =>
      rcases hnone with hnone | hnone
      · exact nomatch hx.symm.trans hnone
      · exact nomatch hy.symm.trans hnone
    next => rfl
  have hlt := (h _ hover).key_eq a ha b hb
  have hgt := (h _ hover).key_eq b hb a ha
  rw [hbefore b a (.inr hnone), Bool.not_true, eq_comm, ← Bool.not_eq_true,
    orderRowsLess_iff] at hlt
  rw [hbefore a b (.inl hnone), Bool.not_true, eq_comm, ← Bool.not_eq_true,
    orderRowsLess_iff, rowsOrder_swap (a := a) fun _ => inferInstance] at hgt
  have heq : rowsOrder (cellOrder table) lookup (ascendingParts [itemOf part, itemOf other]) a b =
      .eq := by
    revert hlt hgt
    cases rowsOrder (cellOrder table) lookup
      (ascendingParts [itemOf part, itemOf other]) a b <;> simp
  exact inTurn_eq_eq.mp heq _ (.tail _ List.mem_cons_self)

end

/-- Every list over the columns sorts by one real order exactly where the columns sort alike. -/
theorem realOrder_iff (table : UnicodeCollation.Table) (lookup : RowLookup) (rows : List ByteRow)
    (parts : Set (Bytes × ValueClass)) :
    (∀ orderBy, Over parts orderBy → RealOrder table lookup rows orderBy) ↔
      ColumnsSort table lookup rows parts := by
  constructor
  · intro h
    refine ⟨fun part hpart => ?_, fun part hpart =>
      consistent_setOrder_iff.mp (consistent_sets_of_real h hpart), fun part hpart a ha hnone
      other hother b hb => tie_of_real h hpart hother ha hb hnone⟩
    obtain ⟨hapart, hseparated⟩ := consistent_cellOrder_iff.mp (consistent_of_real h hpart)
    refine ⟨fun x hx y hy => ?_, fun x hx y hy => ?_, hapart, hseparated⟩
    · obtain ⟨a, ha, rfl⟩ := List.mem_map.mp hx
      obtain ⟨b, hb, rfl⟩ := List.mem_map.mp hy
      exact textsAlike_of_real h hpart ha hb
    · obtain ⟨a, ha, hx⟩ := List.mem_filterMap.mp hx
      obtain ⟨b, hb, hy⟩ := List.mem_filterMap.mp hy
      exact keysAlike_of_real h hpart ha hb hx hy
  · intro h orderBy hover
    exact h.realOrder hover

/-- `9007199254740992` is before `9007199254740993`, but `9007199254740992.0`, which is compared as
a double, ties with both. -/
theorem not_realOrder : ¬ RealOrder ⟨[], []⟩ SetOps.find
    [Finmap.singleton [0x6B] [0x39, 0x30, 0x30, 0x37, 0x31, 0x39, 0x39, 0x32, 0x35, 0x34, 0x37,
        0x34, 0x30, 0x39, 0x39, 0x32],
      Finmap.singleton [0x6B] [0x39, 0x30, 0x30, 0x37, 0x31, 0x39, 0x39, 0x32, 0x35, 0x34, 0x37,
        0x34, 0x30, 0x39, 0x39, 0x33],
      Finmap.singleton [0x6B] [0x39, 0x30, 0x30, 0x37, 0x31, 0x39, 0x39, 0x32, 0x35, 0x34, 0x37,
        0x34, 0x30, 0x39, 0x39, 0x32, 0x2E, 0x30]] [⟨[0x6B], true, .number⟩] := by
  intro h
  have hless := h.grouped.incomparable _ List.mem_cons_self _
    (List.mem_cons_of_mem _ (.tail _ List.mem_cons_self)) _
    (.tail _ List.mem_cons_self) (by decide +kernel) (by decide +kernel)
    (by decide +kernel) (by decide +kernel)
  exact absurd hless (by decide)

end RusqlEngine.OrderRows
