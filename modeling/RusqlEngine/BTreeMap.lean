import RusqlEngine.BTreeShape

/-!
# The B+Tree as a sorted map

A search follows one path; a range and a scan walk over the children and leave out those that a
separator shows to hold nothing of what is asked for. Each returns what the entries of the whole
tree, in their order, contain; and these entries are those of a map that every call changes at
one key.
-/

namespace RusqlEngine

open Std SortedMap

variable {κ ν : Type} (cmp : κ → κ → Ordering)

/-- The key lies from `lo` on up to `hi`. -/
def between (lo hi k : κ) : Bool :=
  (cmp lo k).isLE && (cmp k hi).isLE

/-- `a` is below `b`, or also at it. -/
def atMost (inclusive : Bool) (a b : κ) : Bool :=
  if inclusive then (cmp a b).isLE else cmp a b = .lt

namespace Node

variable {cmp} {lo hi : Option κ} {key from' upto stop start : κ} {inclusive : Bool}
  {entries : List (κ × ν)}

theorem searchAt_length (child : Node κ ν) (after : List (Node κ ν)) :
    ∀ before : List (Node κ ν), searchAt cmp key before.length (before ++ child :: after) =
      searchNode cmp key child
  | [] => rfl
  | _ :: before => searchAt_length child after before

variable [TransCmp cmp]

/-- The path of a key leads to its entry. -/
theorem searchNode_eq : ∀ {fewest depth : ℕ} {lo hi : Option κ} {node : Node κ ν},
    WF cmp fewest depth lo hi node → AtLeast cmp lo key → Under cmp key hi →
    searchNode cmp key node = (find cmp key (collectKv node)).map (·.2)
  | _, 0, _, _, .leaf _ _, _, _, _ => rfl
  | _, depth + 1, lo, hi, .internal keys children, h, hlo, hhi => by
      obtain ⟨front, back, before, child, after, a, b, rfl, rfl, hroute⟩ :=
        h.1.route (wf_bounded minKeys depth) hlo hhi
      rw [searchNode, hroute.childIndex_eq, searchAt_length, collectKv, collectKvs_around,
        find_between hroute.below hroute.above]
      exact searchNode_eq hroute.child hroute.atLeast hroute.under
  | _, 0, _, _, .internal _ _, h, _, _ => h.elim
  | _, _ + 1, _, _, .leaf _ _, h, _, _ => h.elim

theorem rangeLeaf_eq (h : Sorted cmp entries) :
    rangeLeaf cmp from' upto entries = entries.filter fun e => between cmp from' upto e.1 := by
  induction entries with
  | nil => rfl
  | cons e entries ih =>
    obtain ⟨habove, hrest⟩ := sorted_cons.mp h
    rw [rangeLeaf]
    split
    next hgt =>
      refine (List.filter_eq_nil_iff.mpr fun x hx hin => ?_).symm
      have hupto : cmp upto e.1 = .lt := OrientedCmp.lt_of_gt hgt
      have hx : cmp upto x.1 = .lt := by
        rcases List.mem_cons.mp hx with rfl | hx
        · exact hupto
        · exact TransCmp.lt_trans hupto (habove x hx)
      simp [between, OrientedCmp.gt_of_lt hx] at hin
    next hle =>
      have hle : (cmp e.1 upto).isLE := Ordering.isLE_iff_ne_gt.mpr hle
      rw [List.filter_cons, ih hrest, OrientedCmp.isGE_eq_isLE, between, hle, Bool.and_true]

end Node

section

variable (skip stop : κ → Bool) (read : Node κ ν → List (κ × ν))

/-- A walk over the children: a child is left out on the word of the key behind it, the walk ends on
that of the key before the next child. -/
def walkKids : Option κ → List κ → List (Node κ ν) → List (κ × ν)
  | _, _, [] => []
  | before, keys, child :: children =>
    if keys.head?.any skip then walkKids keys.head? keys.tail children
    else if before.any stop then []
    else read child ++ walkKids keys.head? keys.tail children

variable {cmp skip stop read} {P : Option κ → Option κ → Node κ ν → Prop} {p : κ → Bool}
  {lo hi : Option κ}

open Node

/-- The walk meets what is asked for: a key that leaves out a child is above all of it, and one that
ends the walk is below all that is left. -/
theorem walkKids_eq [TransCmp cmp] (hP : Bounded cmp P)
    (hskip : ∀ s k, skip s → cmp k s = .lt → p k = false)
    (hstop : ∀ s k, stop s → (cmp s k).isLE → p k = false)
    (hread : ∀ {lo hi : Option κ} {child : Node κ ν}, P lo hi child →
      read child = (collectKv child).filter fun e => p e.1) :
    ∀ {lo before : Option κ} {keys : List κ} {children : List (Node κ ν)},
      Kids cmp P lo hi keys children → (before = none ∨ before = lo) →
      walkKids skip stop read before keys children = (collectKvs children).filter fun e => p e.1
  | lo, before, [], [child], h, hbefore => by
      have hchild : P lo hi child := h
      rw [walkKids, List.head?_nil, Option.any_none, if_neg Bool.false_ne_true, collectKvs,
        collectKvs, List.append_nil, ← hread hchild]
      split
      next hend =>
        cases before with
        | none => cases hend
        | some s =>
          obtain rfl : some s = lo := hbefore.resolve_left (Option.some_ne_none s)
          rw [hread hchild]
          refine (List.filter_eq_nil_iff.mpr fun e he => ?_).symm
          simp [hstop s e.1 hend (hP.within hchild e he).1]
      next => exact List.append_nil _
  | lo, before, k :: keys, child :: children, h, hbefore => by
      have hwithin := h.within hP
      obtain ⟨-, -, hchild, hrest⟩ := h
      rw [walkKids, List.head?_cons, List.tail_cons,
        walkKids_eq hP hskip hstop hread hrest (.inr rfl), collectKvs, List.filter_append]
      split
      next hleft =>
        have hnone : (collectKv child).filter (fun e => p e.1) = [] := by
          refine List.filter_eq_nil_iff.mpr fun e he => ?_
          simp [hskip k e.1 hleft (hP.within hchild e he).2]
        rw [hnone, List.nil_append]
      next =>
        split
        next hend =>
          cases before with
          | none => cases hend
          | some s =>
            obtain rfl : some s = lo := hbefore.resolve_left (Option.some_ne_none s)
            rw [← List.filter_append]
            refine (List.filter_eq_nil_iff.mpr fun e he => ?_).symm
            simp [hstop s e.1 hend (hwithin e he).1]
        next => rw [hread hchild]
  | _, _, [], [], h, _ => h.elim
  | _, _, [], _ :: _ :: _, h, _ => h.elim
  | _, _, _ :: _, [], h, _ => h.elim

end

namespace Node

theorem rangeKids_walk (from' upto : κ) : ∀ (before : Option κ) (keys : List κ)
    (children : List (Node κ ν)), rangeKids cmp from' upto before keys children =
      walkKids (fun k => (cmp k from').isLE) (fun k => cmp k upto = .gt)
        (rangeNode cmp from' upto) before keys children
  | _, _, [] => rfl
  | before, keys, child :: children => by
      rw [rangeKids, walkKids, rangeKids_walk from' upto keys.head? keys.tail children]

theorem scanFromKids_walk (start : κ) (inclusive : Bool) : ∀ (before : Option κ) (keys : List κ)
    (children : List (Node κ ν)), scanFromKids cmp start inclusive keys children =
      walkKids (fun k => (cmp k start).isLE) (fun _ => false) (scanFromNode cmp start inclusive)
        before keys children
  | _, _, [] => rfl
  | before, keys, child :: children => by
      have hend : before.any (fun _ => false) = false := by cases before <;> rfl
      rw [scanFromKids, walkKids, hend, if_neg Bool.false_ne_true,
        scanFromKids_walk start inclusive keys.head? keys.tail children]

theorem scanToKids_walk (stop : κ) (inclusive : Bool) : ∀ (before : Option κ) (keys : List κ)
    (children : List (Node κ ν)), scanToKids cmp stop inclusive before keys children =
      walkKids (fun _ => false) (fun k => atOrAfter (!inclusive) (cmp k stop))
        (scanToNode cmp stop inclusive) before keys children
  | _, _, [] => rfl
  | before, keys, child :: children => by
      have hall : keys.head?.any (fun _ => false) = false := by cases keys.head? <;> rfl
      rw [scanToKids, walkKids, hall, if_neg Bool.false_ne_true,
        scanToKids_walk stop inclusive keys.head? keys.tail children]

variable {cmp} {lo hi : Option κ} {from' upto stop start : κ} {inclusive : Bool}
  {entries : List (κ × ν)} [TransCmp cmp]

/-- A range between any two keys. -/
theorem rangeNode_eq : ∀ {fewest depth : ℕ} {lo hi : Option κ} {node : Node κ ν},
    WF cmp fewest depth lo hi node → rangeNode cmp from' upto node =
      (collectKv node).filter fun e => between cmp from' upto e.1
  | fewest, 0, _, _, .leaf keys values, h => by
      rw [rangeNode]
      exact rangeLeaf_eq ((wf_bounded fewest 0).sorted h)
  | _, depth + 1, _, _, .internal keys children, h => by
      rw [rangeNode, rangeKids_walk]
      refine walkKids_eq (wf_bounded minKeys depth) ?_ ?_ rangeNode_eq h.1 (.inl rfl)
      · intro s k hs hk
        have hbelow : cmp k from' = .lt := TransCmp.lt_of_lt_of_isLE hk hs
        simp [between, OrientedCmp.gt_of_lt hbelow]
      · intro s k hs hk
        have habove : cmp upto k = .lt :=
          TransCmp.lt_of_lt_of_isLE (OrientedCmp.lt_of_gt (of_decide_eq_true hs)) hk
        simp [between, OrientedCmp.gt_of_lt habove]
  | _, 0, _, _, .internal _ _, h => h.elim
  | _, _ + 1, _, _, .leaf _ _, h => h.elim

theorem atOrAfter_eq (a b : κ) : atOrAfter inclusive (cmp a b) = atMost cmp inclusive b a := by
  cases inclusive with
  | false => simp [atOrAfter, atMost, OrientedCmp.gt_iff_lt]
  | true => exact OrientedCmp.isGE_eq_isLE

theorem atMost_of_isLE {a b c : κ} (hab : (cmp a b).isLE)
    (hbc : atMost cmp inclusive b c) : atMost cmp inclusive a c := by
  cases inclusive with
  | false => exact decide_eq_true (TransCmp.lt_of_isLE_of_lt hab (of_decide_eq_true hbc))
  | true => exact TransCmp.isLE_trans hab hbc

theorem atMost_not (a b : κ) : atMost cmp (!inclusive) a b = !atMost cmp inclusive b a := by
  have hswap : cmp a b = (cmp b a).swap := OrientedCmp.eq_swap
  cases inclusive <;> cases hcmp : cmp b a <;> simp [atMost, hcmp, hswap]

/-- A scan from any key on. -/
theorem scanFromNode_eq : ∀ {fewest depth : ℕ} {lo hi : Option κ} {node : Node κ ν},
    WF cmp fewest depth lo hi node → scanFromNode cmp start inclusive node =
      (collectKv node).filter fun e => atMost cmp inclusive start e.1
  | _, 0, _, _, .leaf keys values, h => by
      rw [scanFromNode, collectKv]
      exact congrArg (fun p => (keys.zip values).filter p) (funext fun e => atOrAfter_eq e.1 start)
  | _, depth + 1, _, _, .internal keys children, h => by
      rw [scanFromNode, scanFromKids_walk cmp start inclusive none]
      refine walkKids_eq (wf_bounded minKeys depth) ?_ ?_ scanFromNode_eq h.1 (.inl rfl)
      · intro s k hs hk
        have hbelow : cmp start k = .gt :=
          OrientedCmp.gt_of_lt (TransCmp.lt_of_lt_of_isLE hk hs)
        simp [atMost, hbelow]
      · exact fun s k hs _ => Bool.noConfusion hs
  | _, 0, _, _, .internal _ _, h => h.elim
  | _, _ + 1, _, _, .leaf _ _, h => h.elim

theorem scanToLeaf_eq (h : Sorted cmp entries) : scanToLeaf cmp stop inclusive entries =
    entries.filter fun e => atMost cmp inclusive e.1 stop := by
  induction entries with
  | nil => rfl
  | cons e entries ih =>
    obtain ⟨habove, hrest⟩ := sorted_cons.mp h
    rw [scanToLeaf]
    split
    next hgt =>
      refine (List.filter_eq_nil_iff.mpr fun x hx hin => ?_).symm
      have hstop : cmp stop e.1 = .lt := OrientedCmp.lt_of_gt hgt
      have hx : cmp stop x.1 = .lt := by
        rcases List.mem_cons.mp hx with rfl | hx
        · exact hstop
        · exact TransCmp.lt_trans hstop (habove x hx)
      simp [atMost, OrientedCmp.gt_of_lt hx] at hin
    next hle =>
      have hle : (cmp e.1 stop).isLE := Ordering.isLE_iff_ne_gt.mpr hle
      rw [List.filter_cons, ih hrest]
      cases inclusive with
      | false => simp [atMost]
      | true => simp [atMost, hle]

/-- A scan up to any key. -/
theorem scanToNode_eq : ∀ {fewest depth : ℕ} {lo hi : Option κ} {node : Node κ ν},
    WF cmp fewest depth lo hi node → scanToNode cmp stop inclusive node =
      (collectKv node).filter fun e => atMost cmp inclusive e.1 stop
  | fewest, 0, _, _, .leaf keys values, h => by
      rw [scanToNode]
      exact scanToLeaf_eq ((wf_bounded fewest 0).sorted h)
  | _, depth + 1, _, _, .internal keys children, h => by
      rw [scanToNode, scanToKids_walk]
      refine walkKids_eq (p := fun k => atMost cmp inclusive k stop) (wf_bounded minKeys depth)
        ?_ ?_
        scanToNode_eq h.1 (.inl rfl)
      · exact nofun
      · intro s k hs hk
        rw [atOrAfter_eq, atMost_not, Bool.not_eq_true'] at hs
        by_contra hin
        rw [Bool.not_eq_false] at hin
        rw [atMost_of_isLE hk hin] at hs
        exact nomatch hs
  | _, 0, _, _, .internal _ _, h => h.elim
  | _, _ + 1, _, _, .leaf _ _, h => h.elim

end Node

namespace BPlusTree

/-- A map after a call: a key that is there keeps its text, and gets the value. -/
def mapAfter (m : κ → Option (κ × ν)) : TreeOp κ ν → κ → Option (κ × ν)
  | .insert key value, k =>
    if cmp key k = .eq then some (((m key).map (·.1)).getD key, value) else m k
  | .remove key, k => if cmp key k = .eq then none else m k

def mapOf (ops : List (TreeOp κ ν)) : κ → Option (κ × ν) :=
  ops.foldl (mapAfter cmp) fun _ => none

variable {cmp} [TransCmp cmp] {entries : List (κ × ν)} {tree : BPlusTree κ ν} {inclusive : Bool}

theorem search_eq (h : WellFormed cmp tree) (key : κ) :
    tree.search cmp key = (find cmp key tree.collectAllKv).map (·.2) := by
  cases tree with
  | none => rfl
  | some root =>
    obtain ⟨depth, hroot⟩ := h root rfl
    exact Node.searchNode_eq hroot trivial trivial

theorem rangeEntries_eq (h : WellFormed cmp tree) (lo hi : κ) :
    tree.rangeEntries cmp lo hi = tree.collectAllKv.filter fun e => between cmp lo hi e.1 := by
  cases tree with
  | none => rfl
  | some root =>
    obtain ⟨depth, hroot⟩ := h root rfl
    exact Node.rangeNode_eq hroot

theorem scanFrom_eq (h : WellFormed cmp tree) (k : κ) : tree.scanFrom cmp k inclusive =
    tree.collectAllKv.filter fun e => atMost cmp inclusive k e.1 := by
  cases tree with
  | none => rfl
  | some root =>
    obtain ⟨depth, hroot⟩ := h root rfl
    exact Node.scanFromNode_eq hroot

theorem scanTo_eq (h : WellFormed cmp tree) (k : κ) : tree.scanTo cmp k inclusive =
    tree.collectAllKv.filter fun e => atMost cmp inclusive e.1 k := by
  cases tree with
  | none => rfl
  | some root =>
    obtain ⟨depth, hroot⟩ := h root rfl
    exact Node.scanToNode_eq hroot

theorem entriesAfter_sorted (h : Sorted cmp entries) (op : TreeOp κ ν) :
    Sorted cmp (entriesAfter cmp entries op) := by
  cases op with
  | insert key value => exact h.insert
  | remove key => exact h.erase

theorem find_entriesAfter (h : Sorted cmp entries) (op : TreeOp κ ν) (k : κ) :
    find cmp k (entriesAfter cmp entries op) =
      mapAfter cmp (fun k => find cmp k entries) op k := by
  cases op with
  | insert key value => exact find_insert h
  | remove key => exact find_erase

theorem entries_mapOf (ops : List (TreeOp κ ν)) : ∀ {entries : List (κ × ν)}, Sorted cmp entries →
    Sorted cmp (ops.foldl (entriesAfter cmp) entries) ∧
      ∀ k, find cmp k (ops.foldl (entriesAfter cmp) entries) =
        ops.foldl (mapAfter cmp) (fun k => find cmp k entries) k := by
  induction ops with
  | nil => exact fun h => ⟨h, fun _ => rfl⟩
  | cons op ops ih =>
    intro entries h
    rw [List.foldl_cons, List.foldl_cons, ← funext (find_entriesAfter h op)]
    exact ih (entriesAfter_sorted h op)

theorem collectAllKv_afterOps (ops : List (TreeOp κ ν)) :
    Sorted cmp (afterOps cmp ops).collectAllKv ∧
      ∀ k, find cmp k (afterOps cmp ops).collectAllKv = mapOf cmp ops k := by
  rw [(afterOps_wellFormed ops).2]
  exact entries_mapOf ops List.Pairwise.nil

end BPlusTree

open BPlusTree in
/-- A tree that was empty and has been through any calls is a sorted map: its entries, in order, are
those of the map that the calls make, a search returns the value of a key, and a range or a scan the
entries with the keys it asks for, in order. -/
theorem afterOps_refines (cmp : κ → κ → Ordering) [TransCmp cmp] (ops : List (TreeOp κ ν)) :
    ((afterOps cmp ops).collectAllKv.Pairwise fun a b => cmp a.1 b.1 = .lt) ∧
      (∀ e, e ∈ (afterOps cmp ops).collectAllKv ↔ mapOf cmp ops e.1 = some e) ∧
      (∀ k, (afterOps cmp ops).search cmp k = (mapOf cmp ops k).map (·.2)) ∧
      (∀ lo hi, (afterOps cmp ops).rangeSearch cmp lo hi =
        ((afterOps cmp ops).collectAllKv.filter fun e => between cmp lo hi e.1).map (·.2)) ∧
      (∀ lo hi, (afterOps cmp ops).rangeKeys cmp lo hi =
        ((afterOps cmp ops).collectAllKv.filter fun e => between cmp lo hi e.1).map (·.1)) ∧
      (∀ k inclusive, (afterOps cmp ops).scanFrom cmp k inclusive =
        (afterOps cmp ops).collectAllKv.filter fun e => atMost cmp inclusive k e.1) ∧
      ∀ k inclusive, (afterOps cmp ops).scanTo cmp k inclusive =
        (afterOps cmp ops).collectAllKv.filter fun e => atMost cmp inclusive e.1 k := by
  have hwf : WellFormed cmp (afterOps cmp ops) := (afterOps_wellFormed ops).1
  obtain ⟨hsorted, hfind⟩ := @collectAllKv_afterOps κ ν cmp _ ops
  refine ⟨hsorted, fun e => ?_, fun k => ?_, fun lo hi => ?_, fun lo hi => ?_,
    fun k inclusive => scanFrom_eq hwf k, fun k inclusive => scanTo_eq hwf k⟩
  · rw [← hfind, hsorted.find_eq_some_iff]
    exact ⟨fun he => ⟨he, ReflCmp.compare_self⟩, And.left⟩
  · rw [search_eq hwf, hfind]
  · exact congrArg (List.map (·.2)) (rangeEntries_eq hwf lo hi)
  · exact congrArg (List.map (·.1)) (rangeEntries_eq hwf lo hi)

open BPlusTree in
/-- The text `10` is found behind `9`, with the value it was given last. -/
theorem afterOps_refines_two : (afterOps (KeyOrder.cmpKeys ⟨[], []⟩ [])
    [.insert [0x39] 1, .insert [0x31, 0x30] 2, .insert [0x31, 0x30] 3]).search
      (KeyOrder.cmpKeys ⟨[], []⟩ []) [0x31, 0x30] = some 3 := by
  rw [(afterOps_refines (KeyOrder.cmpKeys ⟨[], []⟩ [])
    [.insert [0x39] 1, .insert [0x31, 0x30] 2, .insert [0x31, 0x30] 3]).2.2.1]
  decide

end RusqlEngine
