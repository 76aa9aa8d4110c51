import RusqlEngine.BTreeInsert
import RusqlEngine.BTreeRemove
import RusqlEngine.KeyOrderExact

/-!
# The shape of a B+Tree

Every call leaves the root well formed, with its entries changed as those of a sorted list. From
this follow the bounds on every node, and that no removal empties a child below an internal node.
-/

namespace RusqlEngine

open Std

variable {κ ν : Type} {cmp : κ → κ → Ordering}

namespace BPlusTree

def WellFormed (cmp : κ → κ → Ordering) (tree : BPlusTree κ ν) : Prop :=
  ∀ root ∈ tree, ∃ depth, Node.WF cmp 1 depth none none root

/-- The entries of a tree after a call. -/
def entriesAfter (cmp : κ → κ → Ordering) (entries : List (κ × ν)) :
    TreeOp κ ν → List (κ × ν)
  | .insert key value => SortedMap.insert cmp key value entries
  | .remove key => SortedMap.erase cmp key entries

variable [TransCmp cmp] {tree : BPlusTree κ ν}

theorem insert_wellFormed (h : WellFormed cmp tree) (key : κ) (value : ν) :
    WellFormed cmp (tree.insert cmp key value) ∧
      (tree.insert cmp key value).collectAllKv =
        SortedMap.insert cmp key value tree.collectAllKv := by
  cases tree with
  | none =>
    refine ⟨fun root hroot => ⟨0, ?_⟩, rfl⟩
    obtain rfl := Option.some.inj hroot
    exact ⟨rfl, List.pairwise_singleton .., fun _ _ => ⟨trivial, trivial⟩, Nat.le_refl 1,
      Nat.succ_lt_succ (Nat.succ_pos _)⟩
  | some root =>
    obtain ⟨depth, hroot⟩ := h root rfl
    have hholds : Node.Holds cmp 1 depth none none _ (Node.insertNode cmp key value root) :=
      Node.insertNode_holds hroot trivial trivial
    rw [insert]
    split
    next node heq =>
      rw [heq] at hholds
      obtain ⟨hnode, hcollect⟩ := hholds
      exact ⟨fun _ hroot => ⟨depth, Option.some.inj hroot ▸ hnode⟩, hcollect⟩
    next node midKey right heq =>
      rw [heq] at hholds
      obtain ⟨-, -, hleft, hright, hcollect⟩ := hholds
      refine ⟨fun _ hroot => ⟨depth + 1, Option.some.inj hroot ▸ ?_⟩, ?_⟩
      · exact ⟨Node.kids_pair.mpr ⟨trivial, trivial, hleft, hright⟩, Nat.le_refl 1,
          Nat.succ_lt_succ (Nat.succ_pos _)⟩
      · rw [collectAllKv, Option.map_some, Option.getD_some, Node.collectKv, Node.collectKvs,
          Node.collectKvs, Node.collectKvs, List.append_nil, hcollect]
        rfl

theorem remove_wellFormed (h : WellFormed cmp tree) (key : κ) :
    WellFormed cmp (tree.remove cmp key) ∧
      (tree.remove cmp key).collectAllKv = SortedMap.erase cmp key tree.collectAllKv := by
  cases tree with
  | none => exact ⟨h, rfl⟩
  | some root =>
    obtain ⟨depth, hroot⟩ := h root rfl
    rw [remove, Option.bind_some]
    rcases Node.removeNode_root key hroot with
      ⟨heq, herase⟩ | ⟨root', depth', heq, hroot', hcollect⟩
    · rw [heq]
      exact ⟨nofun, herase.symm⟩
    · rw [heq]
      exact ⟨fun _ hroot => ⟨depth', Option.some.inj hroot ▸ hroot'⟩, hcollect⟩

theorem apply_wellFormed (h : WellFormed cmp tree) (op : TreeOp κ ν) :
    WellFormed cmp (tree.apply cmp op) ∧
      (tree.apply cmp op).collectAllKv = entriesAfter cmp tree.collectAllKv op := by
  cases op with
  | insert key value => exact insert_wellFormed h key value
  | remove key => exact remove_wellFormed h key

theorem foldl_wellFormed (ops : List (TreeOp κ ν)) : ∀ {tree : BPlusTree κ ν},
    WellFormed cmp tree → WellFormed cmp (ops.foldl (apply cmp) tree) ∧
      (ops.foldl (apply cmp) tree).collectAllKv =
        ops.foldl (entriesAfter cmp) tree.collectAllKv := by
  induction ops with
  | nil => exact fun h => ⟨h, rfl⟩
  | cons op ops ih =>
    intro tree h
    obtain ⟨hwf, hentries⟩ := apply_wellFormed h op
    rw [List.foldl_cons, List.foldl_cons, ← hentries]
    exact ih hwf

theorem afterOps_wellFormed (ops : List (TreeOp κ ν)) :
    WellFormed cmp (afterOps cmp ops) ∧
      (afterOps cmp ops).collectAllKv = ops.foldl (entriesAfter cmp) [] :=
  foldl_wellFormed ops nofun

end BPlusTree

namespace Node

/-- Every leaf is at this depth, every internal node has one child more than keys and so at least
two, no node is full, every node but the root has enough keys, and a leaf has a value for each key.
-/
def Shaped : (isRoot : Bool) → (depth : ℕ) → Node κ ν → Prop
  | isRoot, 0, .leaf keys values =>
    values.length = keys.length ∧ keys.length < btreeOrder ∧
      (isRoot = false → minKeys ≤ keys.length)
  | isRoot, depth + 1, .internal keys children =>
    children.length = keys.length + 1 ∧ 2 ≤ children.length ∧ keys.length < btreeOrder ∧
      (isRoot = false → minKeys ≤ keys.length) ∧ ∀ child ∈ children, Shaped false depth child
  | _, _, _ => False

theorem WF.shaped : ∀ {fewest depth : ℕ} {lo hi : Option κ} {node : Node κ ν} (isRoot : Bool),
    WF cmp fewest depth lo hi node → 1 ≤ fewest → (isRoot = false → minKeys ≤ fewest) →
    Shaped isRoot depth node
  | _, 0, _, _, .leaf keys values, _, h, _, hmin => by
      obtain ⟨hlength, -, -, hfew, hroom⟩ := h
      exact ⟨hlength, hroom, fun hroot => (hmin hroot).trans hfew⟩
  | fewest, depth + 1, _, _, .internal keys children, _, h, hone, hmin => by
      obtain ⟨hkids, hfew, hroom⟩ := h
      refine ⟨hkids.length_eq, ?_, hroom, fun hroot => (hmin hroot).trans hfew, ?_⟩
      · rw [hkids.length_eq]
        exact Nat.succ_le_succ (hone.trans hfew)
      · intro child hchild
        obtain ⟨lo, hi, hwf⟩ := hkids.forall_mem child hchild
        exact hwf.shaped false (by decide) fun _ => Nat.le_refl _
  | _, 0, _, _, .internal _ _, _, h, _, _ => h.elim
  | _, _ + 1, _, _, .leaf _ _, _, h, _, _ => h.elim

variable (cmp)

mutual

/-- `remove_node` gets the null pointer from a child of this node or of one below it. -/
def emptiesChild (key : κ) : Node κ ν → Prop
  | .leaf _ _ => False
  | .internal keys children =>
    emptiesChildAt key (childIndex cmp keys children key) children

def emptiesChildAt (key : κ) : ℕ → List (Node κ ν) → Prop
  | _, [] => False
  | 0, child :: _ => removeNode cmp key child = none ∨ emptiesChild key child
  | idx + 1, _ :: children => emptiesChildAt key idx children

end

variable {cmp} {key : κ}

theorem emptiesChildAt_length (child : Node κ ν) (after : List (Node κ ν)) :
    ∀ before : List (Node κ ν),
      emptiesChildAt cmp key before.length (before ++ child :: after) =
        (removeNode cmp key child = none ∨ emptiesChild cmp key child)
  | [] => rfl
  | _ :: before => emptiesChildAt_length child after before

theorem WF.not_emptiesChild [TransCmp cmp] : ∀ {fewest depth : ℕ} {lo hi : Option κ}
    {node : Node κ ν}, WF cmp fewest depth lo hi node → AtLeast cmp lo key → Under cmp key hi →
    ¬ emptiesChild cmp key node
  | _, 0, _, _, .leaf _ _, _, _, _ => id
  | fewest, depth + 1, lo, hi, .internal keys children, h, hlo, hhi => by
      obtain ⟨hkids, -⟩ := h
      obtain ⟨front, back, before, child, after, a, b, rfl, rfl, hroute⟩ :=
        hkids.route (wf_bounded minKeys depth) hlo hhi
      obtain ⟨updated, hremove, -⟩ :=
        exists_removeNode hroute.child hroute.atLeast hroute.under
      rw [emptiesChild, hroute.childIndex_eq, emptiesChildAt_length]
      rintro (hnone | hbelow)
      · rw [hremove] at hnone
        exact nomatch hnone
      · exact hroute.child.not_emptiesChild hroute.atLeast hroute.under hbelow
  | _, 0, _, _, .internal _ _, h, _, _ => h.elim
  | _, _ + 1, _, _, .leaf _ _, h, _, _ => h.elim

end Node

/-- After any calls on an empty tree its root has the shape of a B+Tree, and no removal takes the
branch for a child that was emptied. -/
theorem afterOps_shaped (cmp : κ → κ → Ordering) [TransCmp cmp] (ops : List (TreeOp κ ν)) :
    ∀ root ∈ BPlusTree.afterOps cmp ops, (∃ depth, root.Shaped true depth) ∧
      ∀ key, ¬ root.emptiesChild cmp key := by
  intro root hroot
  obtain ⟨depth, hwf⟩ := (BPlusTree.afterOps_wellFormed ops).1 root hroot
  exact ⟨⟨depth, hwf.shaped true (Nat.le_refl 1) nofun⟩,
    fun key => hwf.not_emptiesChild trivial trivial⟩

/-- The tree of `9` and `10` has that shape. -/
theorem afterOps_shaped_two : ∃ root, root ∈ BPlusTree.afterOps (KeyOrder.cmpKeys ⟨[], []⟩ [])
    [.insert [0x39] 1, .insert [0x31, 0x30] 2] ∧ ∃ depth, root.Shaped true depth := by
  obtain ⟨root, hroot⟩ : ∃ root, BPlusTree.afterOps (KeyOrder.cmpKeys ⟨[], []⟩ [])
      [.insert [0x39] 1, .insert [0x31, 0x30] 2] = some root :=
    Option.isSome_iff_exists.mp (by decide +kernel)
  exact ⟨root, hroot, (afterOps_shaped (KeyOrder.cmpKeys ⟨[], []⟩ [])
    [.insert [0x39] 1, .insert [0x31, 0x30] 2] root hroot).1⟩

end RusqlEngine
