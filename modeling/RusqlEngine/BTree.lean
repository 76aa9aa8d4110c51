import Mathlib.Data.List.Basic
import RusqlEngine.Library.Bisect

/-!
# The B+Tree of an index

A node is a leaf with keys and values, or an internal node with keys and one more child. A key leads
to the child behind the last separator that is not greater; a node that fills up is split on the way
back, and one that runs short takes a key from a sibling or is merged with it. The comparison, the
keys and the values are parameters.
-/

namespace RusqlEngine

def btreeOrder : ℕ := 16

def minKeys : ℕ := btreeOrder / 2 - 1

/-- `Node`: a `LeafNode` or an `InternalNode`. -/
inductive Node (κ ν : Type)
  | leaf (keys : List κ) (values : List ν)
  | internal (keys : List κ) (children : List (Node κ ν))

namespace Node

variable {κ ν : Type} (cmp : κ → κ → Ordering)

def firstGreater (keys : List κ) (key : κ) : ℕ :=
  Bisect.partitionPoint (fun k => (cmp k key).isLE) keys

def firstGeq (keys : List κ) (key : κ) : ℕ :=
  Bisect.partitionPoint (fun k => cmp k key = .lt) keys

def childIndex (keys : List κ) (children : List (Node κ ν)) (key : κ) : ℕ :=
  min (firstGreater cmp keys key) (children.length - 1)

mutual

def searchNode (key : κ) : Node κ ν → Option ν
  | .leaf keys values => ((keys.zip values).find? fun e => cmp e.1 key = .eq).map (·.2)
  | .internal keys children => searchAt key (childIndex cmp keys children key) children

/-- `search_node` of the child at an index. -/
def searchAt (key : κ) : ℕ → List (Node κ ν) → Option ν
  | _, [] => none
  | 0, child :: _ => searchNode key child
  | idx + 1, _ :: children => searchAt key idx children

end

abbrev Split (κ ν : Type) := Node κ ν × Option (κ × Node κ ν)

/-- A leaf that may be full. -/
def splitLeaf (keys : List κ) (values : List ν) : Split κ ν :=
  if btreeOrder ≤ keys.length then
    let mid := keys.length / 2
    match keys.drop mid with
    | [] => (.leaf keys values, none)
    | midKey :: right =>
      (.leaf (keys.take mid) (values.take mid),
        some (midKey, .leaf (midKey :: right) (values.drop mid)))
  else (.leaf keys values, none)

/-- An internal node that may be full; the key in its middle goes up. -/
def splitInternal (keys : List κ) (children : List (Node κ ν)) : Split κ ν :=
  if btreeOrder ≤ keys.length then
    let mid := keys.length / 2
    match keys.drop mid with
    | [] => (.internal keys children, none)
    | upKey :: right =>
      (.internal (keys.take mid) (children.take (mid + 1)),
        some (upKey, .internal right (children.drop (mid + 1))))
  else (.internal keys children, none)

/-- A key and a value in a leaf. -/
def insertLeaf (key : κ) (value : ν) (keys : List κ) (values : List ν) : Split κ ν :=
  let pos := firstGeq cmp keys key
  if (keys[pos]?).any fun k => cmp k key = .eq then (.leaf keys (values.set pos value), none)
  else splitLeaf (keys.insertIdx pos key) (values.insertIdx pos value)

/-- The child at an index is put back, with what was split off it. -/
def insertSplit (keys : List κ) (children : List (Node κ ν)) (idx : ℕ) :
    Split κ ν → Split κ ν
  | (newChild, none) => (.internal keys (children.set idx newChild), none)
  | (newChild, some (splitKey, rightChild)) =>
    let pos := firstGeq cmp keys splitKey
    splitInternal (keys.insertIdx pos splitKey)
      ((children.set idx newChild).insertIdx (pos + 1) rightChild)

mutual

def insertNode (key : κ) (value : ν) : Node κ ν → Split κ ν
  | .leaf keys values => insertLeaf cmp key value keys values
  | .internal keys children =>
    let idx := childIndex cmp keys children key
    match insertAt key value idx children with
    | none => (.internal keys children, none)
    | some result => insertSplit cmp keys children idx result

/-- `insert_node` of the child at an index. -/
def insertAt (key : κ) (value : ν) : ℕ → List (Node κ ν) → Option (Split κ ν)
  | _, [] => none
  | 0, child :: _ => some (insertNode key value child)
  | idx + 1, _ :: children => insertAt key value idx children

end

def keyCount : Node κ ν → ℕ
  | .leaf keys _ => keys.length
  | .internal keys _ => keys.length

def borrowFromLeft (keys : List κ) (children : List (Node κ ν)) (idx : ℕ) :
    List κ × List (Node κ ν) :=
  match children[idx - 1]?, children[idx]? with
  | some (.leaf leftKeys leftValues), some (.leaf targetKeys targetValues) =>
    match leftKeys.getLast?, leftValues.getLast? with
    | some k, some v =>
      (keys.set (idx - 1) k,
        (children.set (idx - 1) (.leaf leftKeys.dropLast leftValues.dropLast)).set idx
          (.leaf (k :: targetKeys) (v :: targetValues)))
    | _, _ => (keys, children)
  | some (.internal leftKeys leftChildren), some (.internal targetKeys targetChildren) =>
    match keys[idx - 1]?, leftKeys.getLast?, leftChildren.getLast? with
    | some separator, some k, some child =>
      (keys.set (idx - 1) k,
        (children.set (idx - 1) (.internal leftKeys.dropLast leftChildren.dropLast)).set idx
          (.internal (separator :: targetKeys) (child :: targetChildren)))
    | _, _, _ => (keys, children)
  | _, _ => (keys, children)

def borrowFromRight (keys : List κ) (children : List (Node κ ν)) (idx : ℕ) :
    List κ × List (Node κ ν) :=
  match children[idx]?, children[idx + 1]? with
  | some (.leaf targetKeys targetValues), some (.leaf rightKeys rightValues) =>
    match rightKeys, rightValues with
    | k :: k' :: rightKeys, v :: rightValues =>
      (keys.set idx k',
        (children.set idx (.leaf (targetKeys ++ [k]) (targetValues ++ [v]))).set (idx + 1)
          (.leaf (k' :: rightKeys) rightValues))
    | _, _ => (keys, children)
  | some (.internal targetKeys targetChildren), some (.internal rightKeys rightChildren) =>
    match keys[idx]?, rightKeys, rightChildren with
    | some separator, k :: rightKeys, child :: rightChildren =>
      (keys.set idx k,
        (children.set idx (.internal (targetKeys ++ [separator])
          (targetChildren ++ [child]))).set (idx + 1) (.internal rightKeys rightChildren))
    | _, _, _ => (keys, children)
  | _, _ => (keys, children)

/-- Two siblings and the key between them as one node. -/
def merged (separator : κ) : Node κ ν → Node κ ν → Option (Node κ ν)
  | .leaf leftKeys leftValues, .leaf rightKeys rightValues =>
    some (.leaf (leftKeys ++ rightKeys) (leftValues ++ rightValues))
  | .internal leftKeys leftChildren, .internal rightKeys rightChildren =>
    some (.internal (leftKeys ++ separator :: rightKeys) (leftChildren ++ rightChildren))
  | _, _ => none

/-- The children at `idx` and `idx + 1` become one, and the key between them goes. -/
def mergeAt (keys : List κ) (children : List (Node κ ν)) (idx : ℕ) :
    List κ × List (Node κ ν) :=
  match children[idx]?, children[idx + 1]?, keys[idx]? with
  | some left, some right, some separator =>
    match merged separator left right with
    | some node => (keys.eraseIdx idx, (children.set idx node).eraseIdx (idx + 1))
    | none => (keys, children)
  | _, _, _ => (keys, children)

def mergeWithLeft (keys : List κ) (children : List (Node κ ν)) (idx : ℕ) :
    List κ × List (Node κ ν) :=
  mergeAt keys children (idx - 1)

def mergeWithRight (keys : List κ) (children : List (Node κ ν)) (idx : ℕ) :
    List κ × List (Node κ ν) :=
  mergeAt keys children idx

def rebalanceChild (keys : List κ) (children : List (Node κ ν)) (idx : ℕ) :
    List κ × List (Node κ ν) :=
  let hasLeft := 0 < idx
  let hasRight := idx + 1 < children.length
  if hasLeft ∧ (children[idx - 1]?).any (minKeys < ·.keyCount) then
    borrowFromLeft keys children idx
  else if hasRight ∧ (children[idx + 1]?).any (minKeys < ·.keyCount) then
    borrowFromRight keys children idx
  else if hasLeft then mergeWithLeft keys children idx
  else if hasRight then mergeWithRight keys children idx
  else (keys, children)

/-- What is left of a leaf. -/
def removeLeaf (key : κ) (keys : List κ) (values : List ν) : Option (Node κ ν) :=
  let left := match keys.findIdx? fun k => cmp k key = .eq with
    | none => (keys, values)
    | some pos => (keys.eraseIdx pos, values.eraseIdx pos)
  if left.1 = [] then none else some (.leaf left.1 left.2)

def collapsed (node : List κ × List (Node κ ν)) : Node κ ν :=
  match node.2 with
  | [child] => child
  | children => .internal node.1 children

/-- The child at an index is empty: it goes, and with it a key. -/
def dropChild (keys : List κ) (children : List (Node κ ν)) (idx : ℕ) : Option (Node κ ν) :=
  let keyIdx := if idx = 0 then 0 else idx - 1
  match children.eraseIdx idx with
  | [] => none
  | children => some (collapsed (keys.eraseIdx keyIdx, children))

/-- The child at an index is put back, with a key more if it has run short. -/
def putBack (keys : List κ) (children : List (Node κ ν)) (idx : ℕ) (updated : Node κ ν) :
    Node κ ν :=
  if updated.keyCount < minKeys then
    collapsed (rebalanceChild keys (children.set idx updated) idx)
  else collapsed (keys, children.set idx updated)

mutual

/-- `remove_node`: `none` where it returns the null pointer. -/
def removeNode (key : κ) : Node κ ν → Option (Node κ ν)
  | .leaf keys values => removeLeaf cmp key keys values
  | .internal keys children =>
    let idx := childIndex cmp keys children key
    match removeAt key idx children with
    | none => some (.internal keys children)
    | some none => dropChild keys children idx
    | some (some updated) => some (putBack keys children idx updated)

/-- `remove_node` of the child at an index. -/
def removeAt (key : κ) : ℕ → List (Node κ ν) → Option (Option (Node κ ν))
  | _, [] => none
  | 0, child :: _ => some (removeNode key child)
  | idx + 1, _ :: children => removeAt key idx children

end

mutual

/-- `collect_kv_node`. -/
def collectKv : Node κ ν → List (κ × ν)
  | .leaf keys values => keys.zip values
  | .internal _ children => collectKvs children

def collectKvs : List (Node κ ν) → List (κ × ν)
  | [] => []
  | child :: children => collectKv child ++ collectKvs children

end

/-- The loop over a leaf of `range_collect` and `range_collect_keys`. -/
def rangeLeaf (lo hi : κ) : List (κ × ν) → List (κ × ν)
  | [] => []
  | e :: es =>
    if cmp e.1 hi = .gt then []
    else if (cmp e.1 lo).isGE then e :: rangeLeaf lo hi es
    else rangeLeaf lo hi es

mutual

/-- The entries that `range_collect` and `range_collect_keys` meet. -/
def rangeNode (lo hi : κ) : Node κ ν → List (κ × ν)
  | .leaf keys values => rangeLeaf cmp lo hi (keys.zip values)
  | .internal keys children => rangeKids lo hi none keys children

/-- The loop over the children, with the key before the next child. -/
def rangeKids (lo hi : κ) : Option κ → List κ → List (Node κ ν) → List (κ × ν)
  | _, _, [] => []
  | before, keys, child :: children =>
    if keys.head?.any fun k => (cmp k lo).isLE then
      rangeKids lo hi keys.head? keys.tail children
    else if before.any fun k => cmp k hi = .gt then []
    else rangeNode lo hi child ++ rangeKids lo hi keys.head? keys.tail children

end

/-- `inclusive ? ord >= 0 : ord > 0`. -/
def atOrAfter (inclusive : Bool) (ord : Ordering) : Bool :=
  if inclusive then ord.isGE else ord = .gt

mutual

def scanFromNode (start : κ) (inclusive : Bool) : Node κ ν → List (κ × ν)
  | .leaf keys values => (keys.zip values).filter fun e => atOrAfter inclusive (cmp e.1 start)
  | .internal keys children => scanFromKids start inclusive keys children

def scanFromKids (start : κ) (inclusive : Bool) : List κ → List (Node κ ν) → List (κ × ν)
  | _, [] => []
  | keys, child :: children =>
    if keys.head?.any fun k => (cmp k start).isLE then
      scanFromKids start inclusive keys.tail children
    else scanFromNode start inclusive child ++ scanFromKids start inclusive keys.tail children

end

/-- The loop over a leaf of `scan_to_node`. -/
def scanToLeaf (stop : κ) (inclusive : Bool) : List (κ × ν) → List (κ × ν)
  | [] => []
  | e :: es =>
    if cmp e.1 stop = .gt then []
    else if inclusive ∨ cmp e.1 stop = .lt then e :: scanToLeaf stop inclusive es
    else scanToLeaf stop inclusive es

mutual

def scanToNode (stop : κ) (inclusive : Bool) : Node κ ν → List (κ × ν)
  | .leaf keys values => scanToLeaf cmp stop inclusive (keys.zip values)
  | .internal keys children => scanToKids stop inclusive none keys children

def scanToKids (stop : κ) (inclusive : Bool) :
    Option κ → List κ → List (Node κ ν) → List (κ × ν)
  | _, _, [] => []
  | before, keys, child :: children =>
    if before.any fun k => atOrAfter (!inclusive) (cmp k stop) then []
    else scanToNode stop inclusive child ++
      scanToKids stop inclusive keys.head? keys.tail children

end

end Node

/-- `BPlusTree`: its root, or nothing. -/
abbrev BPlusTree (κ ν : Type) := Option (Node κ ν)

namespace BPlusTree

variable {κ ν : Type} (cmp : κ → κ → Ordering)

def search (tree : BPlusTree κ ν) (key : κ) : Option ν :=
  tree.bind (Node.searchNode cmp key)

def insert (tree : BPlusTree κ ν) (key : κ) (value : ν) : BPlusTree κ ν :=
  match tree with
  | none => some (.leaf [key] [value])
  | some root =>
    match Node.insertNode cmp key value root with
    | (node, none) => some node
    | (node, some (midKey, right)) => some (.internal [midKey] [node, right])

def remove (tree : BPlusTree κ ν) (key : κ) : BPlusTree κ ν :=
  tree.bind (Node.removeNode cmp key)

def rangeEntries (tree : BPlusTree κ ν) (lo hi : κ) : List (κ × ν) :=
  (tree.map (Node.rangeNode cmp lo hi)).getD []

def rangeSearch (tree : BPlusTree κ ν) (lo hi : κ) : List ν :=
  (rangeEntries cmp tree lo hi).map (·.2)

def rangeKeys (tree : BPlusTree κ ν) (lo hi : κ) : List κ :=
  (rangeEntries cmp tree lo hi).map (·.1)

def scanFrom (tree : BPlusTree κ ν) (start : κ) (inclusive : Bool) : List (κ × ν) :=
  (tree.map (Node.scanFromNode cmp start inclusive)).getD []

def scanTo (tree : BPlusTree κ ν) (stop : κ) (inclusive : Bool) : List (κ × ν) :=
  (tree.map (Node.scanToNode cmp stop inclusive)).getD []

def collectAllKv (tree : BPlusTree κ ν) : List (κ × ν) :=
  (tree.map Node.collectKv).getD []

end BPlusTree

/-- A change of a tree. -/
inductive TreeOp (κ ν : Type)
  | insert (key : κ) (value : ν)
  | remove (key : κ)

namespace BPlusTree

variable {κ ν : Type} (cmp : κ → κ → Ordering)

def apply (tree : BPlusTree κ ν) : TreeOp κ ν → BPlusTree κ ν
  | .insert key value => tree.insert cmp key value
  | .remove key => tree.remove cmp key

def afterOps (ops : List (TreeOp κ ν)) : BPlusTree κ ν :=
  ops.foldl (apply cmp) none

end BPlusTree

end RusqlEngine
