import RusqlEngine.BTree
import RusqlEngine.Library.ListEdit
import RusqlEngine.Library.SortedMap

/-!
# The invariant of a B+Tree

A subtree is responsible for the keys from a lower bound on and below an upper bound; a bound is
absent at the edge of the tree. The separators of an internal node ascend strictly between the
bounds of the node and are the bounds of its children, also where a removal has left them behind
the keys that they were copied from.
-/

namespace RusqlEngine.Node

open Std SortedMap

variable {κ ν : Type} (cmp : κ → κ → Ordering)

def AtLeast : Option κ → κ → Prop
  | none, _ => True
  | some lo, k => (cmp lo k).isLE

def Over : Option κ → κ → Prop
  | none, _ => True
  | some lo, k => cmp lo k = .lt

def Under : κ → Option κ → Prop
  | _, none => True
  | k, some hi => cmp k hi = .lt

/-- The children of a node, each between the separators around it. -/
def Kids (P : Option κ → Option κ → Node κ ν → Prop) :
    Option κ → Option κ → List κ → List (Node κ ν) → Prop
  | lo, hi, [], [child] => P lo hi child
  | lo, hi, k :: keys, child :: children =>
    Over cmp lo k ∧ Under cmp k hi ∧ P lo (some k) child ∧ Kids P (some k) hi keys children
  | _, _, _, _ => False

/-- A subtree of this depth between these bounds, whose topmost node has at least `fewest`
keys. -/
def WF : ℕ → ℕ → Option κ → Option κ → Node κ ν → Prop
  | fewest, 0, lo, hi, .leaf keys values =>
    values.length = keys.length ∧ keys.Pairwise (fun a b => cmp a b = .lt) ∧
      (∀ k ∈ keys, AtLeast cmp lo k ∧ Under cmp k hi) ∧
      fewest ≤ keys.length ∧ keys.length < btreeOrder
  | fewest, depth + 1, lo, hi, .internal keys children =>
    Kids cmp (WF minKeys depth) lo hi keys children ∧
      fewest ≤ keys.length ∧ keys.length < btreeOrder
  | _, _, _, _, _ => False

variable {cmp} {lo hi a b : Option κ} {k k' key : κ}

theorem Over.atLeast (h : Over cmp lo k) : AtLeast cmp lo k := by
  cases lo with
  | none => trivial
  | some lo => exact Ordering.isLE_of_eq_lt h

section

variable [TransCmp cmp]

theorem Over.trans (h : Over cmp lo k) (hk : cmp k k' = .lt) : Over cmp lo k' := by
  cases lo with
  | none => trivial
  | some lo => exact TransCmp.lt_trans h hk

theorem AtLeast.over (h : AtLeast cmp lo k) (hk : cmp k k' = .lt) : Over cmp lo k' := by
  cases lo with
  | none => trivial
  | some lo => exact TransCmp.lt_of_isLE_of_lt h hk

theorem AtLeast.trans (h : AtLeast cmp lo k) (hk : (cmp k k').isLE) : AtLeast cmp lo k' := by
  cases lo with
  | none => trivial
  | some lo => exact TransCmp.isLE_trans h hk

theorem Under.trans (h : Under cmp k' hi) (hk : cmp k k' = .lt) : Under cmp k hi := by
  cases hi with
  | none => trivial
  | some hi => exact TransCmp.lt_trans hk h

end

section

variable {P : Option κ → Option κ → Node κ ν → Prop} {keys front back : List κ}
  {children before after : List (Node κ ν)}

theorem Kids.length_eq : ∀ {lo hi : Option κ} {keys : List κ} {children : List (Node κ ν)},
    Kids cmp P lo hi keys children → children.length = keys.length + 1
  | _, _, [], [_], _ => rfl
  | _, _, _ :: _, _ :: _, h => by
      rw [List.length_cons, List.length_cons, h.2.2.2.length_eq]
  | _, _, [], [], h => h.elim
  | _, _, [], _ :: _ :: _, h => h.elim
  | _, _, _ :: _, [], h => h.elim

theorem kids_pair {child child' : Node κ ν} : Kids cmp P lo hi [k] [child, child'] ↔
    Over cmp lo k ∧ Under cmp k hi ∧ P lo (some k) child ∧ P (some k) hi child' :=
  Iff.rfl

/-- Every child has bounds that it keeps to. -/
theorem Kids.forall_mem : ∀ {lo hi : Option κ} {keys : List κ} {children : List (Node κ ν)},
    Kids cmp P lo hi keys children → ∀ child ∈ children, ∃ lo hi, P lo hi child
  | lo, hi, [], [_], h, child, hchild => ⟨lo, hi, List.mem_singleton.mp hchild ▸ h⟩
  | lo, hi, k :: _, _ :: _, h, child, hchild => by
      rcases List.mem_cons.mp hchild with rfl | hchild
      · exact ⟨lo, some k, h.2.2.1⟩
      · exact h.2.2.2.forall_mem child hchild
  | _, _, [], [], h, _, _ => h.elim
  | _, _, [], _ :: _ :: _, h, _, _ => h.elim
  | _, _, _ :: _, [], h, _, _ => h.elim

theorem collectKvs_append : ∀ before after : List (Node κ ν),
    collectKvs (before ++ after) = collectKvs before ++ collectKvs after
  | [], _ => rfl
  | child :: before, after => by
      rw [List.cons_append, collectKvs, collectKvs, collectKvs_append before after,
        List.append_assoc]

variable [TransCmp cmp]

theorem Kids.separators : ∀ {lo hi : Option κ} {keys : List κ} {children : List (Node κ ν)},
    Kids cmp P lo hi keys children → ∀ k ∈ keys, Over cmp lo k ∧ Under cmp k hi
  | _, _, [], _, _, _, hk => nomatch hk
  | _, _, s :: keys, _ :: _, h, k, hk => by
      rcases List.mem_cons.mp hk with rfl | hk
      · exact ⟨h.1, h.2.1⟩
      · obtain ⟨hover, hunder⟩ := h.2.2.2.separators k hk
        exact ⟨h.1.trans hover, hunder⟩
  | _, _, _ :: _, [], h, _, _ => h.elim

/-- Children can be cut at a separator. -/
theorem kids_append_iff {k : κ} : ∀ {lo : Option κ} {keys keys' : List κ}
    {children children' : List (Node κ ν)}, children.length = keys.length + 1 →
    (Kids cmp P lo hi (keys ++ k :: keys') (children ++ children') ↔
      Over cmp lo k ∧ Under cmp k hi ∧ Kids cmp P lo (some k) keys children ∧
        Kids cmp P (some k) hi keys' children')
  | lo, [], keys', [child], children', _ => Iff.rfl
  | lo, s :: keys, keys', child :: children, children', hlength => by
      have hrest : children.length = keys.length + 1 := by simpa using hlength
      rw [List.cons_append, List.cons_append, Kids, kids_append_iff hrest, Kids]
      constructor
      · rintro ⟨hover, hunder, hchild, hsk, hk, hleft, hright⟩
        exact ⟨hover.trans hsk, hk, ⟨hover, hsk, hchild, hleft⟩, hright⟩
      · rintro ⟨hover, hk, ⟨hs, hsk, hchild, hleft⟩, hright⟩
        exact ⟨hs, hk.trans hsk, hchild, hsk, hk, hleft, hright⟩
  | _, [], _, [], _, hlength => nomatch hlength
  | _, [], _, _ :: _ :: _, _, hlength => by simp at hlength
  | _, _ :: _, _, [], _, hlength => nomatch hlength

/-- What a subtree between bounds holds, in order. -/
structure Bounded (cmp : κ → κ → Ordering) (P : Option κ → Option κ → Node κ ν → Prop) :
    Prop where
  sorted : ∀ {lo hi : Option κ} {node : Node κ ν}, P lo hi node →
    Sorted cmp (collectKv node)
  within : ∀ {lo hi : Option κ} {node : Node κ ν}, P lo hi node →
    ∀ e ∈ collectKv node, AtLeast cmp lo e.1 ∧ Under cmp e.1 hi

theorem Kids.within (hP : Bounded cmp P) : ∀ {lo : Option κ} {keys : List κ}
    {children : List (Node κ ν)}, Kids cmp P lo hi keys children →
    ∀ e ∈ collectKvs children, AtLeast cmp lo e.1 ∧ Under cmp e.1 hi
  | lo, [], [child], h, e, he => by
      rw [collectKvs, collectKvs, List.append_nil] at he
      exact hP.within h e he
  | lo, k :: keys, child :: children, h, e, he => by
      rw [collectKvs] at he
      obtain ⟨hover, hunder, hchild, hrest⟩ := h
      rcases List.mem_append.mp he with he | he
      · obtain ⟨hlo, hk⟩ := hP.within hchild e he
        exact ⟨hlo, hunder.trans hk⟩
      · obtain ⟨hk, hhi⟩ := hrest.within hP e he
        exact ⟨hover.atLeast.trans hk, hhi⟩
  | _, [], [], h, _, _ => h.elim
  | _, [], _ :: _ :: _, h, _, _ => h.elim
  | _, _ :: _, [], h, _, _ => h.elim

theorem Kids.sorted (hP : Bounded cmp P) : ∀ {lo : Option κ} {keys : List κ}
    {children : List (Node κ ν)}, Kids cmp P lo hi keys children →
    Sorted cmp (collectKvs children)
  | lo, [], [child], h => by
      rw [collectKvs, collectKvs, List.append_nil]
      exact hP.sorted h
  | lo, k :: keys, child :: children, h => by
      rw [collectKvs]
      obtain ⟨-, -, hchild, hrest⟩ := h
      refine sorted_append.mpr ⟨hP.sorted hchild, hrest.sorted hP, fun x hx y hy => ?_⟩
      exact TransCmp.lt_of_lt_of_isLE (hP.within hchild x hx).2 (hrest.within hP y hy).1
  | _, [], [], h => h.elim
  | _, [], _ :: _ :: _, h => h.elim
  | _, _ :: _, [], h => h.elim

theorem Kids.pairwise : ∀ {lo hi : Option κ} {keys : List κ} {children : List (Node κ ν)},
    Kids cmp P lo hi keys children → keys.Pairwise fun a b => cmp a b = .lt
  | _, _, [], _, _ => List.Pairwise.nil
  | _, _, _ :: _, _ :: _, h =>
    List.pairwise_cons.mpr ⟨fun k hk => (h.2.2.2.separators k hk).1, h.2.2.2.pairwise⟩
  | _, _, _ :: _, [], h => h.elim

/-- What lies around neighbouring children: whatever fills the place between the bounds `a` and `b`
makes the node whole. -/
structure Around (cmp : κ → κ → Ordering) (P : Option κ → Option κ → Node κ ν → Prop)
    (lo hi : Option κ) (front : List κ) (before : List (Node κ ν)) (back : List κ)
    (after : List (Node κ ν)) (a b : Option κ) : Prop where
  left_eq : a = front.getLast?.or lo
  right_eq : b = back.head?.or hi
  fill : ∀ {keys : List κ} {children : List (Node κ ν)}, Kids cmp P a b keys children →
    Kids cmp P lo hi (front ++ keys ++ back) (before ++ children ++ after)
  atLeast : ∀ {key : κ}, AtLeast cmp lo key → (∀ k ∈ front, (cmp k key).isLE) → AtLeast cmp a key
  under : ∀ {key : κ}, Under cmp key hi → (∀ k ∈ back, cmp k key = .gt) → Under cmp key b
  atLeast_lo : ∀ {key : κ}, AtLeast cmp a key → AtLeast cmp lo key
  over_lo : ∀ {key : κ}, Over cmp a key → Over cmp lo key
  front_lt : ∀ {key : κ}, Over cmp a key → ∀ k ∈ front, cmp k key = .lt
  back_gt : ∀ {key : κ}, Under cmp key b → ∀ k ∈ back, cmp k key = .gt
  before_lt : ∀ {key : κ}, AtLeast cmp a key → AllBelow cmp (collectKvs before) key
  after_gt : ∀ {key : κ}, Under cmp key b → AllAbove cmp (collectKvs after) key

/-- Some neighbouring children, and what lies around them. -/
theorem Kids.around (hP : Bounded cmp P) : ∀ {lo : Option κ} {front : List κ}
    {before : List (Node κ ν)}, before.length = front.length →
    children.length = keys.length + 1 →
    Kids cmp P lo hi (front ++ keys ++ back) (before ++ children ++ after) →
    ∃ a b, Kids cmp P a b keys children ∧ Around cmp P lo hi front before back after a b
  | lo, [], [], _, hlength, h => by
      cases back with
      | nil =>
        have hafter : after = [] := by
          have htotal := h.length_eq
          simp only [List.nil_append, List.append_nil, List.length_append] at htotal
          exact List.length_eq_zero_iff.mp (by omega)
        subst hafter
        simp only [List.nil_append, List.append_nil] at h
        refine ⟨lo, hi, h, ?_⟩
        exact {
          left_eq := rfl
          right_eq := rfl
          fill := fun hkids => by simpa using hkids
          atLeast := fun hlo _ => hlo
          under := fun hhi _ => hhi
          atLeast_lo := id
          over_lo := id
          front_lt := nofun
          back_gt := nofun
          before_lt := nofun
          after_gt := nofun }
      | cons s back =>
        rw [List.nil_append, List.nil_append, kids_append_iff hlength] at h
        obtain ⟨hover, hunder, hkids, hafter⟩ := h
        refine ⟨lo, some s, hkids, ?_⟩
        exact {
          left_eq := rfl
          right_eq := rfl
          fill := fun hfill => by
            rw [List.nil_append, List.nil_append]
            exact (kids_append_iff hfill.length_eq).mpr ⟨hover, hunder, hfill, hafter⟩
          atLeast := fun hlo _ => hlo
          under := fun _ hback => OrientedCmp.lt_of_gt (hback s List.mem_cons_self)
          atLeast_lo := id
          over_lo := id
          front_lt := nofun
          back_gt := fun hkey k hk => by
            have hs : cmp _ s = .lt := hkey
            rcases List.mem_cons.mp hk with rfl | hk
            · exact OrientedCmp.gt_of_lt hs
            · have hsk : cmp s k = .lt := (hafter.separators k hk).1
              exact OrientedCmp.gt_of_lt (TransCmp.lt_trans hs hsk)
          before_lt := nofun
          after_gt := fun hkey e he => by
            have hs : (cmp s e.1).isLE := (hafter.within hP e he).1
            exact TransCmp.lt_of_lt_of_isLE hkey hs }
  | lo, s :: front, child :: before, hfront, hlength, h => by
      obtain ⟨hover, hunder, hchild, hrest⟩ := h
      obtain ⟨a, b, hkids, haround⟩ := hrest.around hP (Nat.succ.inj hfront) hlength
      refine ⟨a, b, hkids, ?_⟩
      exact {
        left_eq := haround.left_eq.trans (ListEdit.getLast?_cons_or ..).symm
        right_eq := haround.right_eq
        fill := fun hfill => ⟨hover, hunder, hchild, haround.fill hfill⟩
        atLeast := fun _ hfront =>
          have hs : AtLeast cmp (some s) _ := hfront s List.mem_cons_self
          haround.atLeast hs fun k hk => hfront k (List.mem_cons_of_mem s hk)
        under := haround.under
        atLeast_lo := fun hkey => hover.atLeast.trans (haround.atLeast_lo hkey)
        over_lo := fun hkey => hover.trans (haround.over_lo hkey)
        front_lt := fun hkey k hk => by
          rcases List.mem_cons.mp hk with rfl | hk
          · exact haround.over_lo hkey
          · exact haround.front_lt hkey k hk
        back_gt := haround.back_gt
        before_lt := fun hkey e he => by
          rw [collectKvs] at he
          rcases List.mem_append.mp he with he | he
          · exact TransCmp.lt_of_lt_of_isLE (hP.within hchild e he).2 (haround.atLeast_lo hkey)
          · exact haround.before_lt hkey e he
        after_gt := haround.after_gt }
  | _, [], _ :: _, hfront, _, _ => nomatch hfront
  | _, _ :: _, [], hfront, _, _ => nomatch hfront

/-- The child that a key leads to, and what lies around it. -/
structure Route (cmp : κ → κ → Ordering) (P : Option κ → Option κ → Node κ ν → Prop)
    (lo hi : Option κ) (key : κ) (front back : List κ) (before : List (Node κ ν))
    (child : Node κ ν) (after : List (Node κ ν)) (a b : Option κ) : Prop where
  length_eq : before.length = front.length
  front_le : ∀ k ∈ front, (cmp k key).isLE
  back_gt : ∀ k ∈ back, cmp k key = .gt
  child : P a b child
  atLeast : AtLeast cmp a key
  under : Under cmp key b
  around : Around cmp P lo hi front before back after a b

theorem Kids.route (hP : Bounded cmp P) (h : Kids cmp P lo hi keys children)
    (hlo : AtLeast cmp lo key) (hhi : Under cmp key hi) :
    ∃ front back before child after a b, keys = front ++ back ∧
      children = before ++ child :: after ∧ Route cmp P lo hi key front back before child after
        a b := by
  obtain ⟨front, back, rfl, hfront, hback⟩ :=
    Bisect.exists_split (p := fun k => (cmp k key).isLE)
      (fun _ _ hxy hy => TransCmp.isLE_trans (Ordering.isLE_of_eq_lt hxy) hy) h.pairwise
  have hback : ∀ k ∈ back, cmp k key = .gt := by
    intro k hk
    have hnot : (cmp k key).isLE = false := hback k hk
    exact Ordering.isLE_eq_false.mp hnot
  have htotal := h.length_eq
  rw [List.length_append] at htotal
  obtain ⟨before, rest, rfl, hbefore⟩ : ∃ before rest, children = before ++ rest ∧
      before.length = front.length :=
    ⟨children.take front.length, children.drop front.length,
      (List.take_append_drop ..).symm, List.length_take_of_le (by omega)⟩
  cases rest with
  | nil =>
    rw [List.append_nil] at htotal
    omega
  | cons child after =>
    have hwhole : Kids cmp P lo hi (front ++ [] ++ back) (before ++ [child] ++ after) := by
      simpa using h
    obtain ⟨a, b, hchild, haround⟩ := hwhole.around hP hbefore rfl
    exact ⟨front, back, before, child, after, a, b, rfl, rfl, hbefore, hfront, hback, hchild,
      haround.atLeast hlo hfront, haround.under hhi hback, haround⟩

end

section

variable {P : Option κ → Option κ → Node κ ν → Prop} {front back : List κ}
  {before after : List (Node κ ν)} {child : Node κ ν}

theorem Route.childIndex_eq (h : Route cmp P lo hi key front back before child after a b) :
    childIndex cmp (front ++ back) (before ++ child :: after) key = before.length := by
  have hborder : firstGreater cmp (front ++ back) key = front.length :=
    Bisect.partitionPoint_append h.front_le fun k hk => by simp [h.back_gt k hk]
  rw [childIndex, hborder, h.length_eq, List.length_append, List.length_cons, h.length_eq]
  omega

theorem Route.below (h : Route cmp P lo hi key front back before child after a b) :
    AllBelow cmp (collectKvs before) key :=
  h.around.before_lt h.atLeast

theorem Route.above (h : Route cmp P lo hi key front back before child after a b) :
    AllAbove cmp (collectKvs after) key :=
  h.around.after_gt h.under

end

theorem collectKvs_around (before : List (Node κ ν)) (child : Node κ ν)
    (after : List (Node κ ν)) : collectKvs (before ++ child :: after) =
      collectKvs before ++ collectKv child ++ collectKvs after := by
  rw [collectKvs_append, collectKvs, List.append_assoc]

theorem wf_bounded [TransCmp cmp] : ∀ fewest depth : ℕ, Bounded cmp (WF (ν := ν) cmp fewest depth)
  | _, 0 => by
      refine ⟨fun {lo hi node} h => ?_, fun {lo hi node} h e he => ?_⟩
      · cases node with
        | internal => exact h.elim
        | leaf keys values =>
          obtain ⟨hlength, hsorted, -⟩ := h
          rw [collectKv]
          have hmap : (keys.zip values).map (·.1) = keys := List.map_fst_zip (by omega)
          rw [← hmap] at hsorted
          exact List.pairwise_map.mp hsorted
      · cases node with
        | internal => exact h.elim
        | leaf keys values =>
          obtain ⟨-, -, hbounds, -⟩ := h
          exact hbounds e.1 (List.of_mem_zip he).1
  | fewest, depth + 1 => by
      have hP := wf_bounded minKeys depth
      refine ⟨fun {lo hi node} h => ?_, fun {lo hi node} h e he => ?_⟩
      · cases node with
        | leaf => exact h.elim
        | internal keys children => exact h.1.sorted hP
      · cases node with
        | leaf => exact h.elim
        | internal keys children => exact h.1.within hP e he

theorem WF.keyCount {fewest depth : ℕ} {node : Node κ ν} (h : WF cmp fewest depth lo hi node) :
    fewest ≤ node.keyCount ∧ node.keyCount < btreeOrder := by
  cases depth with
  | zero =>
    cases node with
    | leaf keys values => exact h.2.2.2
    | internal => exact h.elim
  | succ depth =>
    cases node with
    | leaf => exact h.elim
    | internal keys children => exact h.2

theorem WF.of_keyCount {fewest fewest' depth : ℕ} {node : Node κ ν}
    (h : WF cmp fewest depth lo hi node) (hle : fewest' ≤ node.keyCount) :
    WF cmp fewest' depth lo hi node := by
  cases depth with
  | zero =>
    cases node with
    | leaf keys values => exact ⟨h.1, h.2.1, h.2.2.1, hle, h.2.2.2.2⟩
    | internal => exact h.elim
  | succ depth =>
    cases node with
    | leaf => exact h.elim
    | internal keys children => exact ⟨h.1, hle, h.2.2⟩

end RusqlEngine.Node
