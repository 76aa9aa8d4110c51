import RusqlEngine.BTreeInvariant

/-!
# Insertion into a B+Tree

A node that has a key and a value put into it stays between its bounds, and so does what is split
off it; together they hold what the node held, with the key and the value in their place.
-/

namespace RusqlEngine.Node

open Std ListEdit

variable {κ ν : Type} {cmp : κ → κ → Ordering} {lo hi : Option κ} {key : κ} {value : ν}
  {keys : List κ}

theorem insertAt_length (child : Node κ ν) (after : List (Node κ ν)) :
    ∀ before : List (Node κ ν), insertAt cmp key value before.length (before ++ child :: after) =
      some (insertNode cmp key value child)
  | [] => rfl
  | _ :: before => insertAt_length child after before

theorem exists_middle (h : keys.length = btreeOrder) :
    ∃ left k right, keys = left ++ k :: right ∧ left.length = 8 ∧ right.length = 7 := by
  have hcut := List.take_append_drop 8 keys
  have hdrop : (keys.drop 8).length = 8 := by rw [List.length_drop, h, btreeOrder]
  cases hright : keys.drop 8 with
  | nil =>
    rw [hright] at hdrop
    exact nomatch hdrop
  | cons k right =>
    rw [hright] at hcut hdrop
    refine ⟨keys.take 8, k, right, hcut.symm, ?_, Nat.succ.inj hdrop⟩
    rw [List.length_take, h, btreeOrder]
    rfl

/-- A node or the two halves of one, between the bounds, with these entries. -/
def Holds (cmp : κ → κ → Ordering) (fewest depth : ℕ) (lo hi : Option κ)
    (entries : List (κ × ν)) : Split κ ν → Prop
  | (node, none) => WF cmp fewest depth lo hi node ∧ collectKv node = entries
  | (left, some (k, right)) => Over cmp lo k ∧ Under cmp k hi ∧
      WF cmp minKeys depth lo (some k) left ∧ WF cmp minKeys depth (some k) hi right ∧
        collectKv left ++ collectKv right = entries

variable {fewest : ℕ}

theorem splitLeaf_holds [TransCmp cmp] {values : List ν} (hlength : values.length = keys.length)
    (hsorted : keys.Pairwise fun a b => cmp a b = .lt)
    (hbounds : ∀ k ∈ keys, AtLeast cmp lo k ∧ Under cmp k hi) (hfew : fewest ≤ keys.length)
    (hmany : keys.length ≤ btreeOrder) :
    Holds cmp fewest 0 lo hi (keys.zip values) (splitLeaf keys values) := by
  rw [splitLeaf]
  split
  next hfull =>
    have hsize : keys.length = btreeOrder := Nat.le_antisymm hmany hfull
    obtain ⟨left, k, right, rfl, hleft, hright⟩ := exists_middle hsize
    obtain ⟨hl, hr, hcross⟩ := List.pairwise_append.mp hsorted
    have hmid : (left ++ k :: right).length / 2 = left.length := by
      rw [hsize, hleft, btreeOrder]
    dsimp only
    rw [hmid, List.drop_left, List.take_left]
    obtain ⟨first, hfirst⟩ := List.exists_mem_of_length_pos (l := left) (by omega)
    have hk : cmp first k = .lt := hcross first hfirst k List.mem_cons_self
    have hbk := hbounds k (List.mem_append_right left List.mem_cons_self)
    refine ⟨?_, hbk.2, ?_, ?_, ?_⟩
    · exact (hbounds first (List.mem_append_left _ hfirst)).1.over hk
    · refine ⟨?_, hl, fun x hx => ⟨?_, ?_⟩, ?_, ?_⟩
      · rw [List.length_take, hlength, List.length_append]
        omega
      · exact (hbounds x (List.mem_append_left _ hx)).1
      · exact hcross x hx k List.mem_cons_self
      · rw [hleft, minKeys, btreeOrder]
        omega
      · rw [hleft, btreeOrder]
        omega
    · refine ⟨?_, hr, fun x hx => ⟨?_, ?_⟩, ?_, ?_⟩
      · rw [List.length_drop, hlength, List.length_append]
        omega
      · rcases List.mem_cons.mp hx with rfl | hx
        · exact ReflCmp.isLE_rfl
        · exact Ordering.isLE_of_eq_lt ((List.pairwise_cons.mp hr).1 x hx)
      · exact (hbounds x (List.mem_append_right left hx)).2
      · rw [List.length_cons, hright, minKeys, btreeOrder]
        omega
      · rw [List.length_cons, hright, btreeOrder]
        omega
    · have htake : left.length = (values.take left.length).length := by
        rw [List.length_take, hlength, List.length_append]
        omega
      rw [collectKv, collectKv, ← List.zip_append htake, List.take_append_drop]
  next hroom =>
    exact ⟨⟨hlength, hsorted, hbounds, hfew, Nat.lt_of_not_le hroom⟩, rfl⟩

theorem splitInternal_holds [TransCmp cmp] {depth : ℕ} {children : List (Node κ ν)}
    (hkids : Kids cmp (WF cmp minKeys depth) lo hi keys children) (hfew : fewest ≤ keys.length)
    (hmany : keys.length ≤ btreeOrder) :
    Holds cmp fewest (depth + 1) lo hi (collectKvs children) (splitInternal keys children) := by
  rw [splitInternal]
  split
  next hfull =>
    have hsize : keys.length = btreeOrder := Nat.le_antisymm hmany hfull
    have hchildren := hkids.length_eq
    obtain ⟨left, k, right, rfl, hleft, hright⟩ := exists_middle hsize
    have hmid : (left ++ k :: right).length / 2 = left.length := by
      rw [hsize, hleft, btreeOrder]
    dsimp only
    rw [hmid, List.drop_left, List.take_left]
    have htake : (children.take (left.length + 1)).length = left.length + 1 :=
      List.length_take_of_le (by omega)
    rw [← List.take_append_drop (left.length + 1) children] at hkids
    obtain ⟨hover, hunder, hkl, hkr⟩ := (kids_append_iff htake).mp hkids
    refine ⟨hover, hunder, ⟨hkl, ?_, ?_⟩, ⟨hkr, ?_, ?_⟩, ?_⟩
    · rw [hleft, minKeys, btreeOrder]
      omega
    · rw [hleft, btreeOrder]
      omega
    · rw [hright, minKeys, btreeOrder]
    · rw [hright, btreeOrder]
      omega
    · rw [collectKv, collectKv, ← collectKvs_append, List.take_append_drop]
  next hroom => exact ⟨⟨hkids, hfew, Nat.lt_of_not_le hroom⟩, rfl⟩

theorem insertLeaf_holds [TransCmp cmp] {values : List ν}
    (h : WF cmp fewest 0 lo hi (.leaf keys values)) (hlo : AtLeast cmp lo key)
    (hhi : Under cmp key hi) :
    Holds cmp fewest 0 lo hi (SortedMap.insert cmp key value (keys.zip values))
      (insertLeaf cmp key value keys values) := by
  obtain ⟨hlength, hsorted, hbounds, hfew, hroom⟩ := h
  obtain ⟨front, back, rfl, hfront, hback⟩ :=
    Bisect.exists_split (p := fun k => cmp k key = .lt)
      (fun _ _ hxy hy => by
        simp only [decide_eq_true_eq] at hy ⊢
        exact TransCmp.lt_trans hxy hy) hsorted
  obtain ⟨before, after, rfl, hbefore⟩ : ∃ before after, values = before ++ after ∧
      before.length = front.length := by
    refine ⟨values.take front.length, values.drop front.length, (List.take_append_drop ..).symm, ?_⟩
    rw [List.length_take, hlength, List.length_append]
    omega
  have hpos : firstGeq cmp (front ++ back) key = front.length :=
    Bisect.partitionPoint_append hfront hback
  have hafter : after.length = back.length := by
    simp only [List.length_append] at hlength
    omega
  have hbelow : SortedMap.AllBelow cmp (front.zip before) key := fun e he => by
    simpa using hfront e.1 (List.of_mem_zip he).1
  rw [insertLeaf, hpos, List.getElem?_append_right (Nat.le_refl _), Nat.sub_self,
    List.zip_append hbefore.symm, SortedMap.insert_of_below hbelow]
  by_cases hthere : (back[0]?).any (fun k => cmp k key = .eq) = true
  · -- the key is there, and its value is replaced
    rw [if_pos hthere]
    cases back with
    | nil => cases hthere
    | cons k back =>
      have heq : cmp k key = .eq := by simpa using hthere
      cases after with
      | nil => cases hafter
      | cons v after =>
        rw [← hbefore, set_length, List.zip_cons_cons, SortedMap.insert, heq]
        refine ⟨⟨?_, hsorted, hbounds, hfew, hroom⟩, ?_⟩
        · simpa using hlength
        · rw [collectKv, List.zip_append hbefore.symm, List.zip_cons_cons]
  · -- the key is new, and comes before what is not below it
    rw [if_neg hthere, insertIdx_length]
    have hgt : ∀ k ∈ back, cmp key k = .lt := by
      intro k hk
      cases back with
      | nil => cases hk
      | cons s back =>
        have hs : cmp key s = .lt := by
          have hne : cmp s key ≠ .eq := by simpa using hthere
          have hnlt : cmp s key ≠ .lt := by simpa using hback s List.mem_cons_self
          cases hcmp : cmp s key with
          | lt => exact absurd hcmp hnlt
          | eq => exact absurd hcmp hne
          | gt => exact OrientedCmp.lt_of_gt hcmp
        rcases List.mem_cons.mp hk with rfl | hk
        · exact hs
        · have hsk := (List.pairwise_cons.mp (List.pairwise_append.mp hsorted).2.1).1 k hk
          exact TransCmp.lt_trans hs hsk
    have hinsert : SortedMap.insert cmp key value (back.zip after) =
        (key, value) :: back.zip after := by
      cases back with
      | nil => rfl
      | cons s back =>
        cases after with
        | nil => cases hafter
        | cons v after =>
          have hs : cmp s key = .gt := OrientedCmp.gt_of_lt (hgt s List.mem_cons_self)
          rw [List.zip_cons_cons, SortedMap.insert, hs]
    rw [← hbefore, insertIdx_length, hinsert, ← List.zip_cons_cons, ← List.zip_append hbefore.symm]
    obtain ⟨hf, hb, hcross⟩ := List.pairwise_append.mp hsorted
    have hfront' : ∀ k ∈ front, cmp k key = .lt := fun k hk => by simpa using hfront k hk
    have hsize : (front ++ key :: back).length = (front ++ back).length + 1 := by
      simp only [List.length_append, List.length_cons]
      omega
    apply splitLeaf_holds
    · simp only [List.length_append, List.length_cons]
      omega
    · refine List.pairwise_append.mpr ⟨hf, List.pairwise_cons.mpr ⟨hgt, hb⟩, fun x hx y hy => ?_⟩
      rcases List.mem_cons.mp hy with rfl | hy
      · exact hfront' x hx
      · exact hcross x hx y hy
    · intro k hk
      rcases List.mem_append.mp hk with hk | hk
      · exact hbounds k (List.mem_append_left _ hk)
      · rcases List.mem_cons.mp hk with rfl | hk
        · exact ⟨hlo, hhi⟩
        · exact hbounds k (List.mem_append_right _ hk)
    · omega
    · omega

/-- The child that the key leads to, put back with what was split off it. -/
theorem insertSplit_holds [TransCmp cmp] {depth : ℕ} {front back : List κ}
    {before after : List (Node κ ν)} {child : Node κ ν} {a b : Option κ} {entries : List (κ × ν)}
    {result : Split κ ν} (hbefore : before.length = front.length)
    (haround : Around cmp (WF cmp minKeys depth) lo hi front before back after a b)
    (hresult : Holds cmp minKeys depth a b entries result) (hfew : fewest ≤ (front ++ back).length)
    (hroom : (front ++ back).length < btreeOrder) :
    Holds cmp fewest (depth + 1) lo hi (collectKvs before ++ entries ++ collectKvs after)
      (insertSplit cmp (front ++ back) (before ++ child :: after) before.length result) := by
  obtain ⟨newChild, split⟩ := result
  cases split with
  | none =>
    obtain ⟨hchild, rfl⟩ := hresult
    rw [insertSplit, set_length]
    have hone : Kids cmp (WF cmp minKeys depth) a b [] [newChild] := hchild
    have hkids := haround.fill hone
    rw [List.append_nil, List.append_assoc] at hkids
    exact ⟨⟨hkids, hfew, hroom⟩, collectKvs_around ..⟩
  | some split =>
    obtain ⟨splitKey, rightChild⟩ := split
    obtain ⟨hover, hunder, hleft, hright, rfl⟩ := hresult
    have hpos : firstGeq cmp (front ++ back) splitKey = front.length := by
      apply Bisect.partitionPoint_append
      · intro k hk
        exact decide_eq_true (haround.front_lt hover k hk)
      · intro k hk
        simp [haround.back_gt hunder k hk]
    have hkids := haround.fill (kids_pair.mpr ⟨hover, hunder, hleft, hright⟩)
    have hcollect : collectKvs (before ++ [newChild, rightChild] ++ after) =
        collectKvs before ++ (collectKv newChild ++ collectKv rightChild) ++
          collectKvs after := by
      simp [collectKvs_append, collectKvs]
    have hsize : (front ++ [splitKey] ++ back).length = (front ++ back).length + 1 := by
      simp only [List.length_append, List.length_cons, List.length_nil]
      omega
    rw [insertSplit, hpos, set_length, insertIdx_length, ← hbefore,
      insertIdx_length_succ, ← hcollect, List.append_cons front]
    rw [List.append_assoc before] at hkids ⊢
    exact splitInternal_holds hkids (by omega) (by omega)

/-- A key between the bounds of a subtree, put into it. -/
theorem insertNode_holds [TransCmp cmp] : ∀ {depth fewest : ℕ} {lo hi : Option κ}
    {node : Node κ ν}, WF cmp fewest depth lo hi node → AtLeast cmp lo key → Under cmp key hi →
    Holds cmp fewest depth lo hi (SortedMap.insert cmp key value (collectKv node))
      (insertNode cmp key value node)
  | 0, _, _, _, .leaf _ _, h, hlo, hhi => insertLeaf_holds h hlo hhi
  | depth + 1, _, lo, hi, .internal keys children, h, hlo, hhi => by
      obtain ⟨hkids, hfew, hroom⟩ := h
      obtain ⟨front, back, before, child, after, a, b, rfl, rfl, hroute⟩ :=
        hkids.route (wf_bounded minKeys depth) hlo hhi
      have hresult : Holds cmp minKeys depth a b _ (insertNode cmp key value child) :=
        insertNode_holds hroute.child hroute.atLeast hroute.under
      rw [insertNode, hroute.childIndex_eq, insertAt_length, collectKv, collectKvs_around,
        SortedMap.insert_between hroute.below hroute.above]
      exact insertSplit_holds hroute.length_eq hroute.around hresult hfew hroom
  | 0, _, _, _, .internal _ _, h, _, _ => h.elim
  | _ + 1, _, _, _, .leaf _ _, h, _, _ => h.elim

end RusqlEngine.Node
