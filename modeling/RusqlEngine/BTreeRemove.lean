import RusqlEngine.BTreeInvariant

/-!
# Removal from a B+Tree

A node that loses a key stays between its bounds with one key less; put back into its parent it
is filled up from a sibling or merged with one, and together they hold what they held. Below the
root no node loses its last key.
-/

namespace RusqlEngine.Node

open Std ListEdit SortedMap

variable {κ ν : Type} {cmp : κ → κ → Ordering} {lo hi a b : Option κ} {key s : κ}
  {depth fewest : ℕ} {front back : List κ} {before after : List (Node κ ν)} {l r : Node κ ν}

theorem removeAt_length (child : Node κ ν) (after : List (Node κ ν)) :
    ∀ before : List (Node κ ν), removeAt cmp key before.length (before ++ child :: after) =
      some (removeNode cmp key child)
  | [] => rfl
  | _ :: before => removeAt_length child after before

theorem WF.same_kind {fewest' : ℕ} {lo' hi' : Option κ} (hl : WF cmp fewest depth lo hi l)
    (hr : WF cmp fewest' depth lo' hi' r) :
    (∃ lk lv rk rv, l = .leaf lk lv ∧ r = .leaf rk rv ∧ depth = 0) ∨
      ∃ lk lc rk rc d, l = .internal lk lc ∧ r = .internal rk rc ∧ depth = d + 1 := by
  cases depth with
  | zero =>
    cases l with
    | internal => exact hl.elim
    | leaf lk lv =>
      cases r with
      | internal => exact hr.elim
      | leaf rk rv => exact .inl ⟨lk, lv, rk, rv, rfl, rfl, rfl⟩
  | succ d =>
    cases l with
    | leaf => exact hl.elim
    | internal lk lc =>
      cases r with
      | leaf => exact hr.elim
      | internal rk rc => exact .inr ⟨lk, lc, rk, rc, d, rfl, rfl, rfl⟩

section

/-- What two siblings have become, the key between them being `k`. -/
structure Shared (cmp : κ → κ → Ordering) (depth : ℕ) (a b : Option κ) (l r l' r' : Node κ ν)
    (k : κ) : Prop where
  kids : Kids cmp (WF cmp minKeys depth) a b [k] [l', r']
  collect : collectKv l' ++ collectKv r' = collectKv l ++ collectKv r

variable [TransCmp cmp]

section

variable {few few' : ℕ} {lk rk lk' rk' : List κ} {k : κ}

/-- The keys of two leaves, one behind the other. -/
theorem leaf_joined {lv rv : List ν} (hover : Over cmp a s) (hunder : Under cmp s b)
    (hl : WF cmp few 0 a (some s) (.leaf lk lv)) (hr : WF cmp few' 0 (some s) b (.leaf rk rv)) :
    (lk ++ rk).Pairwise (fun x y => cmp x y = .lt) ∧
      ∀ x ∈ lk ++ rk, AtLeast cmp a x ∧ Under cmp x b := by
  obtain ⟨-, hlsorted, hlbounds, -⟩ := hl
  obtain ⟨-, hrsorted, hrbounds, -⟩ := hr
  refine ⟨List.pairwise_append.mpr ⟨hlsorted, hrsorted, fun x hx y hy => ?_⟩, fun x hx => ?_⟩
  · exact TransCmp.lt_of_lt_of_isLE (hlbounds x hx).2 (hrbounds y hy).1
  · rcases List.mem_append.mp hx with hx | hx
    · obtain ⟨hax, hxs⟩ := hlbounds x hx
      exact ⟨hax, hunder.trans hxs⟩
    · obtain ⟨hsx, hxb⟩ := hrbounds x hx
      exact ⟨hover.atLeast.trans hsx, hxb⟩

/-- Two leaves after their entries were divided anew. -/
theorem leaf_shared {lv rv lv' rv' : List ν} (hover : Over cmp a s) (hunder : Under cmp s b)
    (hl : WF cmp few 0 a (some s) (.leaf lk lv)) (hr : WF cmp few' 0 (some s) b (.leaf rk rv))
    (hkeys : lk ++ rk = lk' ++ k :: rk') (hvalues : lv ++ rv = lv' ++ rv')
    (hlength : lv'.length = lk'.length) (hleft : minKeys ≤ lk'.length ∧ lk'.length < btreeOrder)
    (hright : minKeys ≤ (k :: rk').length ∧ (k :: rk').length < btreeOrder) :
    Shared cmp 0 a b (.leaf lk lv) (.leaf rk rv) (.leaf lk' lv') (.leaf (k :: rk') rv') k := by
  obtain ⟨hsorted, hbounds⟩ := leaf_joined hover hunder hl hr
  rw [hkeys] at hsorted hbounds
  obtain ⟨hl', hr', hcross⟩ := List.pairwise_append.mp hsorted
  obtain ⟨first, hfirst⟩ := List.exists_mem_of_length_pos (Nat.lt_of_lt_of_le (by decide) hleft.1)
  have hover' : Over cmp a k := (hbounds first (List.mem_append_left _ hfirst)).1.over
    (hcross first hfirst k List.mem_cons_self)
  have hk := hbounds k (List.mem_append_right _ List.mem_cons_self)
  refine ⟨kids_pair.mpr ⟨hover', hk.2, ⟨hlength, hl', fun x hx => ⟨?_, ?_⟩, hleft⟩,
    ⟨?_, hr', fun x hx => ⟨?_, ?_⟩, hright⟩⟩, ?_⟩
  · exact (hbounds x (List.mem_append_left _ hx)).1
  · exact hcross x hx k List.mem_cons_self
  · have hsame := congrArg List.length hkeys
    have hvalues' := congrArg List.length hvalues
    simp only [List.length_append, hl.1, hr.1, hlength] at hsame hvalues'
    omega
  · rcases List.mem_cons.mp hx with rfl | hx
    · exact ReflCmp.isLE_rfl
    · exact Ordering.isLE_of_eq_lt ((List.pairwise_cons.mp hr').1 x hx)
  · exact (hbounds x (List.mem_append_right _ hx)).2
  · simp only [collectKv]
    rw [← List.zip_append hlength.symm, ← List.zip_append hl.1.symm, hkeys, hvalues]

/-- Two internal nodes after their children were divided anew, with the key between them. -/
theorem internal_shared {lc rc lc' rc' : List (Node κ ν)} (hover : Over cmp a s)
    (hunder : Under cmp s b) (hl : WF cmp few (depth + 1) a (some s) (.internal lk lc))
    (hr : WF cmp few' (depth + 1) (some s) b (.internal rk rc))
    (hkeys : lk ++ s :: rk = lk' ++ k :: rk') (hkids : lc ++ rc = lc' ++ rc')
    (hlength : lc'.length = lk'.length + 1) (hleft : minKeys ≤ lk'.length ∧ lk'.length < btreeOrder)
    (hright : minKeys ≤ rk'.length ∧ rk'.length < btreeOrder) :
    Shared cmp (depth + 1) a b (.internal lk lc) (.internal rk rc) (.internal lk' lc')
      (.internal rk' rc') k := by
  have hwhole := (kids_append_iff hl.1.length_eq).mpr ⟨hover, hunder, hl.1, hr.1⟩
  rw [hkeys, hkids] at hwhole
  obtain ⟨hover', hunder', hl', hr'⟩ := (kids_append_iff hlength).mp hwhole
  refine ⟨kids_pair.mpr ⟨hover', hunder', ⟨hl', hleft⟩, ⟨hr', hright⟩⟩, ?_⟩
  simp only [collectKv, ← collectKvs_append, hkids]

end

/-- A node that has run short takes the last key of its left sibling. -/
theorem borrowFromLeft_shared (hlength : before.length = front.length) (hover : Over cmp a s)
    (hunder : Under cmp s b) (hl : WF cmp minKeys depth a (some s) l)
    (hmany : minKeys < l.keyCount) (hr : WF cmp (minKeys - 1) depth (some s) b r)
    (hshort : r.keyCount < minKeys) :
    ∃ k l' r', Shared cmp depth a b l r l' r' k ∧
      borrowFromLeft (front ++ s :: back) (before ++ l :: r :: after) (before.length + 1) =
        (front ++ k :: back, before ++ l' :: r' :: after) := by
  have hroom := (hl.keyCount).2
  have hfew := (hr.keyCount).1
  simp only [borrowFromLeft, Nat.add_sub_cancel, getElem?_length, getElem?_length_succ]
  rcases hl.same_kind hr with ⟨lk, lv, rk, rv, rfl, rfl, rfl⟩ | ⟨lk, lc, rk, rc, d, rfl, rfl, rfl⟩
  · simp only [keyCount] at hmany hroom hshort hfew
    obtain ⟨lk, k, rfl⟩ := exists_concat (Nat.zero_lt_of_lt hmany)
    have hlv := hl.1
    rw [List.length_append] at hlv hmany hroom
    obtain ⟨lv, v, rfl⟩ := exists_concat (by rw [hlv]; exact Nat.succ_pos _)
    refine ⟨k, .leaf lk lv, .leaf (k :: rk) (v :: rv), leaf_shared hover hunder hl hr (by simp)
      (by simp) (by simpa using hlv) ⟨Nat.le_of_lt_succ hmany, Nat.lt_of_succ_lt hroom⟩
      ⟨Nat.le_succ_of_pred_le hfew, Nat.lt_of_le_of_lt hshort (by decide)⟩, ?_⟩
    simp only [List.getLast?_concat, List.dropLast_concat, set_length, set_length_succ]
    rw [hlength, set_length]
  · simp only [keyCount] at hmany hroom hshort hfew
    obtain ⟨lk, k, rfl⟩ := exists_concat (Nat.zero_lt_of_lt hmany)
    have hlc := hl.1.length_eq
    rw [List.length_append] at hlc hmany hroom
    obtain ⟨lc, c, rfl⟩ := exists_concat (by rw [hlc]; exact Nat.succ_pos _)
    refine ⟨k, .internal lk lc, .internal (s :: rk) (c :: rc), internal_shared hover hunder hl hr
      (by simp) (by simp) (by simpa using hlc) ⟨Nat.le_of_lt_succ hmany, Nat.lt_of_succ_lt hroom⟩
      ⟨Nat.le_succ_of_pred_le hfew, Nat.lt_of_le_of_lt hshort (by decide)⟩, ?_⟩
    simp only [List.getLast?_concat, List.dropLast_concat, set_length, set_length_succ]
    rw [hlength, getElem?_length]
    simp only [set_length]

/-- A node that has run short takes the first key of its right sibling. -/
theorem borrowFromRight_shared (hlength : before.length = front.length) (hover : Over cmp a s)
    (hunder : Under cmp s b) (hl : WF cmp (minKeys - 1) depth a (some s) l)
    (hshort : l.keyCount < minKeys) (hr : WF cmp minKeys depth (some s) b r)
    (hmany : minKeys < r.keyCount) :
    ∃ k l' r', Shared cmp depth a b l r l' r' k ∧
      borrowFromRight (front ++ s :: back) (before ++ l :: r :: after) before.length =
        (front ++ k :: back, before ++ l' :: r' :: after) := by
  have hroom := (hr.keyCount).2
  have hfew := (hl.keyCount).1
  simp only [borrowFromRight, getElem?_length, getElem?_length_succ]
  rcases hl.same_kind hr with ⟨lk, lv, rk, rv, rfl, rfl, rfl⟩ | ⟨lk, lc, rk, rc, d, rfl, rfl, rfl⟩
  · simp only [keyCount] at hmany hroom hshort hfew
    obtain ⟨x, k, rk, rfl⟩ : ∃ x k rk', rk = x :: k :: rk' := by
      rcases rk with - | ⟨x, - | ⟨k, rk⟩⟩
      · exact absurd hmany (Nat.not_lt_zero _)
      · simp [minKeys, btreeOrder] at hmany
      · exact ⟨x, k, rk, rfl⟩
    obtain ⟨v, rv, rfl⟩ :=
      List.exists_cons_of_length_pos (l := rv) (by rw [hr.1]; exact Nat.succ_pos _)
    refine ⟨k, .leaf (lk ++ [x]) (lv ++ [v]), .leaf (k :: rk) rv, leaf_shared hover hunder hl hr
      (by simp) (by simp) (by simp [hl.1]) ?_ ⟨Nat.le_of_lt_succ hmany, Nat.lt_of_succ_lt hroom⟩,
      ?_⟩
    · rw [List.length_append]
      exact ⟨Nat.le_succ_of_pred_le hfew, Nat.lt_of_le_of_lt hshort (by decide)⟩
    · simp only [set_length, set_length_succ]
      rw [hlength, set_length]
  · simp only [keyCount] at hmany hroom hshort hfew
    obtain ⟨k, rk, rfl⟩ := List.exists_cons_of_length_pos (Nat.zero_lt_of_lt hmany)
    obtain ⟨c, rc, rfl⟩ :=
      List.exists_cons_of_length_pos (l := rc) (by rw [hr.1.length_eq]; exact Nat.succ_pos _)
    refine ⟨k, .internal (lk ++ [s]) (lc ++ [c]), .internal rk rc, internal_shared hover hunder hl
      hr (by simp) (by simp) (by simp [hl.1.length_eq]) ?_
      ⟨Nat.le_of_lt_succ hmany, Nat.lt_of_succ_lt hroom⟩, ?_⟩
    · rw [List.length_append]
      exact ⟨Nat.le_succ_of_pred_le hfew, Nat.lt_of_le_of_lt hshort (by decide)⟩
    · simp only [set_length, set_length_succ]
      rw [hlength, getElem?_length]
      simp only [set_length]

/-- Two siblings that together have room in one node. -/
theorem mergeAt_kids {few few' : ℕ} (hlength : before.length = front.length)
    (hover : Over cmp a s) (hunder : Under cmp s b) (hl : WF cmp few depth a (some s) l)
    (hr : WF cmp few' depth (some s) b r) (hfew : minKeys ≤ l.keyCount + r.keyCount)
    (hroom : l.keyCount + r.keyCount + 1 < btreeOrder) :
    ∃ node, WF cmp minKeys depth a b node ∧ collectKv node = collectKv l ++ collectKv r ∧
      mergeAt (front ++ s :: back) (before ++ l :: r :: after) before.length =
        (front ++ back, before ++ node :: after) := by
  have hkey : (front ++ s :: back)[before.length]? = some s := by
    rw [hlength, getElem?_length]
  have hkeys : (front ++ s :: back).eraseIdx before.length = front ++ back := by
    rw [hlength, eraseIdx_length]
  simp only [mergeAt, getElem?_length, getElem?_length_succ, hkey, hkeys, set_length]
  rcases hl.same_kind hr with ⟨lk, lv, rk, rv, rfl, rfl, rfl⟩ | ⟨lk, lc, rk, rc, d, rfl, rfl, rfl⟩
  · obtain ⟨hsorted, hbounds⟩ := leaf_joined hover hunder hl hr
    simp only [keyCount] at hfew hroom
    refine ⟨.leaf (lk ++ rk) (lv ++ rv), ⟨?_, hsorted, hbounds, ?_, ?_⟩, ?_, ?_⟩
    · rw [List.length_append, List.length_append, hl.1, hr.1]
    · rwa [List.length_append]
    · rw [List.length_append]
      exact Nat.lt_of_succ_lt hroom
    · exact List.zip_append hl.1.symm
    · simp only [merged, eraseIdx_length_succ]
  · obtain ⟨hlkids, -⟩ := hl
    obtain ⟨hrkids, -⟩ := hr
    simp only [keyCount] at hfew hroom
    refine ⟨.internal (lk ++ s :: rk) (lc ++ rc), ⟨?_, ?_, ?_⟩, ?_, ?_⟩
    · exact (kids_append_iff hlkids.length_eq).mpr ⟨hover, hunder, hlkids, hrkids⟩
    · rw [List.length_append, List.length_cons]
      exact Nat.le_succ_of_le hfew
    · rwa [List.length_append, List.length_cons, ← Nat.add_assoc]
    · simp only [collectKv, collectKvs_append]
    · simp only [merged, eraseIdx_length_succ]

/-- The children of a node around one that has run short, after it was filled up. -/
structure Refilled (cmp : κ → κ → Ordering) (depth : ℕ) (lo hi : Option κ) (size : ℕ)
    (entries : List (κ × ν)) (node : List κ × List (Node κ ν)) : Prop where
  kids : Kids cmp (WF cmp minKeys depth) lo hi node.1 node.2
  size_le : size ≤ node.1.length + 1
  le_size : node.1.length ≤ size
  collect : collectKvs node.2 = entries

theorem collectKvs_pair (before : List (Node κ ν)) (l r : Node κ ν) (after : List (Node κ ν)) :
    collectKvs (before ++ l :: r :: after) =
      collectKvs before ++ (collectKv l ++ collectKv r) ++ collectKvs after := by
  rw [collectKvs_append, collectKvs, collectKvs, ← List.append_assoc (collectKv l),
    List.append_assoc (collectKvs before)]

omit [TransCmp cmp] in
theorem Shared.refilled {l' r' : Node κ ν} {k : κ}
    (haround : Around cmp (WF cmp minKeys depth) lo hi front before back after a b)
    (h : Shared cmp depth a b l r l' r' k) :
    Refilled cmp depth lo hi (front ++ s :: back).length
      (collectKvs (before ++ l :: r :: after))
      (front ++ k :: back, before ++ l' :: r' :: after) := by
  have hkids := haround.fill h.kids
  rw [List.append_assoc, List.append_assoc] at hkids
  refine ⟨hkids, ?_, ?_, ?_⟩
  · simp only [List.length_append, List.length_cons, Nat.le_succ]
  · simp only [List.length_append, List.length_cons, Nat.le_refl]
  · rw [collectKvs_pair, collectKvs_pair, h.collect]

omit [TransCmp cmp] in
theorem Around.refilled {node : Node κ ν}
    (haround : Around cmp (WF cmp minKeys depth) lo hi front before back after a b)
    (hnode : WF cmp minKeys depth a b node)
    (hcollect : collectKv node = collectKv l ++ collectKv r) :
    Refilled cmp depth lo hi (front ++ s :: back).length
      (collectKvs (before ++ l :: r :: after)) (front ++ back, before ++ node :: after) := by
  have hone : Kids cmp (WF cmp minKeys depth) a b [] [node] := hnode
  have hkids := haround.fill hone
  rw [List.append_nil, List.append_assoc] at hkids
  refine ⟨hkids, ?_, ?_, ?_⟩
  · simp only [List.length_append, List.length_cons, Nat.add_assoc, Nat.le_refl]
  · simp only [List.length_append, List.length_cons, Nat.add_le_add_iff_left, Nat.le_succ]
  · rw [collectKvs_pair, collectKvs_around, hcollect]

variable {P : Option κ → Option κ → Node κ ν → Prop} {child updated : Node κ ν}

theorem Around.left_sibling (hP : Bounded cmp P) (hlength : before.length = front.length)
    (h : Kids cmp P lo hi (front ++ s :: back) (before ++ l :: child :: after))
    (haround : Around cmp P lo hi (front ++ [s]) (before ++ [l]) back after a b) :
    a = some s ∧ ∃ a', Over cmp a' s ∧ Under cmp s b ∧ P a' (some s) l ∧
      Around cmp P lo hi front before back after a' b := by
  have hwhole : Kids cmp P lo hi (front ++ [s] ++ back) (before ++ [l, child] ++ after) := by
    simpa using h
  obtain ⟨a', b', hpair, hsiblings⟩ := hwhole.around hP hlength rfl
  obtain ⟨hover, hunder, hl, -⟩ := kids_pair.mp hpair
  have hb : b = b' := haround.right_eq.trans hsiblings.right_eq.symm
  have ha : a = some s := by
    rw [haround.left_eq, List.getLast?_concat, Option.some_or]
  exact ⟨ha, a', hover, hb ▸ hunder, hl, hb ▸ hsiblings⟩

theorem Around.right_sibling (hP : Bounded cmp P) (hlength : before.length = front.length)
    (h : Kids cmp P lo hi (front ++ s :: back) (before ++ child :: r :: after))
    (haround : Around cmp P lo hi front before (s :: back) (r :: after) a b) :
    b = some s ∧ ∃ b', Over cmp a s ∧ Under cmp s b' ∧ P (some s) b' r ∧
      Around cmp P lo hi front before back after a b' := by
  have hwhole : Kids cmp P lo hi (front ++ [s] ++ back) (before ++ [child, r] ++ after) := by
    simpa using h
  obtain ⟨a', b', hpair, hsiblings⟩ := hwhole.around hP hlength rfl
  obtain ⟨hover, hunder, -, hr⟩ := kids_pair.mp hpair
  have ha : a = a' := haround.left_eq.trans hsiblings.left_eq.symm
  have hb : b = some s := by
    rw [haround.right_eq, List.head?_cons, Option.some_or]
  exact ⟨hb, b', ha ▸ hover, hunder, hr, ha ▸ hsiblings⟩

section

variable (hlength : before.length = front.length)
  (hupdated : WF cmp (minKeys - 1) depth a b updated) (hshort : updated.keyCount < minKeys)

include hlength hupdated hshort

theorem borrowFromLeft_refilled
    (h : Kids cmp (WF cmp minKeys depth) lo hi (front ++ s :: back) (before ++ l :: child :: after))
    (haround : Around cmp (WF cmp minKeys depth) lo hi (front ++ [s]) (before ++ [l]) back after a
      b) (hmany : minKeys < l.keyCount) :
    Refilled cmp depth lo hi (front ++ s :: back).length
      (collectKvs (before ++ l :: updated :: after))
      (borrowFromLeft (front ++ s :: back) (before ++ l :: updated :: after)
        (before.length + 1)) := by
  obtain ⟨rfl, a', hover, hunder, hl, hsiblings⟩ :=
    haround.left_sibling (wf_bounded minKeys depth) hlength h
  obtain ⟨k, l', r', hshared, heq⟩ :=
    borrowFromLeft_shared hlength hover hunder hl hmany hupdated hshort
  rw [heq]
  exact hshared.refilled hsiblings

theorem borrowFromRight_refilled
    (h : Kids cmp (WF cmp minKeys depth) lo hi (front ++ s :: back) (before ++ child :: r :: after))
    (haround : Around cmp (WF cmp minKeys depth) lo hi front before (s :: back) (r :: after) a b)
    (hmany : minKeys < r.keyCount) :
    Refilled cmp depth lo hi (front ++ s :: back).length
      (collectKvs (before ++ updated :: r :: after))
      (borrowFromRight (front ++ s :: back) (before ++ updated :: r :: after) before.length) := by
  obtain ⟨rfl, b', hover, hunder, hr, hsiblings⟩ :=
    haround.right_sibling (wf_bounded minKeys depth) hlength h
  obtain ⟨k, l', r', hshared, heq⟩ :=
    borrowFromRight_shared hlength hover hunder hupdated hshort hr hmany
  rw [heq]
  exact hshared.refilled hsiblings

theorem mergeWithLeft_refilled
    (h : Kids cmp (WF cmp minKeys depth) lo hi (front ++ s :: back) (before ++ l :: child :: after))
    (haround : Around cmp (WF cmp minKeys depth) lo hi (front ++ [s]) (before ++ [l]) back after a
      b) (hfew : ¬ minKeys < l.keyCount) :
    Refilled cmp depth lo hi (front ++ s :: back).length
      (collectKvs (before ++ l :: updated :: after))
      (mergeWithLeft (front ++ s :: back) (before ++ l :: updated :: after)
        (before.length + 1)) := by
  obtain ⟨rfl, a', hover, hunder, hl, hsiblings⟩ :=
    haround.left_sibling (wf_bounded minKeys depth) hlength h
  obtain ⟨node, hnode, hcollect, heq⟩ := mergeAt_kids hlength hover hunder hl hupdated
    (hl.keyCount.1.trans (Nat.le_add_right ..)) (by
      rw [minKeys, btreeOrder] at hfew hshort
      rw [btreeOrder]
      omega)
  rw [mergeWithLeft, Nat.add_sub_cancel, heq]
  exact hsiblings.refilled hnode hcollect

theorem mergeWithRight_refilled
    (h : Kids cmp (WF cmp minKeys depth) lo hi (front ++ s :: back) (before ++ child :: r :: after))
    (haround : Around cmp (WF cmp minKeys depth) lo hi front before (s :: back) (r :: after) a b)
    (hfew : ¬ minKeys < r.keyCount) :
    Refilled cmp depth lo hi (front ++ s :: back).length
      (collectKvs (before ++ updated :: r :: after))
      (mergeWithRight (front ++ s :: back) (before ++ updated :: r :: after) before.length) := by
  obtain ⟨rfl, b', hover, hunder, hr, hsiblings⟩ :=
    haround.right_sibling (wf_bounded minKeys depth) hlength h
  obtain ⟨node, hnode, hcollect, heq⟩ := mergeAt_kids hlength hover hunder hupdated hr
    (hr.keyCount.1.trans (Nat.le_add_left ..)) (by
      rw [minKeys, btreeOrder] at hfew hshort
      rw [btreeOrder]
      omega)
  rw [mergeWithRight, heq]
  exact hsiblings.refilled hnode hcollect

/-- A child with a left sibling is filled up. -/
theorem rebalanceChild_refilled_of_left
    (h : Kids cmp (WF cmp minKeys depth) lo hi (front ++ s :: back) (before ++ l :: child :: after))
    (haround : Around cmp (WF cmp minKeys depth) lo hi (front ++ [s]) (before ++ [l]) back after a
      b) :
    Refilled cmp depth lo hi (front ++ s :: back).length
      (collectKvs (before ++ l :: updated :: after))
      (rebalanceChild (front ++ s :: back) (before ++ l :: updated :: after)
        (before.length + 1)) := by
  have hidx : (before ++ [l]).length = before.length + 1 := List.length_append ..
  have hleft : (before ++ l :: updated :: after)[before.length + 1 - 1]? = some l := by
    rw [Nat.add_sub_cancel, getElem?_length]
  rw [rebalanceChild, hleft]
  by_cases hl : minKeys < l.keyCount
  · rw [if_pos ⟨Nat.succ_pos _, decide_eq_true hl⟩]
    exact borrowFromLeft_refilled hlength hupdated hshort h haround hl
  rw [if_neg fun hboth => hl (of_decide_eq_true hboth.2)]
  split
  next hright =>
    have htotal := h.length_eq
    simp only [List.length_append, List.length_cons] at htotal
    cases after with
    | nil =>
      have hroom := hright.1
      simp only [List.length_append, List.length_cons, List.length_nil] at hroom
      omega
    | cons r after =>
      cases back with
      | nil =>
        simp only [List.length_cons, List.length_nil] at htotal
        omega
      | cons s' back =>
        have hr : minKeys < r.keyCount := by
          have hnext := hright.2
          rw [← hidx, List.append_cons before, getElem?_length_succ] at hnext
          exact of_decide_eq_true hnext
        have hconcat : (before ++ [l]).length = (front ++ [s]).length := by
          rw [List.length_append, List.length_append, hlength]
          rfl
        rw [List.append_cons front, List.append_cons before] at h ⊢
        rw [← hidx]
        exact borrowFromRight_refilled hconcat hupdated hshort h haround hr
  next =>
    rw [if_pos (Nat.succ_pos _)]
    exact mergeWithLeft_refilled hlength hupdated hshort h haround hl

end

/-- The first child is filled up. -/
theorem rebalanceChild_refilled_of_first
    (h : Kids cmp (WF cmp minKeys depth) lo hi (s :: back) (child :: r :: after))
    (haround : Around cmp (WF cmp minKeys depth) lo hi [] [] (s :: back) (r :: after) a b)
    (hupdated : WF cmp (minKeys - 1) depth a b updated) (hshort : updated.keyCount < minKeys) :
    Refilled cmp depth lo hi (s :: back).length (collectKvs (updated :: r :: after))
      (rebalanceChild (s :: back) (updated :: r :: after) 0) := by
  have hnil : ([] : List (Node κ ν)).length = ([] : List κ).length := rfl
  rw [rebalanceChild, if_neg fun hboth => Nat.lt_irrefl 0 hboth.1]
  have hright : 0 + 1 < (updated :: r :: after).length := Nat.succ_lt_succ (Nat.succ_pos _)
  by_cases hr : minKeys < r.keyCount
  · rw [if_pos ⟨hright, decide_eq_true hr⟩]
    exact borrowFromRight_refilled hnil hupdated hshort h haround hr
  · rw [if_neg fun hboth => hr (of_decide_eq_true hboth.2), if_neg (Nat.lt_irrefl 0), if_pos hright]
    exact mergeWithRight_refilled hnil hupdated hshort h haround hr

/-- The child on the way of a key has run short, and is filled up. -/
theorem rebalanceChild_refilled (hlength : before.length = front.length)
    (h : Kids cmp (WF cmp minKeys depth) lo hi (front ++ back) (before ++ child :: after))
    (haround : Around cmp (WF cmp minKeys depth) lo hi front before back after a b)
    (hupdated : WF cmp (minKeys - 1) depth a b updated) (hshort : updated.keyCount < minKeys)
    (hkeys : 0 < (front ++ back).length) :
    Refilled cmp depth lo hi (front ++ back).length (collectKvs (before ++ updated :: after))
      (rebalanceChild (front ++ back) (before ++ updated :: after) before.length) := by
  have htotal := h.length_eq
  rcases List.eq_nil_or_concat front with rfl | ⟨front, s, rfl⟩
  · obtain rfl := List.length_eq_zero_iff.mp hlength
    cases back with
    | nil => exact absurd hkeys (Nat.lt_irrefl 0)
    | cons s back =>
      cases after with
      | nil => simp at htotal
      | cons r after => exact rebalanceChild_refilled_of_first h haround hupdated hshort
  · obtain ⟨before, l, rfl⟩ := exists_concat (by
      rw [hlength, List.concat_eq_append, List.length_append]
      exact Nat.succ_pos _)
    simp only [List.concat_eq_append, List.append_assoc, List.singleton_append] at *
    have hbefore : before.length = front.length := by simpa using hlength
    have hidx : (before ++ [l]).length = before.length + 1 := List.length_append ..
    rw [hidx]
    exact rebalanceChild_refilled_of_left hbefore hupdated hshort h haround

end

section

variable [TransCmp cmp]

theorem exists_removeLeaf (key : κ) {keys : List κ} {values : List ν}
    (h : WF cmp fewest 0 lo hi (.leaf keys values)) :
    ∃ keys' values', WF cmp (fewest - 1) 0 lo hi (.leaf keys' values') ∧
      keys'.zip values' = erase cmp key (keys.zip values) ∧
      removeLeaf cmp key keys values = if keys' = [] then none else some (.leaf keys' values') := by
  obtain ⟨hlength, hsorted, hbounds, hfew, hroom⟩ := h
  by_cases hthere : ∃ k ∈ keys, cmp k key = .eq
  · obtain ⟨k, hk, heq⟩ := hthere
    obtain ⟨front, back, rfl⟩ := List.append_of_mem hk
    obtain ⟨before, rest, rfl, hbefore⟩ : ∃ before rest, values = before ++ rest ∧
        before.length = front.length := by
      refine ⟨values.take front.length, values.drop front.length,
        (List.take_append_drop ..).symm, ?_⟩
      rw [List.length_take, hlength, List.length_append]
      exact Nat.min_eq_left (Nat.le_add_right ..)
    cases rest with
    | nil =>
      simp only [List.length_append, List.length_cons, List.length_nil] at hlength
      omega
    | cons v after =>
      obtain ⟨hsfront, hsback, hcross⟩ := List.pairwise_append.mp hsorted
      obtain ⟨hkback, hsback⟩ := List.pairwise_cons.mp hsback
      have hfront : ∀ x ∈ front, cmp x key = .lt := fun x hx =>
        TransCmp.lt_of_lt_of_eq (hcross x hx k List.mem_cons_self) heq
      have hback : ∀ x ∈ back, cmp key x = .lt := fun x hx =>
        TransCmp.lt_of_eq_of_lt (OrientedCmp.eq_symm heq) (hkback x hx)
      have hfind : ((front ++ k :: back).findIdx? fun x => cmp x key = .eq) =
          some front.length :=
        findIdx?_length front back k (fun x hx => by simp [hfront x hx])
          (decide_eq_true heq)
      have hsizes : before.length = front.length ∧ after.length = back.length := by
        simp only [List.length_append, List.length_cons] at hlength
        omega
      refine ⟨front ++ back, before ++ after, ⟨?_, ?_, fun x hx => ?_, ?_, ?_⟩, ?_, ?_⟩
      · rw [List.length_append, List.length_append, hsizes.1, hsizes.2]
      · refine List.pairwise_append.mpr ⟨hsfront, hsback, fun x hx y hy => ?_⟩
        exact hcross x hx y (List.mem_cons_of_mem k hy)
      · refine hbounds x ?_
        rcases List.mem_append.mp hx with hx | hx
        · exact List.mem_append_left _ hx
        · exact List.mem_append_right _ (List.mem_cons_of_mem k hx)
      · rw [List.length_append, List.length_cons] at hfew
        rw [List.length_append]
        omega
      · rw [List.length_append, List.length_cons] at hroom
        rw [List.length_append]
        omega
      · have hbelow : AllBelow cmp (front.zip before) key := fun e he =>
          hfront e.1 (List.of_mem_zip he).1
        have habove : AllAbove cmp (back.zip after) key := fun e he =>
          hback e.1 (List.of_mem_zip he).1
        rw [List.zip_append hsizes.1.symm, List.zip_append hsizes.1.symm, List.zip_cons_cons,
          List.append_cons, erase_between hbelow habove]
        simp [erase, heq]
      · have hvalues : (before ++ v :: after).eraseIdx front.length = before ++ after := by
          rw [← hbefore, eraseIdx_length]
        simp only [removeLeaf, hfind, eraseIdx_length, hvalues]
  · have hne : ∀ k ∈ keys, cmp k key ≠ .eq := fun k hk heq => hthere ⟨k, hk, heq⟩
    have hfind : (keys.findIdx? fun k => cmp k key = .eq) = none :=
      List.findIdx?_eq_none_iff.mpr fun k hk => decide_eq_false (hne k hk)
    refine ⟨keys, values, ⟨hlength, hsorted, hbounds, (Nat.sub_le ..).trans hfew, hroom⟩, ?_, ?_⟩
    · exact (erase_eq_self fun e he => hne e.1 (List.of_mem_zip he).1).symm
    · rw [removeLeaf, hfind]

omit [TransCmp cmp] in
theorem Refilled.below {size : ℕ} {entries : List (κ × ν)} {node : List κ × List (Node κ ν)}
    (h : Refilled cmp depth lo hi size entries node) (hfew : fewest ≤ size) (htwo : 2 ≤ fewest)
    (hroom : size < btreeOrder) :
    WF cmp (fewest - 1) (depth + 1) lo hi (collapsed node) ∧
      collectKv (collapsed node) = entries := by
  obtain ⟨keys, children⟩ := node
  obtain ⟨hkids, hsize, hsize', hcollect⟩ := h
  dsimp only at hkids hsize hsize' hcollect
  have hlength := hkids.length_eq
  have hinternal : collapsed (keys, children) = .internal keys children := by
    match children with
    | [] => rfl
    | [_] =>
      rw [List.length_singleton] at hlength
      omega
    | _ :: _ :: _ => rfl
  rw [hinternal]
  exact ⟨⟨hkids, by omega, hsize'.trans_lt hroom⟩, hcollect⟩

omit [TransCmp cmp] in
theorem Refilled.root {size : ℕ} {entries : List (κ × ν)} {node : List κ × List (Node κ ν)}
    (h : Refilled cmp depth lo hi size entries node) (hroom : size < btreeOrder) :
    (WF cmp 1 (depth + 1) lo hi (collapsed node) ∨ WF cmp minKeys depth lo hi (collapsed node)) ∧
      collectKv (collapsed node) = entries := by
  obtain ⟨keys, children⟩ := node
  obtain ⟨hkids, -, hsize, hcollect⟩ := h
  dsimp only at hkids hsize hcollect
  have hlength := hkids.length_eq
  cases keys with
  | nil =>
    obtain ⟨child, rfl⟩ := List.length_eq_one_iff.mp hlength
    rw [collectKvs, collectKvs, List.append_nil] at hcollect
    exact ⟨.inr hkids, hcollect⟩
  | cons key keys =>
    cases children with
    | nil => exact hkids.elim
    | cons child children =>
      cases children with
      | nil => cases hlength
      | cons child' children =>
        exact ⟨.inl ⟨hkids, Nat.succ_pos _, hsize.trans_lt hroom⟩, hcollect⟩

variable {updated : Node κ ν} {child : Node κ ν}

/-- The child that the key leads to, put back with at most one key less. -/
theorem exists_putBack
    (h : Kids cmp (WF cmp minKeys depth) lo hi (front ++ back) (before ++ child :: after))
    (hroute : Route cmp (WF cmp minKeys depth) lo hi key front back before child after a b)
    (hupdated : WF cmp (minKeys - 1) depth a b updated) (hkeys : 0 < (front ++ back).length) :
    ∃ node, Refilled cmp depth lo hi (front ++ back).length
        (collectKvs before ++ collectKv updated ++ collectKvs after) node ∧
      putBack (front ++ back) (before ++ child :: after) before.length updated =
        collapsed node := by
  rw [putBack, set_length, ← collectKvs_around]
  split
  next hshort =>
    exact ⟨_, rebalanceChild_refilled hroute.length_eq h hroute.around hupdated hshort hkeys, rfl⟩
  next hmany =>
    have hone : Kids cmp (WF cmp minKeys depth) a b [] [updated] :=
      hupdated.of_keyCount (Nat.le_of_not_lt hmany)
    have hkids := hroute.around.fill hone
    rw [List.append_nil, List.append_assoc] at hkids
    exact ⟨_, ⟨hkids, Nat.le_succ _, Nat.le_refl _, rfl⟩, rfl⟩

/-- A key between the bounds of a subtree below the root, taken out of it. -/
theorem exists_removeNode : ∀ {depth : ℕ} {lo hi : Option κ} {node : Node κ ν},
    WF cmp minKeys depth lo hi node → AtLeast cmp lo key → Under cmp key hi →
    ∃ node', removeNode cmp key node = some node' ∧ WF cmp (minKeys - 1) depth lo hi node' ∧
      collectKv node' = erase cmp key (collectKv node)
  | 0, _, _, .leaf keys values, h, _, _ => by
      obtain ⟨keys', values', hleaf, herase, heq⟩ := exists_removeLeaf key h
      have hsome : keys' ≠ [] := by
        rintro rfl
        exact absurd hleaf.keyCount.1 (Nat.not_succ_le_zero _)
      rw [removeNode, heq, if_neg hsome]
      exact ⟨_, rfl, hleaf, herase⟩
  | depth + 1, lo, hi, .internal keys children, h, hlo, hhi => by
      obtain ⟨hkids, hfew, hroom⟩ := h
      obtain ⟨front, back, before, child, after, a, b, rfl, rfl, hroute⟩ :=
        hkids.route (wf_bounded minKeys depth) hlo hhi
      obtain ⟨updated, hremove, hupdated, hcollect⟩ :=
        exists_removeNode hroute.child hroute.atLeast hroute.under
      obtain ⟨node, hrefilled, hput⟩ :=
        exists_putBack hkids hroute hupdated (Nat.lt_of_lt_of_le (by decide) hfew)
      obtain ⟨hwf, hentries⟩ := hrefilled.below hfew (by decide) hroom
      rw [removeNode, hroute.childIndex_eq, removeAt_length, hremove]
      refine ⟨_, rfl, hput ▸ hwf, ?_⟩
      rw [hput, hentries, collectKv, collectKvs_around, hcollect,
        erase_between hroute.below hroute.above]
  | 0, _, _, .internal _ _, h, _, _ => h.elim
  | _ + 1, _, _, .leaf _ _, h, _, _ => h.elim

theorem removeNode_root (key : κ) {root : Node κ ν} (h : WF cmp 1 depth none none root) :
    (removeNode cmp key root = none ∧ erase cmp key (collectKv root) = []) ∨
      ∃ root' depth', removeNode cmp key root = some root' ∧ WF cmp 1 depth' none none root' ∧
        collectKv root' = erase cmp key (collectKv root) := by
  cases depth with
  | zero =>
    cases root with
    | internal => exact h.elim
    | leaf keys values =>
      obtain ⟨keys', values', hleaf, herase, heq⟩ := exists_removeLeaf key h
      rw [removeNode, heq, collectKv, ← herase]
      split
      next hnil =>
        subst hnil
        exact .inl ⟨rfl, rfl⟩
      next hsome =>
        have hpos : 1 ≤ keys'.length := List.length_pos_iff.mpr hsome
        exact .inr ⟨_, 0, rfl, hleaf.of_keyCount hpos, rfl⟩
  | succ depth =>
    cases root with
    | leaf => exact h.elim
    | internal keys children =>
      have hlo : AtLeast cmp none key := trivial
      have hhi : Under cmp key none := trivial
      obtain ⟨hkids, hfew, hroom⟩ := h
      obtain ⟨front, back, before, child, after, a, b, rfl, rfl, hroute⟩ :=
        hkids.route (wf_bounded minKeys depth) hlo hhi
      obtain ⟨updated, hremove, hupdated, hcollect⟩ :=
        exists_removeNode hroute.child hroute.atLeast hroute.under
      obtain ⟨node, hrefilled, hput⟩ := exists_putBack hkids hroute hupdated hfew
      obtain ⟨hwf, hentries⟩ := hrefilled.root hroom
      rw [removeNode, hroute.childIndex_eq, removeAt_length, hremove]
      have hcollect : collectKv (collapsed node) = erase cmp key
          (collectKv (.internal (front ++ back) (before ++ child :: after))) := by
        rw [hentries, collectKv, collectKvs_around, hcollect,
          erase_between hroute.below hroute.above]
      refine .inr ?_
      rcases hwf with hwf | hwf
      · exact ⟨_, depth + 1, rfl, hput ▸ hwf, hput ▸ hcollect⟩
      · have hone : WF cmp 1 depth none none (collapsed node) :=
          hwf.of_keyCount (Nat.le_trans (by decide) hwf.keyCount.1)
        exact ⟨_, depth, rfl, hput ▸ hone, hput ▸ hcollect⟩

end

end RusqlEngine.Node
