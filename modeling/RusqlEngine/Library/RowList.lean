import Mathlib.Data.List.Find
import Mathlib.Data.List.Induction
import Mathlib.Data.List.Nodup
import Mathlib.Data.List.Perm.Basic

/-!
# Lists of rows under a comparison and a key

The stages of a query over lists: a stable sort by a three-way comparison, dropping the
elements that repeat a key, and grouping the elements that share one. A comparison need only
be consistent on the elements at hand.
-/

namespace RowList

variable {α κ : Type*}

section

def InOrder (cmp : α → α → Ordering) (l : List α) : Prop :=
  l.Pairwise fun a b => cmp a b ≠ .gt

/-- The comparison is oriented and transitive on the elements of the list. -/
structure Consistent (cmp : α → α → Ordering) (l : List α) : Prop where
  swap : ∀ a ∈ l, ∀ b ∈ l, cmp b a = (cmp a b).swap
  trans : ∀ a ∈ l, ∀ b ∈ l, ∀ c ∈ l, cmp a b ≠ .gt → cmp b c ≠ .gt → cmp a c ≠ .gt

def stableSort (cmp : α → α → Ordering) (l : List α) : List α :=
  l.mergeSort fun a b => cmp a b != .gt

variable {cmp cmp' : α → α → Ordering} {l l' : List α}

theorem Consistent.congr (h : Consistent cmp l)
    (heq : ∀ a ∈ l, ∀ b ∈ l, cmp' a b = cmp a b) : Consistent cmp' l where
  swap a ha b hb := by
    rw [heq b hb a ha, heq a ha b hb, h.swap a ha b hb]
  trans a ha b hb c hc := by
    rw [heq a ha b hb, heq b hb c hc, heq a ha c hc]
    exact h.trans a ha b hb c hc

theorem Consistent.then (h : Consistent cmp l) (h' : Consistent cmp' l) :
    Consistent (fun a b => (cmp a b).then (cmp' a b)) l where
  swap a ha b hb := by
    rw [h.swap a ha b hb, h'.swap a ha b hb, Ordering.swap_then]
  trans a ha b hb c hc := by
    have hab := h.trans a ha b hb c hc
    have hba := h.trans b hb c hc a ha
    have hca := h.trans c hc a ha b hb
    have htie := h'.trans a ha b hb c hc
    rw [h.swap a ha b hb, h.swap a ha c hc] at hba
    rw [h.swap a ha c hc, h.swap b hb c hc] at hca
    revert hab hba hca htie
    cases cmp a b <;> cases cmp b c <;> cases cmp a c <;> simp

theorem InOrder.congr (h : InOrder cmp l)
    (heq : ∀ a ∈ l, ∀ b ∈ l, cmp' a b = cmp a b) : InOrder cmp' l := by
  apply List.Pairwise.imp_of_mem _ h
  intro a b ha hb hab
  rw [heq a ha b hb]
  exact hab

theorem InOrder.sublist (h : InOrder cmp l) (hsub : l'.Sublist l) : InOrder cmp l' :=
  List.Pairwise.sublist hsub h

theorem InOrder.reverse (h : InOrder cmp l) (hswap : ∀ a b, cmp b a = (cmp a b).swap) :
    InOrder (fun a b => (cmp a b).swap) l.reverse := by
  refine List.pairwise_reverse.mpr (List.Pairwise.imp ?_ h)
  intro a b hab
  change (cmp b a).swap ≠ .gt
  rw [hswap a b, Ordering.swap_swap]
  exact hab

theorem stableSort_perm (cmp : α → α → Ordering) (l : List α) : (stableSort cmp l).Perm l :=
  List.mergeSort_perm l _

theorem stableSort_pair {x y : α} (h : cmp x y ≠ .gt) : stableSort cmp [x, y] = [x, y] :=
  List.mergeSort_of_pairwise (List.pairwise_pair.mpr (bne_iff_ne.mpr h))

theorem stableSort_triple {x y z : α} (hxy : cmp x y ≠ .gt) (hxz : cmp x z = .gt) :
    stableSort cmp [x, y, z] = [z, x, y] := by
  simp [stableSort, List.mergeSort, hxy, hxz]

/-- The order as `mergeSort` wants it, with its laws on the whole type: the elements at hand are
the type. -/
def ordered (cmp : α → α → Ordering) (l : List α) (a b : {a // a ∈ l}) : Bool :=
  cmp a.1 b.1 != .gt

theorem Consistent.ordered_trans (h : Consistent cmp l) (a b c : {a // a ∈ l}) :
    ordered cmp l a b → ordered cmp l b c → ordered cmp l a c := by
  intro hab hbc
  simp only [ordered, bne_iff_ne] at hab hbc ⊢
  exact h.trans a.1 a.2 b.1 b.2 c.1 c.2 hab hbc

theorem Consistent.ordered_total (h : Consistent cmp l) (a b : {a // a ∈ l}) :
    (ordered cmp l a b || ordered cmp l b a) := by
  simp only [ordered, h.swap a.1 a.2 b.1 b.2]
  cases cmp a.1 b.1 <;> rfl

theorem stableSort_eq_map (cmp : α → α → Ordering) (l : List α) :
    stableSort cmp l = (l.attach.mergeSort (ordered cmp l)).map Subtype.val := by
  have hmap : (l.attach.mergeSort (ordered cmp l)).map Subtype.val =
      (l.attach.map Subtype.val).mergeSort fun a b => cmp a b != .gt :=
    List.map_mergeSort fun a _ b _ => rfl
  rw [hmap, List.attach_map_subtype_val, stableSort]

theorem inOrder_stableSort (h : Consistent cmp l) : InOrder cmp (stableSort cmp l) := by
  have hsorted := List.pairwise_mergeSort h.ordered_trans h.ordered_total l.attach
  rw [stableSort_eq_map]
  refine List.Pairwise.map _ ?_ hsorted
  intro a b hab
  simpa only [ordered, bne_iff_ne] using hab

def isLeast (le : α → α → Bool) (l : List α) (a : α) : Bool :=
  l.all (le a)

theorem head?_mergeSort {le : α → α → Bool} (htrans : ∀ a b c, le a b → le b c → le a c)
    (htotal : ∀ a b, le a b || le b a) : ∀ l : List α,
    (l.mergeSort le).head? = l.find? (isLeast le l)
  | [] => by rw [List.mergeSort_nil]; rfl
  | a :: l => by
      obtain ⟨before, after, hsort, hrest, hbefore⟩ := List.mergeSort_cons htrans htotal a l
      have ih := head?_mergeSort htrans htotal l
      have hmem : ∀ b, b ∈ before ++ after ↔ b ∈ l := fun b => by rw [← hrest, List.mem_mergeSort]
      rw [hrest] at ih
      rw [hsort]
      cases before with
      | nil =>
        -- nothing stands before `a`: it is least
        have hpairs := List.pairwise_mergeSort htrans htotal (a :: l)
        have hself : le a a := by simpa using htotal a a
        have hleast : isLeast le (a :: l) a := by
          rw [hsort] at hpairs
          rw [isLeast, List.all_cons, hself, Bool.true_and, List.all_eq_true]
          exact fun b hb => (List.pairwise_cons.mp hpairs).1 b ((hmem b).mpr hb)
        rw [List.find?_cons_of_pos hleast]
        rfl
      | cons b before =>
        have hab : le a b = false := by simpa using hbefore b List.mem_cons_self
        have hba : le b a := by simpa [hab] using htotal a b
        have hb : b ∈ l := (hmem b).mp List.mem_cons_self
        have hnot : ¬ isLeast le (a :: l) a := fun hleast =>
          absurd (List.all_eq_true.mp hleast b (.tail _ hb)) (by simp [hab])
        -- what is least behind `a` is below `b`, which is below `a`
        have hsame : ∀ c ∈ l, isLeast le (a :: l) c = isLeast le l c := by
          intro c hc
          rw [isLeast, isLeast, List.all_cons]
          cases hall : l.all (le c) with
          | false => exact Bool.and_false _
          | true => rw [htrans c b a (List.all_eq_true.mp hall b hb) hba, Bool.true_and]
        rw [List.find?_cons_of_neg hnot, List.find?_congr hsame, ← ih]
        rfl

theorem head?_stableSort (h : Consistent cmp l) :
    (stableSort cmp l).head? = l.find? (isLeast (fun a b => cmp a b != .gt) l) := by
  have hleast (a : {a // a ∈ l}) :
      isLeast (ordered cmp l) l.attach a = isLeast (fun a b => cmp a b != .gt) l a.1 := by
    calc
      l.attach.all (ordered cmp l a) =
          (l.attach.map Subtype.val).all fun b => cmp a.1 b != .gt := by
        rw [List.all_map]
        rfl
      _ = l.all fun b => cmp a.1 b != .gt := by rw [List.attach_map_subtype_val]
  calc
    (stableSort cmp l).head? = (l.attach.find? (isLeast (ordered cmp l) l.attach)).map
        Subtype.val := by
      rw [stableSort_eq_map, List.head?_map, head?_mergeSort h.ordered_trans h.ordered_total]
    _ = (l.attach.map Subtype.val).find? (isLeast (fun a b => cmp a b != .gt) l) := by
      rw [List.find?_map, List.find?_congr fun a _ => hleast a]
      rfl
    _ = l.find? (isLeast (fun a b => cmp a b != .gt) l) := by rw [List.attach_map_subtype_val]

end

section

variable [DecidableEq κ] (key : α → κ)

/-- The first element of each key that has not been seen. -/
def firstOfEach : List κ → List α → List α
  | _, [] => []
  | seen, x :: xs =>
    if key x ∈ seen then firstOfEach seen xs else x :: firstOfEach (key x :: seen) xs

/-- `kept` is `all` without repeated keys: one element of each key is left. -/
structure DropsRepeats (kept all : List α) : Prop where
  sublist : kept.Sublist all
  nodup : (kept.map key).Nodup
  covers : ∀ x ∈ all, ∃ y ∈ kept, key y = key x

theorem firstOfEach_sublist (seen : List κ) (l : List α) : (firstOfEach key seen l).Sublist l := by
  induction l generalizing seen with
  | nil => exact List.Sublist.slnil
  | cons x xs ih =>
    simp only [firstOfEach]
    split
    · exact (ih seen).cons x
    · exact (ih _).cons_cons x

theorem key_notMem_of_mem_firstOfEach {seen : List κ} {l : List α} {x : α}
    (h : x ∈ firstOfEach key seen l) : key x ∉ seen := by
  induction l generalizing seen with
  | nil => simp [firstOfEach] at h
  | cons y ys ih =>
    simp only [firstOfEach] at h
    split at h
    · exact ih h
    · rename_i hnew
      rcases List.mem_cons.mp h with rfl | htail
      · exact hnew
      · exact fun hseen => ih htail (.tail _ hseen)

theorem nodup_firstOfEach (seen : List κ) (l : List α) :
    ((firstOfEach key seen l).map key).Nodup := by
  induction l generalizing seen with
  | nil => exact List.nodup_nil
  | cons x xs ih =>
    simp only [firstOfEach]
    split
    · exact ih seen
    · refine List.nodup_cons.mpr ⟨?_, ih _⟩
      rintro hmem
      obtain ⟨y, hy, hkey⟩ := List.mem_map.mp hmem
      exact key_notMem_of_mem_firstOfEach key hy (hkey ▸ List.mem_cons_self)

theorem covers_firstOfEach (seen : List κ) (l : List α) :
    ∀ x ∈ l, key x ∈ seen ∨ ∃ y ∈ firstOfEach key seen l, key y = key x := by
  induction l generalizing seen with
  | nil => simp
  | cons x xs ih =>
    intro y hy
    simp only [firstOfEach]
    rcases List.mem_cons.mp hy with rfl | hy
    · split
      · exact .inl ‹_›
      · exact .inr ⟨y, List.mem_cons_self, rfl⟩
    · split
      · exact ih seen y hy
      · rcases ih (key x :: seen) y hy with hseen | ⟨z, hz, hkey⟩
        · rcases List.mem_cons.mp hseen with hx | hseen
          · exact .inr ⟨x, List.mem_cons_self, hx.symm⟩
          · exact .inl hseen
        · exact .inr ⟨z, List.mem_cons_of_mem _ hz, hkey⟩

theorem firstOfEach_dropsRepeats (l : List α) : DropsRepeats key (firstOfEach key [] l) l where
  sublist := firstOfEach_sublist key [] l
  nodup := nodup_firstOfEach key [] l
  covers x hx := by
    rcases covers_firstOfEach key [] l x hx with hmem | h
    · cases hmem
    · exact h

/-- One more element: it joins the group of its key or opens a new one at the end. -/
def addToGroups : List (α × List α) → α → List (α × List α)
  | [], x => [(x, [x])]
  | (first, members) :: rest, x =>
    if key first = key x then (first, members ++ [x]) :: rest
    else (first, members) :: addToGroups rest x

def groupBy (l : List α) : List (α × List α) :=
  l.foldl (addToGroups key) []

/-- `groups` splits `all` by the key: a group for each key, of all the elements with it. -/
def Splits (groups : List (α × List α)) (all : List α) : Prop :=
  ∃ reps, DropsRepeats key reps all ∧
    groups = reps.map fun r => (r, all.filter fun x => key x = key r)

variable {key}

theorem addToGroups_map {reps all : List α} {x : α} (hnodup : (reps.map key).Nodup) :
    addToGroups key (reps.map fun r => (r, all.filter fun y => key y = key r)) x =
      if key x ∈ reps.map key then
        reps.map fun r => (r, (all ++ [x]).filter fun y => key y = key r)
      else (reps.map fun r => (r, all.filter fun y => key y = key r)) ++ [(x, [x])] := by
  induction reps with
  | nil => rfl
  | cons r rest ih =>
    rw [List.map_cons, List.nodup_cons] at hnodup
    simp only [List.map_cons, addToGroups]
    by_cases hr : key r = key x
    · have hrest : ∀ r' ∈ rest, key r' ≠ key x := by
        intro r' hr' heq
        exact hnodup.1 (hr ▸ heq ▸ List.mem_map_of_mem hr')
      have hsame : ∀ r' ∈ rest, (r', all.filter fun y => key y = key r') =
          (r', (all ++ [x]).filter fun y => key y = key r') := by
        intro r' hr'
        simp [List.filter_append, (hrest r' hr').symm]
      rw [if_pos hr, if_pos (by simp [hr]), List.map_congr_left hsame]
      simp [List.filter_append, hr]
    · have hx : key x ∈ key r :: rest.map key ↔ key x ∈ rest.map key := by
        simp [Ne.symm hr]
      have hone : (all ++ [x]).filter (fun y => key y = key r) =
          all.filter fun y => key y = key r := by
        simp [List.filter_append, Ne.symm hr]
      rw [if_neg hr, ih hnodup.2, hone]
      split <;> simp_all

theorem Splits.addToGroups {groups : List (α × List α)} {all : List α}
    (h : Splits key groups all) (x : α) : Splits key (addToGroups key groups x) (all ++ [x]) := by
  obtain ⟨reps, hreps, rfl⟩ := h
  rw [addToGroups_map hreps.nodup]
  split
  · rename_i hx
    refine ⟨reps, ⟨hreps.sublist.trans (List.sublist_append_left all [x]), hreps.nodup, ?_⟩, rfl⟩
    intro y hy
    rcases List.mem_append.mp hy with hy | hy
    · exact hreps.covers y hy
    · obtain rfl := List.mem_singleton.mp hy
      exact List.mem_map.mp hx
  · rename_i hx
    have hnew : ∀ y ∈ all, key y ≠ key x := by
      intro y hy heq
      obtain ⟨r, hr, hkey⟩ := hreps.covers y hy
      exact hx (heq ▸ hkey ▸ List.mem_map_of_mem hr)
    refine ⟨reps ++ [x], ⟨hreps.sublist.append_right [x], ?_, ?_⟩, ?_⟩
    · rw [List.map_append, List.nodup_append']
      refine ⟨hreps.nodup, List.nodup_singleton _, ?_⟩
      intro k hk hk'
      obtain rfl := List.mem_singleton.mp hk'
      exact hx hk
    · intro y hy
      rcases List.mem_append.mp hy with hy | hy
      · obtain ⟨r, hr, hkey⟩ := hreps.covers y hy
        exact ⟨r, List.mem_append_left _ hr, hkey⟩
      · exact ⟨x, List.mem_append_right _ (List.mem_singleton_self x),
          by rw [List.mem_singleton.mp hy]⟩
    · rw [List.map_append]
      congr 1
      · apply List.map_congr_left
        intro r hr
        have hne : key r ≠ key x := hnew r (hreps.sublist.subset hr)
        simp [List.filter_append, hne.symm]
      · have hall : all.filter (fun y => key y = key x) = [] := by
          simpa [List.filter_eq_nil_iff] using hnew
        simp [List.filter_append, hall]

theorem groupBy_splits (l : List α) : Splits key (groupBy key l) l := by
  induction l using List.reverseRecOn with
  | nil => exact ⟨[], ⟨List.Sublist.slnil, List.nodup_nil, by simp⟩, rfl⟩
  | append_singleton l x ih =>
    rw [groupBy, List.foldl_concat]
    exact ih.addToGroups x

end

end RowList
