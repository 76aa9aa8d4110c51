import Mathlib.Data.List.Duplicate
import Mathlib.Data.Set.Basic

/-!
# Rows derived by a term, up to a key

A term maps finite contents to rows and may fail. Rows that share a key count as one, so the
rows that are derived from a base are a set of keys: the least one with the keys of the base
that is closed under the term.
-/

namespace Fixpoint

variable {ρ κ ε : Type*}

def keysOf (key : ρ → κ) (rows : List ρ) : Set κ :=
  {k | ∃ r ∈ rows, key r = k}

/-- The term has an answer for the contents, with a row of this key. -/
def Gives (key : ρ → κ) (term : List ρ → Except ε (List ρ)) (contents : List ρ) (k : κ) : Prop :=
  ∃ rows, term contents = .ok rows ∧ k ∈ keysOf key rows

/-- Contents with more keys get more keys. -/
def Gains (key : ρ → κ) (term : List ρ → Except ε (List ρ)) : Prop :=
  ∀ contents contents' rows', keysOf key contents ⊆ keysOf key contents' →
    term contents' = .ok rows' → ∀ k, Gives key term contents k → k ∈ keysOf key rows'

/-- What the term gives for rows whose keys are in the set has its keys there too. -/
def Closed (key : ρ → κ) (term : List ρ → Except ε (List ρ)) (keys : Set κ) : Prop :=
  ∀ contents, keysOf key contents ⊆ keys → ∀ k, Gives key term contents k → k ∈ keys

/-- What the term gives for contents whose keys are in the set. -/
def consequences (key : ρ → κ) (term : List ρ → Except ε (List ρ)) (keys : Set κ) : Set κ :=
  {k | ∃ contents, keysOf key contents ⊆ keys ∧ Gives key term contents k}

/-- The keys that the base has or that so many steps of the term derive from it. -/
def stage (key : ρ → κ) (term : List ρ → Except ε (List ρ)) (base : List ρ) : Nat → Set κ
  | 0 => keysOf key base
  | n + 1 => stage key term base n ∪ consequences key term (stage key term base n)

/-- The keys of a stage that are not in the one before. -/
def added (key : ρ → κ) (term : List ρ → Except ε (List ρ)) (base : List ρ) : Nat → Set κ
  | 0 => keysOf key base
  | n + 1 => stage key term base (n + 1) \ stage key term base n

/-- The keys that a step of the term goes over: the whole stage, or what is new in it. -/
def stepKeys (key : ρ → κ) (term : List ρ → Except ε (List ρ)) (base : List ρ) (semiNaive : Bool)
    (n : Nat) : Set κ :=
  if semiNaive then added key term base n else stage key term base n

/-- What is new in a stage gives all that the stage gives beyond itself. -/
def AddedSuffice (key : ρ → κ) (term : List ρ → Except ε (List ρ)) (base : List ρ) : Prop :=
  ∀ n, consequences key term (stage key term base n) ⊆
    stage key term base n ∪ consequences key term (added key term base n)

/-- No step of the term finds a key that is not in the stage twice. -/
def NewOnce (key : ρ → κ) (term : List ρ → Except ε (List ρ)) (base : List ρ) (semiNaive : Bool) :
    Prop :=
  ∀ n contents rows, keysOf key contents = stepKeys key term base semiNaive n →
    (contents.map key).Nodup → term contents = .ok rows →
      ∀ k ∉ stage key term base n, ¬ List.Duplicate k (rows.map key)

/-- Every row of an answer comes from one row: the term answers any contents with a row of that key
the same way. -/
def RowByRow (key : ρ → κ) (term : List ρ → Except ε (List ρ)) : Prop :=
  ∀ contents k, Gives key term contents k → ∃ k' ∈ keysOf key contents,
    ∀ contents', k' ∈ keysOf key contents' → Gives key term contents' k

/-- The keys that are derived from the base. -/
inductive Derived (key : ρ → κ) (term : List ρ → Except ε (List ρ)) (base : List ρ) : κ → Prop
  | base {k : κ} : k ∈ keysOf key base → Derived key term base k
  | term {contents : List ρ} {k : κ} :
      (∀ k' ∈ keysOf key contents, Derived key term base k') →
      Gives key term contents k → Derived key term base k

variable {key : ρ → κ} {term : List ρ → Except ε (List ρ)} {base : List ρ}

theorem mem_keysOf {rows : List ρ} {k : κ} : k ∈ keysOf key rows ↔ k ∈ rows.map key :=
  List.mem_map.symm

theorem mem_keysOf_append {rows rows' : List ρ} {k : κ} :
    k ∈ keysOf key (rows ++ rows') ↔ k ∈ keysOf key rows ∨ k ∈ keysOf key rows' := by
  rw [mem_keysOf, mem_keysOf, mem_keysOf, List.map_append, List.mem_append]

theorem exists_key_of_derived {k : κ} (h : Derived key term base k) : ∃ r, key r = k := by
  cases h with
  | base hk => exact hk.imp fun _ => And.right
  | term _ hgives =>
    obtain ⟨_, _, hk⟩ := hgives
    exact hk.imp fun _ => And.right

theorem Derived.least {keys : Set κ} (hbase : keysOf key base ⊆ keys)
    (hclosed : Closed key term keys) {k : κ} (h : Derived key term base k) : k ∈ keys := by
  induction h with
  | base hk => exact hbase hk
  | term _ hgives ih => exact hclosed _ ih _ hgives

/-- A set of derived keys with the base among them is all of them if and only if it is
closed. -/
theorem eq_derived_iff_closed {keys : Set κ} (hbase : keysOf key base ⊆ keys)
    (hderived : ∀ k ∈ keys, Derived key term base k) :
    (∀ k, k ∈ keys ↔ Derived key term base k) ↔ Closed key term keys := by
  constructor
  · intro h contents hcontents k hk
    exact (h k).mpr (.term (fun k' hk' => (h k').mp (hcontents hk')) hk)
  · intro hclosed k
    exact ⟨hderived k, fun h => h.least hbase hclosed⟩

theorem closed_iff {keys : Set κ} : Closed key term keys ↔ consequences key term keys ⊆ keys :=
  ⟨fun h k ⟨contents, hsub, hk⟩ => h contents hsub k hk,
    fun h contents hsub _ hk => h ⟨contents, hsub, hk⟩⟩

theorem consequences_mono {keys keys' : Set κ} (h : keys ⊆ keys') :
    consequences key term keys ⊆ consequences key term keys' :=
  fun _ ⟨contents, hsub, hk⟩ => ⟨contents, hsub.trans h, hk⟩

theorem stage_mono {m n : Nat} (h : m ≤ n) : stage key term base m ⊆ stage key term base n := by
  induction h with
  | refl => exact subset_rfl
  | step _ ih => exact ih.trans Set.subset_union_left

theorem derived_of_mem_stage : ∀ {n : Nat} {k : κ}, k ∈ stage key term base n →
    Derived key term base k
  | 0, _, hk => .base hk
  | n + 1, _, hk => by
      rcases hk with hk | ⟨contents, hsub, hgives⟩
      · exact derived_of_mem_stage hk
      · exact .term (fun k' hk' => derived_of_mem_stage (hsub hk')) hgives

theorem added_subset_stage (n : Nat) : added key term base n ⊆ stage key term base n := by
  cases n with
  | zero => exact subset_rfl
  | succ n => exact fun _ hk => hk.1

theorem stepKeys_subset_stage (semiNaive : Bool) (n : Nat) :
    stepKeys key term base semiNaive n ⊆ stage key term base n := by
  rw [stepKeys]
  split
  · exact added_subset_stage n
  · exact subset_rfl

/-- A closed stage has the derived keys. -/
theorem mem_stage_iff_derived {n : Nat} (h : Closed key term (stage key term base n)) (k : κ) :
    k ∈ stage key term base n ↔ Derived key term base k :=
  (eq_derived_iff_closed (stage_mono (Nat.zero_le n)) fun _ => derived_of_mem_stage).mpr h k

/-- The next stage is what one answer of the term adds. -/
theorem stage_succ_eq (hgains : Gains key term) {semiNaive : Bool}
    (hsuffice : semiNaive → AddedSuffice key term base) {n : Nat} {contents rows : List ρ}
    (hkeys : keysOf key contents = stepKeys key term base semiNaive n)
    (hrows : term contents = .ok rows) :
    stage key term base (n + 1) = stage key term base n ∪ keysOf key rows := by
  have hgiven : consequences key term (stepKeys key term base semiNaive n) ⊆ keysOf key rows := by
    rintro k ⟨contents', hsub, hk⟩
    exact hgains contents' contents rows (hkeys ▸ hsub) hrows k hk
  apply Set.Subset.antisymm
  · apply Set.union_subset Set.subset_union_left
    cases semiNaive with
    | false => exact hgiven.trans Set.subset_union_right
    | true =>
      exact (hsuffice rfl n).trans (Set.union_subset_union_right _ hgiven)
  · apply Set.union_subset_union_right
    intro k hk
    exact ⟨contents, hkeys ▸ stepKeys_subset_stage semiNaive n, rows, hrows, hk⟩

theorem addedSuffice_of_rowByRow (h : RowByRow key term) : AddedSuffice key term base := by
  -- the row that a key comes from was new in some stage, and the next one has the key
  have hone : ∀ n k', k' ∈ stage key term base n → ∀ k,
      (∀ contents, k' ∈ keysOf key contents → Gives key term contents k) →
        k ∈ stage key term base n ∪ consequences key term (added key term base n) := by
    intro n
    induction n with
    | zero => exact fun k' hk' k hall => .inr ⟨base, subset_rfl, hall base hk'⟩
    | succ n ih =>
      intro k' hk' k hall
      by_cases hold : k' ∈ stage key term base n
      · refine .inl ?_
        rcases ih k' hold k hall with hk | hk
        · exact .inl hk
        · exact .inr (consequences_mono (added_subset_stage n) hk)
      · refine .inr ?_
        obtain ⟨contents, hsub, rows, hrows, r, hr, rfl⟩ := hk'.resolve_left hold
        refine ⟨[r], ?_, hall [r] ⟨r, List.mem_singleton_self r, rfl⟩⟩
        rintro k'' ⟨r', hr', rfl⟩
        rw [List.mem_singleton.mp hr']
        exact ⟨hk', hold⟩
  rintro n k ⟨contents, hsub, hk⟩
  obtain ⟨k', hk', hall⟩ := h contents k hk
  exact hone n k' (hsub hk') k hall

end Fixpoint
