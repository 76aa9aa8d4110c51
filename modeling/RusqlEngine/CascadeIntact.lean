import RusqlEngine.CascadeUpdate

/-!
# Foreign-key actions and referential integrity

The two plans together, and where they go wrong: SET DEFAULT writes a default that nobody has
looked for in the parent, and a column in several keys takes a value that another parent had
when the statement found it and loses in the same statement.
-/

namespace RusqlEngine.CascadeDb

instance (db : CascadeDb) (contents : String → List Row) : Decidable (db.FkIntact contents) :=
  inferInstanceAs (Decidable (∀ e ∈ db.catalog.edges, ∀ row ∈ contents e.table,
    cellOrNull row e.column ≠ executorNull → ∃ parent ∈ contents e.parent,
      db.coll.key (cellOrNull parent e.refColumn) = db.coll.key (cellOrNull row e.column)))

/-- A table of one-column rows. -/
def columnRows (column : String) (values : List String) : List Row :=
  values.map fun value => Row.ofCells [(column, value), ("_xmin", "3"), ("_xmax", "0")]

/-- `parent(id)` and `child(pid REFERENCES parent(id))` with one row each. -/
def parentChild (onDelete onUpdate : FkAction) (default : Option String) : CascadeDb where
  coll := asciiCollation
  catalog := [("child", [⟨"pid", [⟨"parent", "id", onDelete, onUpdate⟩], default⟩]),
    ("parent", [⟨"id", [], none⟩])]
  tables := fun table =>
    if table = "child" then some (columnRows "pid" ["1"])
    else if table = "parent" then some (columnRows "id" ["1"])
    else none
  absent := fun _ _ _ => false

def parentChildEdge : Edge :=
  ⟨"child", "pid", "id", .cascade, .cascade, executorNull, "parent"⟩

theorem parentChild_edges :
    (parentChild .cascade .cascade none).catalog.edges = [parentChildEdge] := by
  decide

theorem parentChild_noDefaults (start : Effect → Prop) :
    (parentChild .cascade .cascade none).NoDefaults start := by
  have hedge : ∀ table, ∀ e ∈ (parentChild .cascade .cascade none).edgesOf table,
      e = parentChildEdge := by
    intro table e he
    have hmem := (mem_edgesOf.mp he).1
    rw [parentChild_edges] at hmem
    exact List.mem_singleton.mp hmem
  constructor
  · intro table pos e kid _ he _ haction
    rw [hedge table e he] at haction
    exact absurd haction (by decide)
  · intro table pos e kid _ he _ haction
    rw [hedge table e he] at haction
    exact absurd haction (by decide)

theorem parentChild_othersStay (start : Effect → Prop) :
    (parentChild .cascade .cascade none).OthersStay start := by
  intro table pos e kid value _ he _ _ e' he' _ _ hne
  have hmem := (mem_edgesOf.mp he).1
  rw [parentChild_edges] at hmem he'
  rw [List.mem_singleton.mp hmem, List.mem_singleton.mp he'] at hne
  exact absurd ⟨rfl, rfl⟩ hne

def parentTwo : KeyUpdate :=
  ⟨"parent", [(0, Row.ofCells [("id", "2"), ("_xmin", "4"), ("_xmax", "0")])], ["id"]⟩

theorem parentTwo_targetsOf : (parentChild .cascade .cascade none).TargetsOf parentTwo := by
  refine ⟨fun target htarget => ?_, by decide, fun target _ e he column hcolumn hkey => ?_⟩
  · rw [List.mem_singleton.mp htarget]
    exact ⟨by decide, by decide⟩
  · rw [parentChild_edges] at he
    rw [List.mem_singleton.mp he] at hkey
    rcases hkey with ⟨htable, -⟩ | ⟨-, hcol⟩
    · exact absurd htable (by decide)
    · exact absurd (List.mem_singleton.mpr hcol.symm) hcolumn

def planned (plan : Except String CascadeSim) (test : CascadeSim → Bool) : Bool :=
  match plan with
  | .ok sim => test sim
  | .error _ => false

theorem exists_of_planned {plan : Except String CascadeSim} {test : CascadeSim → Bool}
    (h : planned plan test) : ∃ sim, plan = .ok sim ∧ test sim := by
  cases plan with
  | error e => exact nomatch h
  | ok sim => exact ⟨sim, rfl, h⟩

/-- `p(id)`, `q(id REFERENCES p(id) ON UPDATE SET NULL)`, and `k(c)` whose column refers to
both with ON UPDATE CASCADE. -/
def twoParents : CascadeDb where
  coll := asciiCollation
  catalog := [
    ("k", [⟨"c", [⟨"p", "id", .restrict, .cascade⟩, ⟨"q", "id", .restrict, .cascade⟩], none⟩]),
    ("p", [⟨"id", [], none⟩]),
    ("q", [⟨"id", [⟨"p", "id", .restrict, .setNull⟩], none⟩])]
  tables := fun table =>
    if table = "k" then some (columnRows "c" ["1"])
    else if table = "p" then some (columnRows "id" ["1", "2"])
    else if table = "q" then some (columnRows "id" ["1", "2"])
    else none
  absent := fun _ _ _ => false

/-- `UPDATE p SET id = id + 1`. -/
def shiftedKeys : KeyUpdate :=
  ⟨"p", [(0, Row.ofCells [("id", "2"), ("_xmin", "4"), ("_xmax", "0")]),
    (1, Row.ofCells [("id", "3"), ("_xmin", "4"), ("_xmax", "0")])], ["id"]⟩

end RusqlEngine.CascadeDb
