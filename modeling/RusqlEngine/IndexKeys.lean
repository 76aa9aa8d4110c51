import RusqlEngine.Library.KeyMap

/-!
# The keys of trees and indexes

`s.indexes` holds the primary-key tree of a table under its name and the tree of an index under
`<table>_<index>`; `index_meta` says of which table an index is. Hash and composite indexes have
maps of their own with such keys. DDL finds the entries of a table by the meta maps, by a prefix or
by a suffix of these keys.
-/

namespace RusqlEngine.IndexKeys

open KeyMap

/-- `std::unordered_map<std::string, α>`. -/
abbrev Map (α : Type) :=
  Finmap fun _ : String => α

/-- The order in which a map goes through its keys. -/
structure KeyOrder where
  keys : Finset String → List String
  mem_keys : ∀ s k, k ∈ keys s ↔ k ∈ s

structure HashIndex (η : Type) where
  table : String
  column : String
  contents : η

structure CompositeIndex (γ : Type) where
  table : String
  columns : List String
  contents : γ

/-- The maps of the database that DDL on tables and indexes changes: `ρ` are the rows of a
table, `τ`, `η` and `γ` the contents of the kinds of indexes. -/
structure Store (ρ τ η γ : Type) where
  tables : Map ρ
  indexes : Map τ
  indexMeta : Map (String × String)
  hashIndexes : Map (HashIndex η)
  hashIndexMeta : Map (String × String)
  compositeIndexes : Map (CompositeIndex γ)

/-- The database before the first statement. -/
def Store.empty {ρ τ η γ : Type} : Store ρ τ η γ where
  tables := ∅
  indexes := ∅
  indexMeta := ∅
  hashIndexes := ∅
  hashIndexMeta := ∅
  compositeIndexes := ∅

/-- How indexes are built over rows. -/
structure Builder (ρ τ η γ : Type) where
  order : KeyOrder
  noRows : ρ
  tree : ρ → String → τ
  hash : ρ → String → η
  composite : ρ → List String → γ

/-- The statements. `tree` is the empty tree of the new table, `referenced` says whether a foreign
key keeps the table, `accepted` and `inSchema` whether the rows meet the constraint and the schema
has one of the name. -/
inductive Action (τ : Type)
  | createTable (name : String) (ifNotExists : Bool) (tree : τ)
  | dropTable (name : String) (ifExists referenced : Bool)
  | renameTable (table newName : String)
  | createIndex (indexName table : String) (columns : List String) (usingHash : Bool)
  | dropIndex (indexName : String) (table : Option String)
  | addConstraint (table : String) (accepted : Bool)
  | dropConstraint (table name : String) (inSchema : Bool)

def sameName (a b : String) : Bool :=
  a.toLower == b.toLower

def indexKey (table name : String) : String :=
  table ++ "_" ++ name

/-- `k.compare(0, prefix.size(), prefix) == 0`, with `<table>_`. -/
def hasPrefix (table key : String) : Bool :=
  (table ++ "_").toList.isPrefixOf key.toList

/-- `to + key.substr(table.size())`. -/
def movedKey (table newName key : String) : String :=
  newName ++ String.ofList (key.toList.drop table.toList.length)

def hasSuffix (indexName : String) (table : Option String) (key : String) : Bool :=
  ("_" ++ indexName).toLower.toList.isSuffixOf key.toLower.toList &&
    table.elim true fun t => sameName key (indexKey t indexName)

section

variable {ρ τ η γ : Type} (b : Builder ρ τ η γ) (s : Store ρ τ η γ)

def keysOf {α : Type} (m : Map α) : List String :=
  b.order.keys m.keys

/-- The keys of the entries of a table. -/
def keysWhere {α : Type} (m : Map α) (tableOf : α → String) (table : String) : List String :=
  (keysOf b m).filter fun k => (m.lookup k).elim false fun v => tableOf v == table

/-- `exec_create`, without partitions. -/
def execCreate (name : String) (ifNotExists : Bool) (tree : τ) :
    Except String (Store ρ τ η γ) :=
  if ifNotExists ∧ name ∈ s.tables then .ok s
  else if name ∈ s.tables then .error ("Table '" ++ name ++ "' already exists")
  else .ok { s with
    tables := s.tables.insert name b.noRows
    indexes := s.indexes.insert name tree }

def execDrop (name : String) (ifExists referenced : Bool) : Except String (Store ρ τ η γ) :=
  if ifExists ∧ name ∉ s.tables then .ok s
  else if referenced then .error ("Cannot drop table '" ++ name ++ "'")
  else if name ∉ s.tables then .error ("Table '" ++ name ++ "' not found")
  else
    let own := keysWhere b s.indexMeta Prod.fst name
    let ownHash := keysWhere b s.hashIndexMeta Prod.fst name
    .ok {
      tables := s.tables.erase name
      indexes := eraseAll own (s.indexes.erase name)
      indexMeta := eraseAll own s.indexMeta
      hashIndexes := eraseAll ownHash s.hashIndexes
      hashIndexMeta := eraseAll ownHash s.hashIndexMeta
      compositeIndexes := eraseAll
        (keysWhere b s.compositeIndexes CompositeIndex.table name) s.compositeIndexes }

/-- RENAME TABLE. -/
def renameTable (table newName : String) : Except String (Store ρ τ η γ) :=
  if table ∉ s.tables then .error ("Table '" ++ table ++ "' not found")
  else if newName ∈ s.tables then .error ("Table '" ++ newName ++ "' already exists")
  else
    let moved := movedKey table newName
    let ofNewName : String × String → String × String := fun entry => (newName, entry.2)
    let indexes := moveKey (fun _ => newName) id s.indexes table
    .ok {
      tables := moveKey (fun _ => newName) id s.tables table
      indexes := moveKeys moved id
        ((keysOf b indexes).filter (hasPrefix table)) indexes
      indexMeta := moveKeys moved ofNewName
        (keysWhere b s.indexMeta Prod.fst table) s.indexMeta
      hashIndexes := moveKeys moved (fun hi => { hi with table := newName })
        ((keysOf b s.hashIndexes).filter (hasPrefix table)) s.hashIndexes
      hashIndexMeta := moveKeys moved ofNewName
        (keysWhere b s.hashIndexMeta Prod.fst table) s.hashIndexMeta
      compositeIndexes := moveKeys moved (fun ci => { ci with table := newName })
        (keysWhere b s.compositeIndexes CompositeIndex.table table) s.compositeIndexes }

/-- `taken`: an index of the table has the name, whatever the case. -/
def nameTaken {α : Type} (m : Map α) (tableOf : α → String) (table indexName : String) : Bool :=
  (keysWhere b m tableOf table).any fun k => sameName k (indexKey table indexName)

def execCreateIndex (indexName table : String) (columns : List String) (usingHash : Bool) :
    Except String (Store ρ τ η γ) :=
  match s.tables.lookup table with
  | none => .error ("Table '" ++ table ++ "' not found")
  | some rows =>
    let key := indexKey table indexName
    if nameTaken b s.indexMeta Prod.fst table indexName ||
        nameTaken b s.hashIndexMeta Prod.fst table indexName ||
        nameTaken b s.compositeIndexes CompositeIndex.table table indexName then
      .error ("Duplicate key name '" ++ indexName ++ "'")
    else
      match usingHash, columns with
      | true, [column] => .ok { s with
          hashIndexes := emplace s.hashIndexes key
            { table := table, column := column, contents := b.hash rows column }
          hashIndexMeta := emplace s.hashIndexMeta key (table, column) }
      | true, _ => .error "Hash index supports only single-column indexes."
      | false, [column] => .ok { s with
          indexes := emplace s.indexes key (b.tree rows column)
          indexMeta := emplace s.indexMeta key (table, column) }
      | false, columns => .ok { s with
          compositeIndexes := emplace s.compositeIndexes key
            { table := table, columns := columns, contents := b.composite rows columns } }

/-- The index `exec_drop_index` takes: of the first map that has a key that fits, the first. -/
inductive Victim
  | tree (key : String)
  | hash (key : String)
  | composite (key : String)
deriving DecidableEq

def dropVictim (indexName : String) (table : Option String) : Option Victim :=
  match (keysOf b s.indexMeta).find? (hasSuffix indexName table) with
  | some key => some (.tree key)
  | none =>
    match (keysOf b s.hashIndexMeta).find? (hasSuffix indexName table) with
    | some key => some (.hash key)
    | none =>
      ((keysOf b s.compositeIndexes).find? (hasSuffix indexName table)).map .composite

def removeVictim : Victim → Store ρ τ η γ
  | .tree key => { s with indexMeta := s.indexMeta.erase key, indexes := s.indexes.erase key }
  | .hash key => { s with
      hashIndexMeta := s.hashIndexMeta.erase key
      hashIndexes := s.hashIndexes.erase key }
  | .composite key => { s with compositeIndexes := s.compositeIndexes.erase key }

/-- `exec_drop_index`; an index that is not there is skipped. -/
def execDropIndex (indexName : String) (table : Option String) : Store ρ τ η γ :=
  (dropVictim b s indexName table).elim s (removeVictim s)

/-- ALTER TABLE ... DROP CONSTRAINT: one of the schema, or an index of the name. -/
def dropConstraint (table name : String) (inSchema : Bool) : Except String (Store ρ τ η γ) :=
  if table ∉ s.tables then .error ("Table '" ++ table ++ "' not found")
  else if inSchema then .ok s
  else
    match dropVictim b s name none with
    | some victim => .ok (removeVictim s victim)
    | none => .error ("Constraint '" ++ name ++ "' not found in '" ++ table ++ "'")

/-- A statement. -/
def execute : Action τ → Except String (Store ρ τ η γ)
  | .createTable name ifNotExists tree => execCreate b s name ifNotExists tree
  | .dropTable name ifExists referenced => execDrop b s name ifExists referenced
  | .renameTable table newName => renameTable b s table newName
  | .createIndex indexName table columns usingHash =>
    execCreateIndex b s indexName table columns usingHash
  | .dropIndex indexName table => .ok (execDropIndex b s indexName table)
  | .addConstraint table accepted =>
    if table ∉ s.tables then .error ("Table '" ++ table ++ "' not found")
    else if accepted then .ok s
    else .error "constraint violated"
  | .dropConstraint table name inSchema => dropConstraint b s table name inSchema

def next (a : Action τ) : Store ρ τ η γ :=
  match execute b s a with
  | .ok s' => s'
  | .error _ => s

def step (a : Action τ) : Option (Store ρ τ η γ) :=
  some (next b s a)

end

end RusqlEngine.IndexKeys
