import ClusterMetadata.Cell
import ClusterMetadata.Uuid

/-!
Definitions of keyspaces, tables and columns, and which of them are accepted. The maps of a
definition are keyed by name; a definition is checked by the names inside, not by the keys.
-/

namespace ClusterMetadata

inductive ColumnKind where
  | partitionKey
  | clustering
  | regular
  deriving DecidableEq, Repr

namespace ColumnKind

def toText : ColumnKind → String
  | partitionKey => "partition_key"
  | clustering   => "clustering_key"
  | regular      => "regular"

def parse? (s : String) : Option ColumnKind :=
  if s = "partition_key" then some partitionKey
  else if s = "clustering_key" then some clustering
  else if s = "regular" then some regular
  else none

@[simp]
theorem parse?_toText (k : ColumnKind) : parse? k.toText = some k := by
  cases k <;> simp [toText, parse?]

end ColumnKind

@[ext]
structure Column where
  name : String
  validator : String
  kind : ColumnKind
  deriving DecidableEq, Repr

@[ext]
structure Table where
  keyspace : String
  name : String
  id : Uuid
  comment : String
  columns : SortedMap String Column
  deriving DecidableEq

@[ext]
structure Keyspace where
  name : String
  strategyClass : String
  strategyOptions : SortedMap String String
  durableWrites : Bool
  tables : SortedMap String Table
  deriving DecidableEq

-- What is wrong with a definition on its own.
inductive Flaw where
  | badName (what name : String)
  | noValidator (column table : String)
  | noStrategy (keyspace : String)
  | foreignTable (table keyspace : String)
  deriving DecidableEq, Repr

-- What keeps a definition from replacing another.
inductive Conflict where
  | name (old new : String)
  | id (table : String) (old new : Uuid)
  | partitionKey (table : String)
  deriving DecidableEq

inductive DefinitionError where
  | keyspaceExists (keyspace : String)
  | tableExists (keyspace table : String)
  | keyspaceNotFound (keyspace : String)
  | tableNotFound (keyspace table : String)
  | invalid (flaw : Flaw)
  | incompatible (conflict : Conflict)
  deriving DecidableEq

def maxNameLength : Nat := 48

def isNameChar (c : Char) : Bool := c.isAlphanum || c == '_'

def isName (s : String) : Bool :=
  !s.isEmpty && s.all isNameChar && s.utf8ByteSize ≤ maxNameLength

def checkName (what name : String) : Except Flaw Unit :=
  if isName name then .ok () else .error (.badName what name)

namespace Flaw

def message : Flaw → String
  | badName what name =>
    s!"{what} name must be 1-{maxNameLength} word characters, got '{name}'"
  | noValidator column table => s!"column '{column}' of {table} has no validator"
  | noStrategy keyspace => s!"keyspace '{keyspace}' has no replication strategy"
  | foreignTable table keyspace => s!"table {table} declared under keyspace '{keyspace}'"

end Flaw

namespace Conflict

def message : Conflict → String
  | name old new => s!"table mismatch: {old} vs {new}"
  | id table old new => s!"table id mismatch for {table}: {old} vs {new}"
  | partitionKey table => s!"partition key of {table} cannot change"

end Conflict

namespace DefinitionError

def message : DefinitionError → String
  | keyspaceExists keyspace => s!"cannot add already existing keyspace '{keyspace}'"
  | tableExists keyspace table =>
    s!"cannot add already existing table '{table}' to keyspace '{keyspace}'"
  | keyspaceNotFound keyspace => s!"keyspace '{keyspace}' does not exist"
  | tableNotFound keyspace table => s!"table '{table}' does not exist in keyspace '{keyspace}'"
  | invalid flaw => "invalid definition: " ++ flaw.message
  | incompatible conflict => "incompatible definition change: " ++ conflict.message

end DefinitionError

namespace Table

-- A table without columns.
def new (keyspace name : String) (id : Uuid) : Table where
  keyspace := keyspace
  name := name
  id := id
  comment := ""
  columns := ∅

def withColumn (t : Table) (c : Column) : Table :=
  { t with columns := t.columns.insert c.name c }

def withoutColumn (t : Table) (name : String) : Table :=
  { t with columns := t.columns.erase name }

def withComment (t : Table) (comment : String) : Table :=
  { t with comment }

def qualifiedName (t : Table) : String := t.keyspace ++ "." ++ t.name

def checkColumn (t : Table) (c : Column) : Except Flaw Unit := do
  checkName "column" c.name
  if c.validator.isEmpty then throw (.noValidator c.name t.qualifiedName)

def validate (t : Table) : Except Flaw Unit := do
  checkName "keyspace" t.keyspace
  checkName "table" t.name
  t.columns.values.forM t.checkColumn

def partitionKey (t : Table) : List String :=
  t.columns.values.filterMap fun c => if c.kind = .partitionKey then some c.name else none

-- A new definition must not give the stored data another meaning.
def checkReplacement (old new : Table) : Except Conflict Unit :=
  if old.keyspace ≠ new.keyspace ∨ old.name ≠ new.name then
    .error (.name old.qualifiedName new.qualifiedName)
  else if old.id ≠ new.id then .error (.id old.qualifiedName old.id new.id)
  else if old.partitionKey ≠ new.partitionKey then .error (.partitionKey old.qualifiedName)
  else .ok ()

def droppedColumns (old new : Table) : List String :=
  old.columns.keys.filter fun name => !new.columns.contains name

def addedColumns (old new : Table) : List String :=
  droppedColumns new old

def toText (t : Table) : String :=
  let columns := t.columns.values.map fun c => c.name ++ " " ++ c.validator
  t.qualifiedName ++ "[id=" ++ t.id.toText ++ ", columns=[" ++ ", ".intercalate columns ++ "]]"

end Table

namespace Keyspace

-- A keyspace without tables.
def new (name strategyClass : String) (options : SortedMap String String) (durableWrites : Bool) :
    Keyspace where
  name := name
  strategyClass := strategyClass
  strategyOptions := options
  durableWrites := durableWrites
  tables := ∅

def simple (name : String) (replicationFactor : UInt32) : Keyspace :=
  let options := [("replication_factor", toString replicationFactor.toNat)]
  new name "SimpleStrategy" (.ofList options) true

def withTable (k : Keyspace) (t : Table) : Keyspace :=
  { k with tables := k.tables.insert t.name t }

def checkTable (k : Keyspace) (t : Table) : Except Flaw Unit := do
  if t.keyspace ≠ k.name then throw (.foreignTable t.qualifiedName k.name)
  t.validate

def validate (k : Keyspace) : Except Flaw Unit := do
  checkName "keyspace" k.name
  if k.strategyClass.isEmpty then throw (.noStrategy k.name)
  k.tables.values.forM k.checkTable

-- The tables do not count.
def attributesDiffer (a b : Keyspace) : Bool :=
  a.strategyClass ≠ b.strategyClass || a.strategyOptions ≠ b.strategyOptions ||
    a.durableWrites ≠ b.durableWrites

-- A strategy class without its package path.
def shortClass (strategyClass : String) : String :=
  .ofList (strategyClass.toList.reverse.takeWhile (· ≠ '.')).reverse

def describeReplication (k : Keyspace) : String :=
  let options := k.strategyOptions.toList.map fun (name, value) => name ++ "=" ++ value
  shortClass k.strategyClass ++ ",\x7b" ++ ", ".intercalate options ++ "\x7d," ++
    toString k.durableWrites

def toText (k : Keyspace) : String :=
  k.name ++ "[" ++ k.describeReplication ++ ", tables=" ++ toString k.tables.size ++ "]"

end Keyspace
end ClusterMetadata
