import ClusterMetadata.Schema.Definition

/-!
What a change of a keyspace looks like to those who watch it: a list of events, one for each thing
that was created, updated or dropped. A keyspace is created before its tables and dropped after
them.
-/

namespace ClusterMetadata

inductive SchemaEvent where
  | keyspaceCreated (new : Keyspace)
  | keyspaceUpdated (old new : Keyspace)
  | keyspaceDropped (old : Keyspace)
  | tableCreated (new : Table)
  | tableUpdated (old new : Table)
  | tableDropped (old : Table)
  deriving DecidableEq

namespace SchemaEvent

def ofTable (before : Option Table) (new : Table) : Option SchemaEvent :=
  match before with
  | none     => some (.tableCreated new)
  | some old => if old = new then none else some (.tableUpdated old new)

def ofTables (old new : SortedMap String Table) : List SchemaEvent :=
  let kept := new.toList.filterMap fun (name, table) => ofTable old[name]? table
  let dropped := old.toList.filter fun (name, _) => !new.contains name
  kept ++ dropped.map fun (_, table) => .tableDropped table

def diff : Option Keyspace → Option Keyspace → List SchemaEvent
  | none,     none     => []
  | none,     some new => .keyspaceCreated new :: ofTables ∅ new.tables
  | some old, none     => ofTables old.tables ∅ ++ [.keyspaceDropped old]
  | some old, some new =>
    (if old.attributesDiffer new then [.keyspaceUpdated old new] else []) ++
      ofTables old.tables new.tables

end SchemaEvent
end ClusterMetadata
