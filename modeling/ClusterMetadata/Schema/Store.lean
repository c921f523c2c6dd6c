import ClusterMetadata.Schema.Event
import ClusterMetadata.Schema.Stored
import ClusterMetadata.Schema.Version

/-!
The schema in memory, a view of the schema tables. `merge` writes a batch and reads the touched
keyspaces again. When a keyspace cannot be read the merge stops: what was written and read until
then stays.
-/

namespace ClusterMetadata

@[ext]
structure Schema where
  keyspaces : SortedMap String Keyspace
  version : Uuid
  -- The number of keyspaces read so far. It keeps the ids drawn for one reading from those of
  -- another.
  rounds : Nat

-- What a merge did. The registry entries of the targets may have changed.
structure MergeReport where
  events : List SchemaEvent
  version : Uuid
  registryTargets : List String

namespace Schema

def empty : Schema := ⟨∅, SchemaVersion.empty, 0⟩

def keyspace (s : Schema) (name : String) : Option Keyspace := s.keyspaces[name]?

def table (s : Schema) (keyspace name : String) : Option Table := do
  (← s.keyspaces[keyspace]?).tables[name]?

def names (s : Schema) : List String := s.keyspaces.keys

def put (s : Schema) (name : String) (k : Option Keyspace) : Schema :=
  { s with keyspaces := s.keyspaces.alter name fun _ => k }

-- The keys of the partitions of `system` whose mutations concern one of the tables, in order.
def touched (concerns : String → Bool) (batch : List Mutation) : List String :=
  let concerned := batch.filter fun m => m.keyspace = Catalog.system ∧ m.tables.any concerns
  distinct (concerned.map (·.keyText))

def touchedKeyspaces (batch : List Mutation) : List String :=
  touched Catalog.isSchema batch

def touchedTargets (batch : List Mutation) : List String :=
  touched (· = Catalog.registry) batch

-- Reads one keyspace again.
def refresh (s : Schema) (storage : Storage) (name : String) :
    Schema × Except StorageError (List SchemaEvent) :=
  let s' := { s with rounds := s.rounds + 1 }
  match Stored.keyspace storage name (Uuid.random s.rounds) with
  | .error e => (s', .error e)
  | .ok k    => (s'.put name k, .ok (SchemaEvent.diff (s.keyspace name) k))

def refreshAll (s : Schema) (storage : Storage) :
    List String → Schema × Except StorageError (List SchemaEvent)
  | []            => (s, .ok [])
  | name :: names =>
    match s.refresh storage name with
    | (s, .error e)   => (s, .error e)
    | (s, .ok events) =>
      let (s, rest) := s.refreshAll storage names
      (s, (events ++ ·) <$> rest)

-- The version is computed anew when a schema table was touched.
def refreshTouched (s : Schema) (storage : Storage) (names : List String) :
    Schema × Except StorageError (List SchemaEvent) :=
  match s.refreshAll storage names with
  | (s, .error e)   => (s, .error e)
  | (s, .ok events) =>
    (if names.isEmpty then s else { s with version := SchemaVersion.ofStorage storage }, .ok events)

def merge (s : Schema) (storage : Storage) (batch : List Mutation) :
    Storage × Schema × Except StorageError MergeReport :=
  match storage.applyAll batch with
  | .error e     => (storage, s, .error e)
  | .ok storage' =>
    let (s, events) := s.refreshTouched storage' (touchedKeyspaces batch)
    (storage', s, events.map fun events => ⟨events, s.version, touchedTargets batch⟩)

-- Every keyspace that has a live attribute, read from storage.
def reload (s : Schema) (storage : Storage) : Schema × Except StorageError Unit :=
  let names := (storage.keys Catalog.system Catalog.keyspaces).map Utf8.lossy
  let (s', events) := { s with keyspaces := ∅ }.refreshAll storage names
  match events with
  | .error e => ({ s with rounds := s'.rounds }, .error e)
  | .ok _    => ({ s' with version := SchemaVersion.ofStorage storage }, .ok ())

def load (storage : Storage) : Except StorageError Schema :=
  match empty.reload storage with
  | (_, .error e) => .error e
  | (s, .ok ())   => .ok s

def clear (s : Schema) (storage : Storage) : Except StorageError (Storage × Schema) := do
  let storage ← Catalog.schema.foldlM (·.truncate Catalog.system ·) storage
  return (storage, { empty with rounds := s.rounds })

def cellWrites (cells : List Cell) : List Modification :=
  cells.map fun c => .write c.name c.toStamped

-- All live cells of a partition, as the mutation that writes them.
def snapshot (storage : Storage) (key : Bytes) : Mutation :=
  .ofFamilies Catalog.system key (Catalog.schema.filterMap fun table =>
    match storage.read ⟨Catalog.system, table, key⟩ .all with
    | []    => none
    | cells => some (table, cellWrites cells))

-- The stored schema as a batch, one mutation for each keyspace.
def serialize (storage : Storage) : List Mutation :=
  distinct (Catalog.schema.flatMap (storage.keys Catalog.system)) |>.map (snapshot storage)

end Schema
end ClusterMetadata
