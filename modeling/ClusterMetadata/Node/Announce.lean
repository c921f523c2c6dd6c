import ClusterMetadata.Audit.Tag
import ClusterMetadata.Node.Dispatch

/-!
Changes made on this node. A change of definitions is checked against the local schema, merged on
the migration stage and broadcast to the other members; then its audit entries go out. A change that
is refused leaves no trace.
-/

namespace ClusterMetadata.Node

def await (ticket : Nat) (otherwise : Failure) : NodeM MergeReport := do
  match (← get).outcomes[ticket]? with
  | some (.ok report) => return report
  | some (.error e)   => throw e
  | none              => throw otherwise

-- Other members are told also when the merge fails here.
def announce (net : Network) (batch : List Mutation) : NodeM Unit := do
  let ticket ← newTicket
  execute .migration (.merge batch ticket)
  quietly (broadcast net batch)
  runStage net .migration
  discard (await ticket (.stage (.abandoned (← get).migration.name)))

def requireKeyspace (name : String) : NodeM Keyspace := do
  match (← get).schema.keyspace name with
  | some k => return k
  | none   => throw (.definition (.keyspaceNotFound name))

def requireTable (keyspace name : String) : NodeM Table := do
  match (← get).schema.table keyspace name with
  | some t => return t
  | none   => throw (.definition (.tableNotFound keyspace name))

def newKeyspaceAt (net : Network) (k : Keyspace) (timestamp : Int64) : NodeM Unit := do
  checkNewKeyspace k
  announce net [k.creation timestamp]

def newKeyspace (net : Network) (k : Keyspace) : NodeM Unit := do
  newKeyspaceAt net k (← readClock)

def newTable (net : Network) (t : Table) : NodeM Unit := do
  lift (.definition ∘ .invalid) t.validate
  discard (requireKeyspace t.keyspace)
  if ((← get).schema.table t.keyspace t.name).isSome then
    throw (.definition (.tableExists t.keyspace t.name))
  announce net [t.creation (← readClock)]

def changeText (old new : String) : String := "Old: " ++ old ++ ";New: " ++ new

def updateKeyspace (net : Network) (k : Keyspace) (client : Option String) : NodeM Unit := do
  lift (.definition ∘ .invalid) k.validate
  let old ← requireKeyspace k.name
  announce net [k.alteration (← readClock)]
  audit net k.name .keyspaceAltered client
    (changeText old.describeReplication k.describeReplication)

-- The steps of the records of the dropped columns. One column that cannot be dropped any more
-- refuses them all.
def columnDrops (t : Table) (dropped : List String) (timestamp : Int64) :
    NodeM (List Mutation) := do
  let storage := (← get).storage
  dropped.mapM fun column => do
    let tag := Tag.load storage .columnDrop [t.keyspace, t.name, column]
    let (m, _) ← lift .tag (tag.add timestamp)
    return m

def updateTable (net : Network) (t : Table) (client : Option String) : NodeM Unit := do
  lift (.definition ∘ .invalid) t.validate
  let old ← requireTable t.keyspace t.name
  lift (.definition ∘ .incompatible) (old.checkReplacement t)
  let d ← deletionAt (← readClock)
  let dropped := old.droppedColumns t
  let added := old.addedColumns t
  let drops ← columnDrops t dropped d.markedAt
  announce net (old.alteration t d :: drops)
  let target := t.qualifiedName
  audit net target .tableAltered client (changeText old.toText t.toText)
  added.forM fun column =>
    audit net (joinTarget [target, column]) .columnAdded client
      (t.columns[column]?.elim "" (·.validator))
  dropped.forM fun column => audit net (joinTarget [target, column]) .columnDropped client ""

def dropKeyspace (net : Network) (name : String) (client : Option String) : NodeM Unit := do
  let old ← requireKeyspace name
  announce net [old.removal (← deletionAt (← readClock))]
  audit net name .keyspaceDropped client old.describeReplication

def dropTable (net : Network) (keyspace name : String) (client : Option String) : NodeM Unit := do
  let old ← requireTable keyspace name
  announce net [old.removal (← deletionAt (← readClock))]
  audit net old.qualifiedName .tableDropped client ""

-- The entry is made here first and then told to the others.
def updateRegistry (net : Network) (target : String) (kind : AuditKind) (tag : String) :
    NodeM Unit := do
  discard (broadcast net [← addToRegistry target kind tag])

def dropRegistry (net : Network) (target : String) : NodeM Unit := do
  discard (broadcast net [← dropFromRegistry target])

-- The mutations of the metadata keyspace, and the others.
def route (batch : List Mutation) : List Mutation × List Mutation :=
  batch.partition (·.keyspace = Catalog.metadata)

-- The ordinary write path gets what is not metadata, and answers for it; then the metadata is
-- pushed.
def executeBatch (net : Network) (batch : List Mutation) (answer : Except Failure Unit) :
    NodeM Unit := do
  let (metadata, ordinary) := route batch
  if !ordinary.isEmpty then
    modify fun n => { n with written := n.written ++ [ordinary] }
    lift id answer
  metadata.forM fun m => discard (push net m)

def clearSchema : NodeM Unit := do
  let n ← get
  let (storage, schema) ← lift .storage (n.schema.clear n.storage)
  set { n with storage, schema }

-- Forgets the schema and asks the first member that can serve it. Gives that member and the ticket
-- of the pull.
def startReset (net : Network) : NodeM (Option (Address × Nat)) := do
  clearSchema
  advertise (← get).schema.version
  let self := (← get).address
  match net.live.find? fun a => a ≠ self && net.isPullSource a with
  | some peer => return some (peer, ← submitPull peer)
  | none      => return none

-- The version after the pull.
def awaitPull (ticket timeout : Nat) : NodeM Uuid := do
  let report ← await ticket (.stage (.timeout (← get).migration.name timeout))
  return report.version

end ClusterMetadata.Node
