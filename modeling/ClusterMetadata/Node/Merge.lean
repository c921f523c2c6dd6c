import ClusterMetadata.Node.State

/-!
Merging a batch of definitions. The batch is written and read back, the observers are told, the
registry forgets the targets the batch touched, and the new version is advertised.
-/

namespace ClusterMetadata.Node

def checkNewKeyspace (k : Keyspace) : NodeM Unit := do
  lift (.definition ∘ .invalid) k.validate
  if ((← get).schema.keyspace k.name).isSome then
    throw (.definition (.keyspaceExists k.name))

-- Observers are told by the worker of the migration stage, which cannot wait for itself.
def announceFromWorker (k : Keyspace) : NodeM Unit := do
  discard readClock
  checkNewKeyspace k
  throw (.stage (.wouldDeadlock (← get).migration.name))

def react (callback : Callback) : Observer → NodeM Unit
  | .recorder name        => note (.call name callback)
  | .companion definition =>
    match callback with
    | .createKeyspace k => do
      let result ← outcome (announceFromWorker definition)
      note (.companion k.name result)
    | _ => pure ()

def notify (events : List SchemaEvent) : NodeM Unit := do
  ((← get).observers.calls events).forM fun (o, callback) => react callback o

def commit (batch : List Mutation) : NodeM MergeReport := do
  let n ← get
  let (storage, schema, report) := n.schema.merge n.storage batch
  set { n with storage, schema }
  let report ← lift .storage report
  notify report.events
  return report

def publish (report : MergeReport) : NodeM Unit := do
  modify fun n => { n with registry := report.registryTargets.foldl (·.invalidate) n.registry }
  advertise report.version

def merge (batch : List Mutation) : NodeM MergeReport := do
  let report ← commit batch
  publish report
  return report

end ClusterMetadata.Node
