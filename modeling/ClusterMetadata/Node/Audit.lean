import ClusterMetadata.Audit.Rows
import ClusterMetadata.Node.Push

/-!
Audit entries announced by a node. An entry is written only if the registry enables its kind on its
target.
-/

namespace ClusterMetadata.Node

def queryRegistry (target : String) (kind : AuditKind) : NodeM (Option String) :=
  modifyGet fun n =>
    let (tag, registry) := n.registry.query n.storage target kind
    (tag, { n with registry })

def addToRegistry (target : String) (kind : AuditKind) (tag : String) : NodeM Mutation := do
  let timestamp ← readClock
  let n ← get
  let (m, registry, storage) ← lift .storage (n.registry.add n.storage target kind tag timestamp)
  set { n with registry, storage }
  return m

def dropFromRegistry (target : String) : NodeM Mutation := do
  let d ← deletionAt (← readClock)
  let n ← get
  let (m, registry, storage) ← lift .storage (n.registry.drop n.storage target d)
  set { n with registry, storage }
  return m

-- Tells whether the pair is enabled.
def announceEntry (net : Network) (target : String) (kind : AuditKind) (client value : String) :
    NodeM Bool := do
  if (← queryRegistry target kind).isNone then return false
  let time ← readClock
  let timestamp ← readClock
  let entry : AuditEntry := { target, time, client, kind, value }
  discard (push net (entry.addition timestamp))
  return true

-- The number of enabled entries. The first that fails ends the batch.
def announceEntries (net : Network) (entries : List (String × String)) (kind : AuditKind)
    (client : String) : NodeM Nat := do
  let sent ← entries.mapM fun (target, value) => announceEntry net target kind client value
  return sent.count true

def announceRows (net : Network) (m : Mutation) : NodeM Unit :=
  (RowAudit.byKind (RowAudit.ofMutation m)).forM fun (kind, rows) =>
    quietly (announceEntries net (rows.map fun r => (r.target, r.value)) kind "")

-- An entry that accompanies a change. That it fails does not undo the change.
def audit (net : Network) (target : String) (kind : AuditKind) (client : Option String)
    (value : String) : NodeM Unit :=
  quietly (announceEntry net target kind (clientName client) value)

end ClusterMetadata.Node
