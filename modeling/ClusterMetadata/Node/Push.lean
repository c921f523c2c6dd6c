import ClusterMetadata.Node.State
import ClusterMetadata.Wire.Mutation

/-!
How metadata leaves a node. Definitions and registry entries go to every live member, audit entries
to the replicas of their target. Nothing waits for the members.
-/

namespace ClusterMetadata.Node

def definitionsMessage (batch : List Mutation) : NodeM Message := do
  let payload ← lift .wire (Wire.writeBatch Protocol.current batch)
  return .plain .definitionsUpdate payload

-- Members that speak an older protocol are left out; they catch up by pulling.
def broadcast (net : Network) (batch : List Mutation) : NodeM (List Address) := do
  let targets := net.broadcastTargets (← get).address
  if targets.isEmpty then return targets
  let m ← definitionsMessage batch
  targets.forM fun a => discard (sendFresh m a)
  return targets

def push (net : Network) (mutation : Mutation) : NodeM (List Address) := do
  let targets := net.pushTargets (← get).address mutation.key
  let m ← definitionsMessage [mutation]
  targets.forM fun a => discard (sendFresh m a)
  return targets

end ClusterMetadata.Node
