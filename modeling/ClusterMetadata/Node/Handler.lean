import ClusterMetadata.Node.Audit
import ClusterMetadata.Node.Merge
import ClusterMetadata.Wire.ForwardList

/-!
What a node does with a message of each verb.
-/

namespace ClusterMetadata.Node

-- Passes the message on to the listed members, naming the one that is to be answered.
def relay (message : Inbound) (forwardList : Bytes) : NodeM Unit := do
  let entries ← lift .wire (Wire.run Wire.readForwardList forwardList)
  let m := (Message.plain message.verb message.payload).withParameter
    Message.forwardFrom message.sender.octets
  entries.forM fun (a, id) => send a id m

-- The member that waits for the acknowledgement.
def replyAddress (message : Inbound) : NodeM Address :=
  match message.parameter? Message.forwardFrom with
  | some octets => lift .wire (Wire.asAddress octets)
  | none        => do
    if Protocol.forwarding ≤ message.version then
      (message.parameter? Message.forwardTo).forM (relay message)
    return message.sender

def isLocalKeyspace (keyspace : String) : Bool :=
  keyspace = Catalog.system || keyspace = Catalog.metadata

-- A write is acknowledged once it is applied.
def handleMutation (net : Network) (message : Inbound) (id : String) : NodeM Unit := do
  let m ← lift .wire (Wire.run (Wire.readMutation message.version) message.payload)
  let recipient ← replyAddress message
  let n ← get
  let storage ← lift .storage (n.storage.apply m)
  set { n with storage }
  send recipient id (.plain .requestResponse [])
  if n.config.audit.rowMutations ∧ ¬isLocalKeyspace m.keyspace then announceRows net m

def readDefinitions (message : Inbound) : NodeM (List Mutation) :=
  lift .wire (Wire.run (Wire.readBatch message.version) message.payload)

def handleDefinitions (message : Inbound) : NodeM Unit := do
  discard (merge (← readDefinitions message))

-- Answers with the whole stored schema.
def handleMigrationRequest (message : Inbound) (id : String) : NodeM Unit := do
  let batch := Schema.serialize (← get).storage
  let payload ← lift .wire (Wire.writeBatch Protocol.current batch)
  send message.sender id (.plain .requestResponse payload)

-- The response to a pull is merged on the migration stage. Without that stage the pull is
-- abandoned.
def mergeResponse (request : PullRequest) (message : Inbound) : NodeM Unit := do
  match ← outcome (readDefinitions message) with
  | .error e  => settle request.ticket (.error e)
  | .ok batch =>
    match ← outcome (execute .migration (.merge batch request.ticket)) with
    | .ok ()   => pure ()
    | .error _ => settle request.ticket (.error (.abandonedPull request.peer))

-- A response that nobody waits for is ignored.
def handleResponse (message : Inbound) (id : String) : NodeM Unit := do
  let request ← modifyGet fun n =>
    let (request, messenger) := n.messenger.claim id
    (request, { n with messenger })
  request.forM (mergeResponse · message)

def handle (net : Network) (message : Inbound) (id : String) : NodeM Unit :=
  match message.verb with
  | .mutation          => handleMutation net message id
  | .requestResponse   => handleResponse message id
  | .definitionsUpdate => handleDefinitions message
  | .migrationRequest  => handleMigrationRequest message id

end ClusterMetadata.Node
