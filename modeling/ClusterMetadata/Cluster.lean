import ClusterMetadata.Node.Start

/-!
Nodes on one network. What a node does to the network takes effect when its operation ends; a
message to another node waits until the nodes have nothing left to do, and messages are handed over
one at a time.
-/

namespace ClusterMetadata

structure Cluster where
  network : Network
  nodes : SortedMap Address Node
  -- Shared by the nodes, so that a later operation stamps its writes later, on whatever node.
  clock : Clock
  -- Messages on their way.
  queue : List SentMessage
  -- Messages sent and notes taken that nobody has asked for yet.
  sent : List SentMessage
  notes : List Note

namespace Cluster

def new (replicationFactor : Nat) (clock : Clock) : Cluster where
  network := .new replicationFactor Network.defaultCapacity
  nodes := ∅
  clock := clock
  queue := []
  sent := []
  notes := []

-- Stores a node after an operation; its clock becomes everyone's.
def store (c : Cluster) (n : Node) : Cluster :=
  { c with
    nodes := c.nodes.insert n.address { n with outbox := [], notes := [] }
    clock := n.clock
    notes := c.notes ++ n.notes }

-- Tells a node of an event. Hearing of it sends nothing.
def tell (c : Cluster) (notification : Address × MemberEvent) : Cluster :=
  match c.nodes[notification.1]? with
  | none   => c
  | some n => c.store ({ n with clock := c.clock }.run (Node.hear c.network notification.2)).2

def change (c : Cluster) (f : Network → Network × Network.Notifications) : Cluster :=
  let (network, notifications) := f c.network
  notifications.foldl tell { c with network }

def emit (sender : Address) (c : Cluster) : Outgoing → Cluster
  | .send recipient id message =>
    { c with network := (c.network.send sender recipient id message).1 }
  | .advertise version         => c.change (·.advertise sender version)

-- Runs an operation of a node as it stands, and lets its effects on the network happen.
def runOn {α : Type} (c : Cluster) (n : Node) (op : Network → NodeM α) :
    Except Failure α × Cluster :=
  let (result, n) := { n with clock := c.clock }.run (op c.network)
  (result, n.outbox.foldl (emit n.address) (c.store n))

-- `none` if there is no such node.
def perform {α : Type} (c : Cluster) (a : Address) (op : Network → NodeM α) :
    Option (Except Failure α) × Cluster :=
  match c.nodes[a]? with
  | none   => (none, c)
  | some n =>
    let (result, c) := c.runOn n op
    (some result, c)

def settleNode (c : Cluster) (a : Address) : Cluster :=
  [.mutation, .response, .migration].foldl (fun c s => (c.perform a (Node.runStage · s)).2) c

-- Lets every node finish its queued work. A merge can make other nodes queue a pull; a pull makes
-- nobody queue anything, so the second round leaves nothing.
def settle (c : Cluster) : Cluster :=
  let round (c : Cluster) := c.nodes.keys.foldl settleNode c
  round (round c)

-- Ids of messages that are numbers are below this.
def idLimit : Nat := 0x10000000000000000

def idNumber? (id : String) : Option Nat := do
  let n ← Digits.read? 10 (Digits.unsigned id.toList)
  if n < idLimit then return n else none

-- Messages that go out together are told apart by sender and recipient, then by id, numbers before
-- other ids, then by verb.
def sendingOrder (a b : SentMessage) : Ordering :=
  let number (s : SentMessage) := (idNumber? s.id).getD idLimit
  let rank (s : SentMessage) := Verb.all.idxOf s.message.verb
  compare a.sender b.sender
    |>.then (compare a.recipient b.recipient)
    |>.then (compare (number a) (number b))
    |>.then (compare a.id b.id)
    |>.then (compare (rank a) (rank b))

-- Puts the messages that were sent meanwhile on their way.
def collect (c : Cluster) : Cluster :=
  let batch := c.network.sent.mergeSort fun a b => (sendingOrder a b).isLE
  { c with
    network := { c.network with sent := [] }
    queue := c.queue ++ batch.filter (·.delivered)
    sent := c.sent ++ batch }

def rest (c : Cluster) : Cluster := c.settle.collect

-- Hands over the first message on its way.
def deliver (c : Cluster) : Cluster :=
  match c.queue with
  | []         => c
  | s :: queue =>
    (({ c with queue }).perform s.recipient fun _ => Node.receive s.inbound s.id).2.rest

-- Delivers up to `limit` messages.
def pump : Nat → Cluster → Cluster
  | 0,         c => c
  | limit + 1, c => if c.queue.isEmpty then c else pump limit c.deliver

def deliveryLimit : Nat := 100000

def run (c : Cluster) : Cluster := pump deliveryLimit c.rest

-- A member that is not a node of this library.
def join (c : Cluster) (a : Address) (version : Int) (nonReplicating : Bool) : Cluster :=
  c.change (·.add a version nonReplicating)

-- A node joins, is attached and started, and from then on watches the others.
def startNode (c : Cluster) (a : Address) (version : Int) (nonReplicating : Bool) (config : Config)
    (storage : Storage) (metrics : String) (startedAt : Int) : Except Failure Unit × Cluster :=
  let c := c.join a version nonReplicating
  let c := { c with network := c.network.attach a }
  let n := Node.idle a config storage metrics c.clock startedAt
  let (result, started) := c.runOn n fun _ => Node.start NodePart.all
  match result with
  | .ok ()   => (.ok (), { started with network := started.network.watch a })
  | .error e => (.error e, c)

-- Forgets the schema of a node and pulls it again, delivering messages meanwhile.
def reset (c : Cluster) (a : Address) (timeout : Nat) :
    Option (Except Failure (Option Uuid)) × Cluster :=
  match c.perform a Node.startReset with
  | (none, c)                          => (none, c)
  | (some (.error e), c)               => (some (.error e), c)
  | (some (.ok none), c)               => (some (.ok none), c)
  | (some (.ok (some (_, ticket))), c) =>
    let (result, c) := c.run.perform a fun _ => Node.awaitPull ticket timeout
    (result.map (some <$> ·), c)

-- A merge up to where the observers have been told. Its worker is still at it.
def beginMerge : NodeM MergeReport := do
  match ← Node.takeJob .migration with
  | some (.inbound message _ _) => Node.commit (← Node.readDefinitions message)
  | _                           => throw (.stage (.abandoned (← get).migration.name))

def endMerge (report : MergeReport) : NodeM Unit := do
  Node.publish report
  Node.finishJob .migration

-- Holds the migration stage of a node inside the merge of one message, while others arrive.
def hold (c : Cluster) (a : Address) (first : Inbound × String) (others : List (Inbound × String)) :
    Option (Except Failure MergeReport) × Cluster :=
  let (report, c) := c.perform a fun _ => do
    Node.receive first.1 first.2
    let report ← beginMerge
    others.forM fun (message, id) => Node.receive message id
    return report
  (report, c.settle)

-- Lets the held merge end some time later.
def release (c : Cluster) (a : Address) (report : MergeReport) (milliseconds : Nat) : Cluster :=
  ({ c with clock := c.clock.advance milliseconds }.perform a fun _ => endMerge report).2

end Cluster
end ClusterMetadata
