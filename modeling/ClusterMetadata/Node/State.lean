import ClusterMetadata.Audit.Registry
import ClusterMetadata.Clock
import ClusterMetadata.Network.Messenger
import ClusterMetadata.Network.State
import ClusterMetadata.Node.Failure
import ClusterMetadata.Node.Metrics
import ClusterMetadata.Node.Timer
import ClusterMetadata.Schema.Observer
import ClusterMetadata.Schema.Store

/-!
The state of a node and the small steps its operations are made of. What a node does to the network
goes into its outbox; an operation that fails keeps what it did until then.
-/

namespace ClusterMetadata

inductive Job where
  | inbound (message : Inbound) (id : String) (arrived : Nat)
  | merge (batch : List Mutation) (ticket : Nat)
  | pull (peer : Address) (ticket : Nat)

inductive Alarm where
  | delayedPull (peer : Address)
  | expiry (id : String)

-- A pull whose request has been sent.
structure PullRequest where
  peer : Address
  ticket : Nat

inductive Observer where
  | recorder (name : String)
  -- Announces the definition whenever some keyspace is created.
  | companion (definition : Keyspace)

inductive Note where
  | call (observer : String) (callback : Callback)
  | companion (keyspace : String) (outcome : Except Failure Unit)

inductive Outgoing where
  | send (recipient : Address) (id : String) (message : Message)
  | advertise (version : Uuid)
  deriving DecidableEq

inductive StageName where
  | migration
  | mutation
  | response
  deriving DecidableEq, Repr

structure Node where
  address : Address
  config : Config
  storage : Storage
  schema : Schema
  observers : Observers Observer
  registry : Registry
  messenger : Messenger PullRequest
  metrics : Metrics
  migration : Stage Job
  mutation : Stage Job
  response : Stage Job
  timers : Timers Alarm
  clock : Clock
  startedAt : Int
  outbox : List Outgoing
  -- Batches handed to the ordinary write path.
  written : List (List Mutation)
  notes : List Note
  -- What became of the merges and pulls that someone waits for.
  nextTicket : Nat
  outcomes : SortedMap Nat (Except Failure MergeReport)

abbrev NodeM := EStateM Failure Node

namespace Node

def stage (n : Node) : StageName → Stage Job
  | .migration => n.migration
  | .mutation  => n.mutation
  | .response  => n.response

def setStage (n : Node) (s : Stage Job) : StageName → Node
  | .migration => { n with migration := s }
  | .mutation  => { n with mutation := s }
  | .response  => { n with response := s }

def lift {α ε : Type} (wrap : ε → Failure) : Except ε α → NodeM α
  | .ok a    => pure a
  | .error e => throw (wrap e)

def run {α : Type} (n : Node) (x : NodeM α) : Except Failure α × Node :=
  match x n with
  | .ok a n    => (.ok a, n)
  | .error e n => (.error e, n)

-- Failures are not passed on; what was done until then stays.
def quietly {α : Type} (x : NodeM α) : NodeM Unit :=
  tryCatch (discard x) fun _ => pure ()

-- The outcome as a value.
def outcome {α : Type} (x : NodeM α) : NodeM (Except Failure α) :=
  tryCatch (.ok <$> x) (pure ∘ .error)

def readClock : NodeM Int64 :=
  modifyGet fun n => (n.clock.read.1, { n with clock := n.clock.read.2 })

def deletionAt (markedAt : Int64) : NodeM DeletionTime := do
  return { markedAt, localSeconds := (← get).clock.seconds }

def emit (o : Outgoing) : NodeM Unit :=
  modify fun n => { n with outbox := n.outbox ++ [o] }

def advertise (version : Uuid) : NodeM Unit :=
  emit (.advertise version)

def send (recipient : Address) (id : String) (m : Message) : NodeM Unit :=
  emit (.send recipient id m)

def freshId : NodeM String :=
  modifyGet fun n => (n.messenger.fresh.1, { n with messenger := n.messenger.fresh.2 })

def sendFresh (m : Message) (recipient : Address) : NodeM String := do
  let id ← freshId
  send recipient id m
  return id

def schedule (delay : Nat) (alarm : Alarm) : NodeM Unit :=
  modify fun n => { n with timers := n.timers.schedule n.clock.elapsed delay alarm }

def note (x : Note) : NodeM Unit :=
  modify fun n => { n with notes := n.notes ++ [x] }

def newTicket : NodeM Nat :=
  modifyGet fun n => (n.nextTicket, { n with nextTicket := n.nextTicket + 1 })

-- The first outcome of a ticket stays.
def settle (ticket : Nat) (outcome : Except Failure MergeReport) : NodeM Unit :=
  modify fun n => { n with outcomes := n.outcomes.insertIfNew ticket outcome }

def execute (name : StageName) (job : Job) : NodeM Unit := do
  let n ← get
  let s ← lift .stage ((n.stage name).execute job)
  set (n.setStage s name)

end Node
end ClusterMetadata
