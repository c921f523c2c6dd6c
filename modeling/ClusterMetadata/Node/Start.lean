import ClusterMetadata.Node.Announce

/-!
Starting a node. It reads its schema and the registry entries it is told to know, and advertises its
version.
-/

namespace ClusterMetadata

-- The parts a node does not bring itself.
inductive NodePart where
  | storage
  | membership
  | topology
  | transport
  deriving DecidableEq, Repr

namespace NodePart

def all : List NodePart := [storage, membership, topology, transport]

def name : NodePart → String
  | storage    => "storage"
  | membership => "membership"
  | topology   => "topology"
  | transport  => "transport"

-- The first part that is missing is refused.
def check (parts : List NodePart) : Except ConfigFlaw Unit :=
  all.forM fun part => if part ∈ parts then pure () else throw (.missing part.name)

end NodePart

namespace Node

-- Before anything has been read.
def idle (address : Address) (config : Config) (storage : Storage) (metrics : String)
    (clock : Clock) (startedAt : Int) : Node where
  address := address
  config := config
  storage := storage
  schema := .empty
  observers := ∅
  registry := ∅
  messenger := .new
  metrics := .new metrics
  migration := .new "migration" 1
  mutation := .new "mutation" config.mutationWorkers
  response := .new "request-response" config.mutationWorkers
  timers := .empty
  clock := clock
  startedAt := startedAt
  outbox := []
  written := []
  notes := []
  nextTicket := 0
  outcomes := ∅

def loadSchema : NodeM Unit := do
  let n ← get
  set { n with schema := ← lift .storage (Schema.load n.storage) }

def hydrate (targets : List String) : NodeM Nat :=
  modifyGet fun n =>
    let (found, registry) := n.registry.hydrate n.storage targets
    (found, { n with registry })

def start (parts : List NodePart) : NodeM Unit := do
  let config := (← get).config
  lift (.config ∘ .invalid) config.validate
  lift (.config ∘ .invalid) (NodePart.check parts)
  loadSchema
  discard (hydrate config.audit.hydrateTargets)
  advertise (← get).schema.version

end Node
end ClusterMetadata
