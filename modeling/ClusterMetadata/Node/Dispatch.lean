import ClusterMetadata.Node.Handler
import ClusterMetadata.Node.Pull

/-!
Inbound messages wait on the stage of their verb. One that has waited for the timeout of its verb is
dropped and counted; any other is handled once.
-/

namespace ClusterMetadata

inductive WorkOutcome where
  | completed
  | dropped
  | failed
  deriving DecidableEq, Repr

namespace Node

def stageOf : Verb → StageName
  | .mutation          => .mutation
  | .requestResponse   => .response
  | .definitionsUpdate => .migration
  | .migrationRequest  => .migration

def receive (message : Inbound) (id : String) : NodeM Unit := do
  execute (stageOf message.verb) (.inbound message id (← get).clock.elapsed)

def countDropped (verb : Verb) : NodeM Unit :=
  modify fun n => { n with metrics := n.metrics.countDropped verb }

-- Work that has waited for its timeout is not done. Work that fails is not done again.
def runFresh (verb : Verb) (arrived now timeout : Nat) (work : NodeM Unit) : NodeM WorkOutcome := do
  if timeout ≤ now - arrived then
    countDropped verb
    return .dropped
  match ← outcome work with
  | .ok ()   => return .completed
  | .error _ => return .failed

def runInbound (net : Network) (message : Inbound) (id : String) (arrived : Nat) :
    NodeM WorkOutcome := do
  let n ← get
  runFresh message.verb arrived n.clock.elapsed (n.config.timeout message.verb)
    (handle net message id)

def runJob (net : Network) : Job → NodeM Unit
  | .inbound message id arrived => discard (runInbound net message id arrived)
  | .merge batch ticket         => do settle ticket (← outcome (merge batch))
  | .pull peer ticket           => requestPull peer ticket

-- A free worker takes the first job of a stage.
def takeJob (name : StageName) : NodeM (Option Job) :=
  modifyGet fun n =>
    match (n.stage name).take with
    | some (job, s) => (some job, n.setStage s name)
    | none          => (none, n)

-- The job taken last is accounted for.
def finishJob (name : StageName) : NodeM Unit :=
  modify fun n => n.setStage ((n.stage name).finish ((n.stage name).running.length - 1)) name

def runNext (net : Network) (name : StageName) : NodeM Unit := do
  match ← takeJob name with
  | some job => do
    runJob net job
    finishJob name
  | none => pure ()

def runTimes (net : Network) (name : StageName) : Nat → NodeM Unit
  | 0     => pure ()
  | k + 1 => do
    runNext net name
    runTimes net name k

-- Runs what is queued on a stage.
def runStage (net : Network) (name : StageName) : NodeM Unit := do
  runTimes net name ((← get).stage name).queue.length

def shutdown : NodeM Unit :=
  modify fun n =>
    { n with
      migration := n.migration.shutdown
      mutation := n.mutation.shutdown
      response := n.response.shutdown }

-- Whether no migration work is queued or running.
def isReady (n : Node) : Bool := n.migration.inFlight = 0

-- The metrics, with what is in flight on each stage.
def measure : NodeM Metrics :=
  modifyGet fun n =>
    let metrics := [n.migration, n.mutation, n.response].foldl (fun m s =>
      m.setGauge ("stage." ++ s.name ++ ".in_flight") (.ofNat s.inFlight)) n.metrics
    (metrics, { n with metrics })

end Node
end ClusterMetadata
