import ClusterMetadata.Node.State

/-!
Pulling the schema of a member that advertises another version. Right after its start, or as long as
it has no schema, a node pulls at once; later it waits, so that a change under way can arrive
first.
-/

namespace ClusterMetadata

inductive PullDecision where
  | upToDate
  | ineligible
  | immediate
  | delayed (milliseconds : Nat)
  deriving DecidableEq, Repr

-- Members on too old or unknown a protocol, and those without replicas, are not pulled from.
def Network.isPullSource (net : Network) (peer : Address) : Bool :=
  Protocol.trustedTimestamps ≤ net.version peer && net.version peer ≤ Protocol.current &&
    !net.isNonReplicating peer

namespace Node

-- Queues a pull and gives its ticket.
def submitPull (peer : Address) : NodeM Nat := do
  let ticket ← newTicket
  execute .migration (.pull peer ticket)
  return ticket

-- Sends the request of a pull. It is not waited for longer than its timeout.
def requestPull (peer : Address) (ticket : Nat) : NodeM Unit := do
  let id ← freshId
  modify fun n => { n with messenger := n.messenger.await id { peer, ticket } }
  send peer id (.plain .migrationRequest [])
  schedule (← get).config.migrationRequestTimeout (.expiry id)

def considerPull (net : Network) (theirs : Uuid) (peer : Address) (now : Int) :
    NodeM PullDecision := do
  let n ← get
  if n.schema.version = theirs then return .upToDate
  if !net.isPullSource peer then return .ineligible
  let uptime := max (now - n.startedAt) 0
  if n.schema.version = SchemaVersion.empty ∨ uptime < n.config.migrationDelay then
    quietly (submitPull peer)
    return .immediate
  schedule n.config.migrationDelay (.delayedPull peer)
  return .delayed n.config.migrationDelay

def considerPullNow (net : Network) (theirs : Uuid) (peer : Address) : NodeM PullDecision := do
  considerPull net theirs peer (← get).clock.elapsed

-- The reasons for a delayed pull are looked at again when its time has come.
def firePull (net : Network) (peer : Address) : NodeM Unit := do
  if net.isAlive peer ∧ net.isPullSource peer then
    match net.schema peer with
    | some theirs => if theirs ≠ (← get).schema.version then quietly (submitPull peer)
    | none        => pure ()

-- A request that has not been answered by now is given up.
def expire (id : String) : NodeM Bool := do
  let request ← modifyGet fun n =>
    let (request, messenger) := n.messenger.claim id
    (request, { n with messenger })
  request.forM fun r => settle r.ticket (.error (.abandonedPull r.peer))
  return request.isSome

def fire (net : Network) : Alarm → NodeM Unit
  | .delayedPull peer => firePull net peer
  | .expiry id        => discard (expire id)

-- Fires the waiting tasks of one delay and tells how many there were.
def fireDelay (net : Network) (delay : Nat) : NodeM Nat := do
  let due ← modifyGet fun n =>
    let (due, timers) := n.timers.takeDelay delay
    (due, { n with timers })
  due.forM fun t => fire net t.task
  return due.length

-- A member came to life with the given version.
def hearAlive (net : Network) (peer : Address) (theirs : Option Uuid) : NodeM Unit := do
  if peer ≠ (← get).address then
    theirs.forM fun theirs => discard (considerPullNow net theirs peer)

def hearJoin (net : Network) (peer : Address) : NodeM Unit :=
  match net.schema peer with
  | some theirs => hearAlive net peer (some theirs)
  | none        => pure ()

-- A member advertised the text of a version.
def hearAdvertised (net : Network) (peer : Address) (theirs : String) : NodeM Unit :=
  hearAlive net peer (Uuid.parse? theirs)

def hear (net : Network) : MemberEvent → NodeM Unit
  | .joined peer          => hearJoin net peer
  | .advertised peer v    => hearAlive net peer (some v)
  | .revived peer v       => hearAlive net peer v
  | .died _ | .removed _  => pure ()

end Node
end ClusterMetadata
