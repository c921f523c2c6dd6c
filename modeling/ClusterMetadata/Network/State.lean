import ClusterMetadata.Address.Text
import ClusterMetadata.Network.Message
import ClusterMetadata.Network.Ring
import ClusterMetadata.Uuid

/-!
The network as its members see it: who belongs to it, who is alive, which version of the protocol
and of the schema each member has told, and the messages that were sent. Members that watch are told
of what happens to the others, in the order of their addresses.
-/

namespace ClusterMetadata

structure Member where
  alive : Bool
  version : Int
  -- Takes part in the protocol but has no place on the ring.
  nonReplicating : Bool
  schema : Option Uuid
  -- Whether messages to the member are delivered.
  attached : Bool
  watching : Bool

def Member.new (version : Int) (nonReplicating : Bool) : Member where
  alive := true
  version := version
  nonReplicating := nonReplicating
  schema := none
  attached := false
  watching := false

inductive MemberEvent where
  | joined (member : Address)
  | advertised (member : Address) (schema : Uuid)
  | revived (member : Address) (schema : Option Uuid)
  | died (member : Address)
  | removed (member : Address)
  deriving DecidableEq

@[ext]
structure SentMessage where
  sender : Address
  recipient : Address
  id : String
  message : Message
  delivered : Bool
  -- The version of the protocol that the sender had told.
  version : Int
  deriving DecidableEq

def SentMessage.inbound (s : SentMessage) : Inbound :=
  { s.message with sender := s.sender, version := s.version }

structure Unreachable where
  member : Address

def Unreachable.message (u : Unreachable) : String :=
  "endpoint " ++ u.member.toText ++ " is unreachable"

structure Network where
  members : SortedMap Address Member
  -- Members that are about to own every range.
  pending : SortedMap Address Unit
  -- The latest messages, oldest first.
  sent : List SentMessage
  capacity : Nat
  replicationFactor : Nat

namespace Network

abbrev Notifications := List (Address × MemberEvent)

def new (replicationFactor capacity : Nat) : Network where
  members := ∅
  pending := ∅
  sent := []
  capacity := capacity
  replicationFactor := max replicationFactor 1

def defaultCapacity : Nat := 4096

def notify (n : Network) (about : Address) (event : MemberEvent) : Notifications :=
  n.members.toList.filterMap fun (a, m) =>
    if a ≠ about ∧ m.watching then some (a, event) else none

def update (n : Network) (a : Address) (f : Member → Member) : Network :=
  { n with members := n.members.modify a f }

-- A member that is added again starts anew.
def add (n : Network) (a : Address) (version : Int) (nonReplicating : Bool) :
    Network × Notifications :=
  ({ n with members := n.members.insert a (.new version nonReplicating) }, n.notify a (.joined a))

def attach (n : Network) (a : Address) : Network :=
  n.update a ({ · with attached := true })

def watch (n : Network) (a : Address) : Network :=
  n.update a ({ · with watching := true })

def setAlive (n : Network) (a : Address) (alive : Bool) : Network × Notifications :=
  match n.members[a]? with
  | none   => (n, [])
  | some m =>
    if m.alive = alive then (n, [])
    else
      (n.update a ({ · with alive }),
       n.notify a (if alive then .revived a m.schema else .died a))

def setVersion (n : Network) (a : Address) (version : Int) : Network :=
  n.update a ({ · with version })

def addPending (n : Network) (a : Address) : Network :=
  { n with pending := n.pending.insert a () }

def remove (n : Network) (a : Address) : Network × Notifications :=
  ({ n with members := n.members.erase a, pending := n.pending.erase a }, n.notify a (.removed a))

-- Telling a version again changes nothing.
def advertise (n : Network) (a : Address) (schema : Uuid) : Network × Notifications :=
  match n.members[a]? with
  | none   => (n, [])
  | some m =>
    if m.schema = some schema then (n, [])
    else (n.update a ({ · with schema := some schema }), n.notify a (.advertised a schema))

def live (n : Network) : List Address :=
  n.members.toList.filterMap fun (a, m) => if m.alive then some a else none

def isAlive (n : Network) (a : Address) : Bool := n.members[a]?.any (·.alive)

-- An unknown member has version 0.
def version (n : Network) (a : Address) : Int := n.members[a]?.elim 0 (·.version)

def isNonReplicating (n : Network) (a : Address) : Bool := n.members[a]?.any (·.nonReplicating)

def schema (n : Network) (a : Address) : Option Uuid := n.members[a]? >>= (·.schema)

def ring (n : Network) : Ring :=
  .ofMembers (n.members.toList.filterMap fun (a, m) => if m.nonReplicating then none else some a)

def naturalReplicas (n : Network) (token : Int64) : List Address :=
  n.ring.replicas n.replicationFactor token

def pendingReplicas (n : Network) : List Address := n.pending.keys

-- Keeps the latest messages up to the capacity.
def record (n : Network) (s : SentMessage) : Network :=
  { n with sent := (n.sent ++ [s]).drop (n.sent.length + 1 - n.capacity) }

-- Only live members can be reached.
def reach (n : Network) (a : Address) : Except Unreachable Unit :=
  if n.isAlive a then .ok () else .error ⟨a⟩

-- A message to a member that is not attached is sent, but not delivered.
def send (n : Network) (sender recipient : Address) (id : String) (message : Message) :
    Network × SentMessage :=
  let s : SentMessage := {
    sender, recipient, id, message
    delivered := n.members[recipient]?.any fun m => m.alive && m.attached
    version := n.members[sender]?.elim Protocol.current (·.version) }
  (n.record s, s)

-- Live members other than the local one that speak the current protocol.
def broadcastTargets (n : Network) (self : Address) : List Address :=
  n.live.filter fun a => a ≠ self ∧ Protocol.current ≤ n.version a

-- The replicas of a key, the natural ones first, each once. Others than the local node must speak
-- the current protocol.
def pushTargets (n : Network) (self : Address) (key : Bytes) : List Address :=
  (n.naturalReplicas (token key) ++ n.pendingReplicas).eraseDups.filter fun a =>
    a = self ∨ Protocol.current ≤ n.version a

end Network
end ClusterMetadata
