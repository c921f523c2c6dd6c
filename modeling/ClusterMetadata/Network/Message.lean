import ClusterMetadata.Address
import ClusterMetadata.SortedMap
import ClusterMetadata.Wire.Protocol

/-!
Messages between members. A message is sent under an id; whoever answers it does so under the same
id.
-/

namespace ClusterMetadata

inductive Verb where
  | mutation
  | requestResponse
  | definitionsUpdate
  | migrationRequest
  deriving DecidableEq, Repr

namespace Verb

def all : List Verb := [mutation, requestResponse, definitionsUpdate, migrationRequest]

def toText : Verb → String
  | mutation          => "MUTATION"
  | requestResponse   => "REQUEST_RESPONSE"
  | definitionsUpdate => "DEFINITIONS_UPDATE"
  | migrationRequest  => "MIGRATION_REQUEST"

def parse? (s : String) : Option Verb := all.find? (·.toText = s)

end Verb

@[ext]
structure Message where
  verb : Verb
  payload : Bytes
  parameters : SortedMap String Bytes
  deriving DecidableEq

namespace Message

-- The members to which the receiver relays the message.
def forwardTo : String := "FWD_TO"

-- The member that a relayed message came from, and that is to be answered.
def forwardFrom : String := "FWD_FRM"

def plain (verb : Verb) (payload : Bytes) : Message where
  verb := verb
  payload := payload
  parameters := ∅

def withParameter (m : Message) (name : String) (value : Bytes) : Message :=
  { m with parameters := m.parameters.insert name value }

def parameter? (m : Message) (name : String) : Option Bytes := m.parameters[name]?

end Message

-- A message as it arrives. Its payload is written in the given version of the protocol.
@[ext]
structure Inbound extends Message where
  sender : Address
  version : Int
  deriving DecidableEq

end ClusterMetadata
