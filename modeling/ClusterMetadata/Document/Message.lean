import ClusterMetadata.Document.Config
import ClusterMetadata.Document.Mutation
import ClusterMetadata.Network.State
import ClusterMetadata.Node.Metrics
import ClusterMetadata.Wire.ForwardList
import ClusterMetadata.Wire.Mutation

/-!
Messages, and what a network shows of itself, as documents.
-/

namespace ClusterMetadata.Document

def ofAddress (a : Address) : Document := .text a.toText

def ofVerb (v : Verb) : Document := .text v.toText

def asVerb (d : Document) : Option Verb := d.asText >>= Verb.parse?

def ofParameters (m : Message) : Document := ofMap ofHex m.parameters

-- The mutations in a payload, as far as there are any.
def ofPayload (m : Message) : Document :=
  let raw : Document := .record [("hex", ofHex m.payload)]
  if m.payload.isEmpty then .null
  else if m.verb = .mutation then
    match Wire.run (Wire.readMutation Protocol.current) m.payload with
    | .ok d    => .record [("mutation", ofMutation true d)]
    | .error _ => raw
  else
    match Wire.run (Wire.readBatch Protocol.current) m.payload with
    | .ok d    => .record [("mutations", ofBatch true d)]
    | .error _ => raw

def ofSent (s : SentMessage) : Document :=
  .record [("from", ofAddress s.sender), ("to", ofAddress s.recipient), ("id", ofText s.id),
           ("verb", ofVerb s.message.verb), ("delivered", .bool s.delivered),
           ("payload", ofPayload s.message), ("params", ofParameters s.message)]

-- A message as its receiver sees it.
def inboundFields (m : Inbound) : List Document :=
  [.int m.version, ofHex m.payload, ofParameters m.toMessage]

def asPayload (seconds : Int32) (d : Document) : Option Bytes :=
  let version := match d.get "version" with
    | null => some Protocol.current
    | d    => d.asInt
  match d, d.get "mutation", d.get "mutations" with
  | null, _,    _    => some []
  | _,    null, null => d.asBytes
  | _,    null, ms   => do (Wire.writeBatch (← version) (← ms.asBatch seconds)).toOption
  | _,    m,    _    => do (Wire.writeMutation (← version) (← m.asMutation seconds)).toOption

def asForwardList (d : Document) : Option (List (Address × String)) :=
  d.asList (asPair asAddress asText)

def asMessage (seconds : Int32) (d : Document) : Option Message := do
  let m := Message.plain (← (d.get "verb").asVerb) (← (d.get "payload").asPayload seconds)
  let forwardTo ← match ← (d.get "forward_to").asOption asForwardList with
    | some entries => do pure [(Message.forwardTo, ← (Wire.writeForwardList entries).toOption)]
    | none         => pure []
  let forwardFrom ← (d.get "forward_from").asOption asAddress
  let others ← match d.get "params" with
    | record fields => fields.mapM fun (name, d) => do return (name, ← d.asBytes)
    | _             => pure []
  let forwardFrom := forwardFrom.toList.map fun a => (Message.forwardFrom, a.octets)
  let parameters := forwardTo ++ forwardFrom ++ others
  return parameters.foldl (fun m p => m.withParameter p.1 p.2) m

def asInbound (seconds : Int32) (d : Document) : Option Inbound := do
  let version ← (d.get "version").asOption asInt
  return { ← d.asMessage seconds with
    sender := ← (d.get "from").asAddress
    version := version.getD Protocol.current }

def ofMetrics (m : Metrics) : Document :=
  let values := ofMap fun (n : UInt64) => .int n.toNat
  .record [("counters", values m.counters), ("gauges", values m.gauges)]

end ClusterMetadata.Document
