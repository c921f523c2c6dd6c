import ClusterMetadata.Cluster
import ClusterMetadata.Document.Event
import ClusterMetadata.Document.Message

/-!
What members of a network see and show, as documents.
-/

namespace ClusterMetadata.Document

-- An event as its watcher is told of it.
def ofMemberEvent (told : Address × MemberEvent) : Document :=
  let event (name : String) (member : Address) (detail : Document) : Document :=
    .list [ofAddress told.1, .text name, ofAddress member, detail]
  match told.2 with
  | .joined a       => event "join" a .null
  | .advertised a v => event "change" a (.list [.text "schema", ofUuid v])
  | .revived a v    => event "alive" a (ofOption ofUuid v)
  | .died a         => event "dead" a .null
  | .removed a      => event "remove" a .null

-- What the network knows of a member, or of anyone else.
def ofMember (n : Network) (a : Address) : Document :=
  .record [("alive", .bool (n.isAlive a)), ("version", .int (n.version a)),
           ("client", .bool (n.isNonReplicating a)), ("schema", ofOption ofUuid (n.schema a))]

-- A message as it comes in at its recipient.
def ofDelivery (s : SentMessage) : Document :=
  .list ([ofAddress s.recipient, ofAddress s.sender, ofText s.id, ofVerb s.message.verb] ++
    inboundFields s.inbound)

def ofPullDecision : PullDecision → Document
  | .upToDate             => .text "up_to_date"
  | .ineligible           => .text "ineligible"
  | .immediate            => .text "immediate"
  | .delayed milliseconds => .list [.text "delayed", .int milliseconds]

def ofNode (net : Network) (n : Node) : Document :=
  let number (k : Nat) : Document := .int k
  .record [("version", ofUuid n.schema.version),
           ("advertised", ofOption ofUuid (net.schema n.address)),
           ("keyspaces", ofList ofText n.schema.names),
           ("timers", ofList number (n.timers.delays.mergeSort (· ≤ ·))),
           ("callbacks", number n.messenger.pending)]

def ofNodes (c : Cluster) : Document :=
  .record (c.nodes.toList.map fun (a, n) => (a.toText, ofNode c.network n))

end ClusterMetadata.Document
