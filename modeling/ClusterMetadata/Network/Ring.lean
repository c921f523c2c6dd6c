import ClusterMetadata.Address
import ClusterMetadata.Digest.Sha256

/-!
Placement of replicas. Members sit on a ring at the token of their address; the replicas of a key
are the members at or after its token, as many as the replication factor asks for.
-/

namespace ClusterMetadata

-- The first eight bytes of the digest, as a signed number.
def token (key : Bytes) : Int64 :=
  (UInt64.ofNat (BigEndian.decode ((Sha256.digest key).take 8))).toInt64

abbrev Ring := List (Int64 × Address)

namespace Ring

def position (a : Address) : Int64 × Address := (token a.octets, a)

def precedes (p q : Int64 × Address) : Bool :=
  p.1 < q.1 || (p.1 == q.1 && (compare p.2 q.2).isLE)

def ofMembers (members : List Address) : Ring :=
  (members.map position).mergeSort precedes

-- The ring as seen from the token: from the first position at or after it all the way around.
def startingAt (ring : Ring) (token : Int64) : Ring :=
  ring.filter (token ≤ ·.1) ++ ring.filter (·.1 < token)

def replicas (ring : Ring) (factor : Nat) (token : Int64) : List Address :=
  ((ring.startingAt token).take factor).map (·.2)

end Ring
end ClusterMetadata
