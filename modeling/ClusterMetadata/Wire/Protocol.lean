/-!
The versions of the protocol between members, as the numbers that members tell each other.
-/

namespace ClusterMetadata.Protocol

-- The first version that knows forward lists.
def forwarding : Int := 4

-- The oldest version whose schema timestamps can be trusted for a pull.
def trustedTimestamps : Int := 5

-- The first version that carries range tombstones.
def rangeTombstones : Int := 6

def oldest : Int := 3

def current : Int := rangeTombstones

end ClusterMetadata.Protocol
