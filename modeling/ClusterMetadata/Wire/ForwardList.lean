import ClusterMetadata.Address
import ClusterMetadata.Wire.Reader

/-!
Forward lists: the members a message is to be relayed to, each with the id under which it answers.
-/

namespace ClusterMetadata.Wire

def asAddress (octets : Bytes) : Except WireError Address :=
  match Address.ofOctets? octets with
  | some a => pure a
  | none   => throw (.badAddress octets.length)

def writeForward (entry : Address × String) : Except WireError Bytes := do
  let id ← writeText entry.2
  return UInt8.ofNat entry.1.octets.length :: entry.1.octets ++ id

def writeForwardList (entries : List (Address × String)) : Except WireError Bytes := do
  return writeCount entries.length ++ (← writeAll writeForward entries)

def readForward : Reader (Address × String) := do
  let octets ← take (← readByte).toNat
  return (← asAddress octets, ← readText)

def readForwardList : Reader (List (Address × String)) := do
  readMany readForward (← readCount "forward-to")

end ClusterMetadata.Wire
