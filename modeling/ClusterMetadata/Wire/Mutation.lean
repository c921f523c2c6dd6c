import ClusterMetadata.Wire.CellName
import ClusterMetadata.Wire.Protocol

/-!
Mutations and batches of mutations on the wire. A range tombstone of a part of a partition needs
`Protocol.rangeTombstones`; one of a whole partition goes to every version.
-/

namespace ClusterMetadata.Wire

def writeTag : UInt8 := 0
def tombstoneTag : UInt8 := 1
def rangeTag : UInt8 := 2

def checkRange (path : CellName) (version : Int) : Except WireError Unit :=
  if path ≠ [] ∧ version < Protocol.rangeTombstones then
    throw (.unsupported "range tombstone" Protocol.rangeTombstones version)
  else pure ()

def writeDeletion (d : DeletionTime) : Bytes :=
  writeInt64 d.markedAt ++ writeInt32 d.localSeconds

def writeModification (version : Int) : Modification → Except WireError Bytes
  | .write name cell => do
    let name ← writeShort "cell name" (← writeName name)
    return writeTag :: name ++ writeInt64 cell.timestamp ++ writeCount cell.value.length ++
      cell.value
  | .tombstone name d => do
    let name ← writeShort "cell name" (← writeName name)
    return tombstoneTag :: name ++ writeDeletion d
  | .rangeTombstone path d => do
    checkRange path version
    let path ← writeShort "range prefix" (← writeName path)
    return rangeTag :: path ++ writeDeletion d

def writeFamily (version : Int) (family : String × List Modification) : Except WireError Bytes := do
  let table ← writeText family.1
  let mods ← writeAll (writeModification version) family.2
  return table ++ writeCount family.2.length ++ mods

def writeMutation (version : Int) (m : Mutation) : Except WireError Bytes := do
  let keyspace ← writeText m.keyspace
  let key ← writeShort "partition key" m.key
  let families ← writeAll (writeFamily version) m.families.toList
  return keyspace ++ key ++ writeCount m.families.size ++ families

def writeBatch (version : Int) (batch : List Mutation) : Except WireError Bytes := do
  return writeCount batch.length ++ (← writeAll (writeMutation version) batch)

def readDeletion : Reader DeletionTime := do
  return { markedAt := ← readInt64, localSeconds := ← readInt32 }

def readModification (version : Int) : Reader Modification := do
  let tag ← readByte
  let name ← readName (← readShort)
  if tag = writeTag then
    let timestamp ← readInt64
    let value ← take (← readCount "value byte")
    return .write name { value, timestamp }
  else if tag = tombstoneTag then
    return .tombstone name (← readDeletion)
  else if tag = rangeTag then
    checkRange name version
    return .rangeTombstone name (← readDeletion)
  else
    throw (.unknownModification tag)

def readFamily (version : Int) : Reader (String × List Modification) := do
  let table ← readText
  let mods ← readMany (readModification version) (← readCount "modification")
  return (table, mods)

-- A table that comes twice keeps the modifications of both.
def readMutation (version : Int) : Reader Mutation := do
  let keyspace ← readText
  let key ← readShort
  let families ← readMany (readFamily version) (← readCount "table")
  return .ofFamilies keyspace key families

def readBatch (version : Int) : Reader (List Mutation) := do
  readMany (readMutation version) (← readCount "definition")

end ClusterMetadata.Wire
