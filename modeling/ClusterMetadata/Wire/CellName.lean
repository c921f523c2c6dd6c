import ClusterMetadata.Cell
import ClusterMetadata.Wire.Reader

/-!
The composite form of a cell name: each component behind its length, closed by an end marker. The
marker's value is not looked at when a name is read.
-/

namespace ClusterMetadata.Wire

def endOfComponent : UInt8 := 0

def writeComponent (component : String) : Except WireError Bytes := do
  return (← writeShort "composite component" (Utf8.encode component)) ++ [endOfComponent]

def writeName (name : CellName) : Except WireError Bytes :=
  writeAll writeComponent name

def readComponent : Reader String := do
  let component ← asText (← readShort)
  let _ ← readByte
  return component

-- A component takes at least three bytes, so a name has at most `limit` components when its form
-- has at most `limit` bytes.
def readComponents (limit : Nat) (b : Bytes) : Except WireError CellName :=
  match limit, b with
  | _,         [] => .ok []
  | 0,         _  => .error .truncated
  | limit + 1, b  => do
    let (component, rest) ← readComponent b
    return component :: (← readComponents limit rest)

def readName (b : Bytes) : Except WireError CellName :=
  readComponents b.length b

end ClusterMetadata.Wire
