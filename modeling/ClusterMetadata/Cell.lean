import ClusterMetadata.SortedMap
import ClusterMetadata.Text.Utf8

/-!
Cells and the changes made to them. A cell is named by a path of components; a mutation holds the
changes to one partition, in order, table by table.
-/

namespace ClusterMetadata

abbrev CellName := List String

namespace CellName

def leaf (n : CellName) : Option String := n.getLast?

def child (n : CellName) (component : String) : CellName := n ++ [component]

def toText (n : CellName) : String := ":".intercalate n

end CellName

-- Instants are in microseconds.
@[ext]
structure DeletionTime where
  markedAt : Int64
  localSeconds : Int32
  deriving DecidableEq, Repr

def DeletionTime.shadows (d : DeletionTime) (timestamp : Int64) : Bool :=
  timestamp ≤ d.markedAt

-- What a partition holds under a name.
@[ext]
structure Stamped where
  value : Bytes
  timestamp : Int64
  deriving DecidableEq, Repr

-- The later write wins, and of two writes at one instant the greater value.
def Stamped.supersedes (new old : Stamped) : Bool :=
  old.timestamp < new.timestamp || (new.timestamp == old.timestamp && old.value < new.value)

@[ext]
structure Cell extends Stamped where
  name : CellName
  deriving DecidableEq, Repr

inductive Modification where
  | write (name : CellName) (cell : Stamped)
  | tombstone (name : CellName) (deletion : DeletionTime)
  -- Covers every name that extends `path`; the empty path covers the partition.
  | rangeTombstone (path : CellName) (deletion : DeletionTime)
  deriving DecidableEq, Repr

namespace Modification

def timestamp : Modification → Int64
  | write _ c          => c.timestamp
  | tombstone _ d      => d.markedAt
  | rangeTombstone _ d => d.markedAt

def isDeletion : Modification → Bool
  | write .. => false
  | _        => true

end Modification

@[ext]
structure Mutation where
  keyspace : String
  key : Bytes
  -- What is modified in each table. That a family names its table too is left out: wherever one is
  -- made, that name is the one it is kept under.
  families : SortedMap String (List Modification)
  deriving DecidableEq

namespace Mutation

def empty (keyspace : String) (key : Bytes) : Mutation where
  keyspace := keyspace
  key := key
  families := ∅

-- Puts the modifications after those the table already has.
def extend (m : Mutation) (table : String) (mods : List Modification) : Mutation :=
  { m with families := m.families.alter table fun old => some (old.getD [] ++ mods) }

def extendAll (m : Mutation) (families : List (String × List Modification)) : Mutation :=
  families.foldl (fun m f => m.extend f.1 f.2) m

def ofFamilies (keyspace : String) (key : Bytes) (families : List (String × List Modification)) :
    Mutation :=
  (empty keyspace key).extendAll families

def tables (m : Mutation) : List String := m.families.keys

-- The key as it appears in targets and reports.
def keyText (m : Mutation) : String := Utf8.lossy m.key

def isEmpty (m : Mutation) : Bool :=
  m.families.all fun _ mods => mods.isEmpty

-- Both must address one partition.
def merge? (m other : Mutation) : Option Mutation :=
  if other.keyspace = m.keyspace ∧ other.key = m.key then some (m.extendAll other.families.toList)
  else none

end Mutation

inductive CellRange where
  | all
  | under (path : CellName)
  -- Both ends belong to the range.
  | between (first last : CellName)

def CellRange.contains : CellRange → CellName → Bool
  | all,                _ => true
  | under path,         n => path.isPrefixOf n
  | between first last, n => (compare first n).isLE && (compare n last).isLE

end ClusterMetadata
