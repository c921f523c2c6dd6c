import ClusterMetadata.Cell

/-!
The cells of a node, by partition. A write that a deletion covers is refused on arrival, and a
deletion removes what it covers at once, so what is stored does not depend on the order in which
the modifications came.
-/

namespace ClusterMetadata

@[ext]
structure PartitionId where
  keyspace : String
  table : String
  key : Bytes
  deriving DecidableEq

namespace PartitionId

abbrev order : PartitionId → PartitionId → Ordering :=
  compareLex (compareOn keyspace) (compareLex (compareOn table) (compareOn key))

instance : Ord PartitionId := ⟨order⟩

instance : Std.TransOrd PartitionId := inferInstanceAs (Std.TransCmp order)

instance : Std.LawfulEqOrd PartitionId where
  eq_of_compare {a b} h := by
    have h : (compareOn keyspace a b).then
        ((compareOn table a b).then (compareOn key a b)) = .eq := h
    obtain ⟨hk, h⟩ := Ordering.then_eq_eq.mp h
    obtain ⟨ht, hb⟩ := Ordering.then_eq_eq.mp h
    exact PartitionId.ext (Std.LawfulEqOrd.eq_of_compare hk) (Std.LawfulEqOrd.eq_of_compare ht)
      (Std.LawfulEqOrd.eq_of_compare hb)

end PartitionId

@[ext]
structure Partition where
  cells : SortedMap CellName Stamped
  -- The latest deletion of each path.
  tombstones : SortedMap CellName DeletionTime
  deriving DecidableEq

namespace Partition

instance : EmptyCollection Partition := ⟨⟨∅, ∅⟩⟩

def shadowed (p : Partition) (name : CellName) (timestamp : Int64) : Bool :=
  p.tombstones.any fun path d => path.isPrefixOf name && d.shadows timestamp

def write (p : Partition) (name : CellName) (cell : Stamped) : Partition :=
  if p.shadowed name cell.timestamp then p
  else
    match p.cells[name]? with
    | some old => if cell.supersedes old then { p with cells := p.cells.insert name cell } else p
    | none     => { p with cells := p.cells.insert name cell }

def delete (p : Partition) (path : CellName) (d : DeletionTime) : Partition where
  cells := p.cells.filter fun name c => !(path.isPrefixOf name && d.shadows c.timestamp)
  tombstones := p.tombstones.alter path fun
    | some old => some (if old.markedAt < d.markedAt then d else old)
    | none     => some d

def modify (p : Partition) : Modification → Partition
  | .write name cell       => p.write name cell
  | .tombstone name d      => p.delete name d
  | .rangeTombstone path d => p.delete path d

def read (p : Partition) (range : CellRange) : List Cell :=
  p.cells.toList.filterMap fun (name, c) =>
    if range.contains name then some { c with name } else none

end Partition

inductive Malformed where
  | strategyOptions (keyspace : String)
  | tableId (keyspace table : String)
  | columnKind (keyspace table column : String)
  deriving DecidableEq, Repr

inductive StorageError where
  | writeFailure
  | malformed (table : String) (value : Malformed)
  deriving DecidableEq, Repr

namespace StorageError

def detail : Malformed → String
  | .strategyOptions keyspace          => s!"strategy options of '{keyspace}'"
  | .tableId keyspace table            => s!"id of {keyspace}.{table}"
  | .columnKind keyspace table column  => s!"kind of {keyspace}.{table}.{column}"

def prelude (table : String) : String := s!"malformed stored value in {table}: "

def message : StorageError → String
  | writeFailure          => "storage I/O error: memory storage write failure injected"
  | malformed table value => prelude table ++ detail value

end StorageError

@[ext]
structure Storage where
  partitions : SortedMap PartitionId Partition
  -- While set, every write, deletion and truncation fails and leaves no trace.
  failing : Bool
  deriving DecidableEq

namespace Storage

instance : EmptyCollection Storage := ⟨⟨∅, false⟩⟩

def partition (s : Storage) (id : PartitionId) : Partition :=
  s.partitions[id]?.getD ∅

def modify (s : Storage) (id : PartitionId) (mods : List Modification) :
    Except StorageError Storage :=
  if mods.isEmpty then .ok s
  else if s.failing then .error .writeFailure
  else
    .ok { s with
      partitions := s.partitions.insert id (mods.foldl Partition.modify (s.partition id)) }

def write (s : Storage) (id : PartitionId) (name : CellName) (cell : Stamped) :
    Except StorageError Storage :=
  s.modify id [.write name cell]

def delete (s : Storage) (id : PartitionId) (path : CellName) (d : DeletionTime) :
    Except StorageError Storage :=
  s.modify id [.rangeTombstone path d]

def apply (s : Storage) (m : Mutation) : Except StorageError Storage :=
  m.families.toList.foldlM (fun s (table, mods) => s.modify ⟨m.keyspace, table, m.key⟩ mods) s

def applyAll (s : Storage) (batch : List Mutation) : Except StorageError Storage :=
  batch.foldlM apply s

def truncate (s : Storage) (keyspace table : String) : Except StorageError Storage :=
  if s.failing then .error .writeFailure
  else .ok { s with
    partitions := s.partitions.filter fun id _ => !(id.keyspace == keyspace && id.table == table) }

def read (s : Storage) (id : PartitionId) (range : CellRange) : List Cell :=
  (s.partition id).read range

-- The keys under which the table has a live cell, in order.
def keys (s : Storage) (keyspace table : String) : List Bytes :=
  s.partitions.toList.filterMap fun (id, p) =>
    if id.keyspace = keyspace ∧ id.table = table ∧ ¬p.cells.isEmpty then some id.key else none

end Storage
end ClusterMetadata
