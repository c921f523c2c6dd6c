import ClusterMetadata.Audit.Log
import ClusterMetadata.Storage

/-!
Records kept per kind and target. The record of a dropped column has a life: dropped once, it is
`dropped`, dropped again it is `permanent_drop`, and then it cannot be dropped any more. Records of
other kinds just carry their value.
-/

namespace ClusterMetadata

@[ext]
structure Tag where
  kind : AuditKind
  target : String
  value : Option Bytes
  createdAt : Option Bytes
  deriving DecidableEq

inductive TagError where
  | permanentlyDropped (target : String)
  | unknownState (target : String) (value : Bytes)
  | mismatch (expected found : String)
  deriving DecidableEq, Repr

def TagError.message : TagError → String
  | permanentlyDropped target => s!"column {target} is already permanently dropped"
  | unknownState target value =>
    s!"tag on {target} holds unknown state '" ++ Utf8.lossy value ++ "'"
  | mismatch expected found => s!"tag record mismatch: expected {expected}, found {found}"

namespace Tag

def dropped : Bytes := Utf8.encode "dropped"
def permanentDrop : Bytes := Utf8.encode "permanent_drop"

def valueLeaf : String := "value"
def createdAtLeaf : String := "created_at"

def new (kind : AuditKind) (parts : List String) : Tag where
  kind := kind
  target := joinTarget parts
  value := none
  createdAt := none

def partition (kind : AuditKind) : PartitionId where
  keyspace := Catalog.system
  table := Catalog.tags
  key := Utf8.encode kind.code

def leafValue? (cells : List Cell) (leaf : String) : Option Bytes :=
  (cells.filter (·.name[1]? == some leaf)).getLast?.map (·.value)

-- Records of other kinds than `columnDrop` are not read.
def load (s : Storage) (kind : AuditKind) (parts : List String) : Tag :=
  let tag := new kind parts
  if kind = .columnDrop then
    let cells := s.read (partition kind) (.under [tag.target])
    { tag with value := leafValue? cells valueLeaf, createdAt := leafValue? cells createdAtLeaf }
  else tag

def withValue (t : Tag) (value : Bytes) : Tag :=
  { t with value := some value }

-- Milliseconds.
def createdAt? (t : Tag) : Option Int64 := do
  let b ← t.createdAt
  if b.length = 8 then return (UInt64.ofNat (BigEndian.decode b)).toInt64 else none

def nextValue (t : Tag) : Except TagError Bytes :=
  match t.kind, t.value with
  | .columnDrop, none   => .ok dropped
  | .columnDrop, some v =>
    if v = dropped then .ok permanentDrop
    else if v = permanentDrop then .error (.permanentlyDropped t.target)
    else .error (.unknownState t.target v)
  | _,           v      => .ok (v.getD [])

-- Microseconds become milliseconds, toward zero.
def instant (timestamp : Int64) : Bytes :=
  BigEndian.encode 8 (timestamp / 1000).toUInt64.toNat

-- Takes the next step and says what to write for it.
def add (t : Tag) (timestamp : Int64) : Except TagError (Mutation × Tag) := do
  let value ← t.nextValue
  let createdAt := instant timestamp
  let m := .ofFamilies Catalog.system (Utf8.encode t.kind.code)
    [(Catalog.tags, Row.write [t.target] timestamp
      [(Row.marker, []), (valueLeaf, value), (createdAtLeaf, createdAt)])]
  return (m, { t with value := some value, createdAt := some createdAt })

def drop (t : Tag) (d : DeletionTime) : Mutation :=
  .ofFamilies Catalog.system (Utf8.encode t.kind.code)
    [(Catalog.tags,
      [Row.marker, valueLeaf, createdAtLeaf].map fun leaf => .tombstone [t.target, leaf] d)]

def label (t : Tag) : String := t.kind.code ++ "/" ++ t.target

def checkSame (t other : Tag) : Except TagError Unit :=
  if t.kind = other.kind ∧ t.target = other.target then .ok ()
  else .error (.mismatch t.label other.label)

-- Takes the step of the new state, which must belong to the same record.
def update (t new : Tag) (timestamp : Int64) : Except TagError (Mutation × Tag) := do
  t.checkSame new
  new.add timestamp

def remove (t new : Tag) (d : DeletionTime) : Except TagError Mutation := do
  t.checkSame new
  return new.drop d

end Tag
end ClusterMetadata
