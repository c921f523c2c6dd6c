import ClusterMetadata.Document.Bytes
import ClusterMetadata.Document.Definition
import ClusterMetadata.Schema.Rows
import ClusterMetadata.Storage

/-!
Cells and mutations as documents. A report that is to be the same in every run hides what came from
the clock: an instant is shown as `now`.
-/

namespace ClusterMetadata.Document

-- The microseconds and seconds that only a clock gives.
def isInstant (n : Int) : Bool := 1600000000000000 ≤ n && n ≤ 4000000000000000

def isSecond (n : Int) : Bool := 1600000000 ≤ n && n ≤ 2147483646

def unlessClock (clock : Bool) (shown : Document) : Document :=
  if clock then .text "now" else shown

def ofInstant (hide : Bool) (t : Int64) : Document :=
  unlessClock (hide && isInstant t.toInt) (.int t.toInt)

def ofSeconds (hide : Bool) (t : Int32) : Document :=
  unlessClock (hide && isSecond t.toInt) (.int t.toInt)

def signed? (s : String) : Option Int :=
  let magnitude (cs : List Char) : Option Int := (Digits.read? 10 cs).map Int.ofNat
  match s.toList with
  | '-' :: cs => (magnitude cs).map Int.neg
  | cs        => magnitude (Digits.unsigned cs)

def ofComponent (hide : Bool) (s : String) : Document :=
  unlessClock (hide && (signed? s).any isInstant) (ofText s)

def ofName (hide : Bool) (name : CellName) : Document := ofList (ofComponent hide) name

def orderText : Ordering → String
  | .lt => "lt"
  | .eq => "eq"
  | .gt => "gt"

-- A name, its place beside another one and a name below it.
def ofNameRelation (name other : CellName) (component : String) : Document :=
  .record [("display", ofText name.toText), ("leaf", ofOption ofText name.leaf),
           ("len", .int name.length), ("empty", .bool name.isEmpty),
           ("a_prefix_of_b", .bool (name.isPrefixOf other)),
           ("b_prefix_of_a", .bool (other.isPrefixOf name)),
           ("order", .text (orderText (compare name other))),
           ("component", .list (name.map ofText ++ [null])),
           ("child", ofList ofText (name.child component))]

-- Under `created_at` stand the milliseconds of an instant.
def ofValue (hide : Bool) (name : CellName) (v : Bytes) : Document :=
  let milliseconds := (UInt64.ofNat (BigEndian.decode v)).toInt64.toInt
  if hide ∧ name.leaf = some "created_at" ∧ v.length = 8 ∧ isInstant (milliseconds * 1000) then
    .text "now_ms"
  else ofBytes v

def deletionFields (hide : Bool) (d : DeletionTime) : List (String × Document) :=
  [("at", ofInstant hide d.markedAt), ("ldt", ofSeconds hide d.localSeconds)]

def ofModification (hide : Bool) : Modification → Document
  | .write name c =>
    .record [("w", ofName hide name), ("v", ofValue hide name c.value),
             ("ts", ofInstant hide c.timestamp)]
  | .tombstone name d      => .record (("t", ofName hide name) :: deletionFields hide d)
  | .rangeTombstone path d => .record (("r", ofName hide path) :: deletionFields hide d)

def ofFamily (hide : Bool) (family : String × List Modification) : Document :=
  .list [ofText family.1, ofList (ofModification hide) family.2]

def ofMutation (hide : Bool) (m : Mutation) : Document :=
  .record [("keyspace", ofText m.keyspace), ("key", ofBytes m.key),
           ("families", ofList (ofFamily hide) m.families.toList)]

def ofBatch (hide : Bool) (batch : List Mutation) : Document := ofList (ofMutation hide) batch

def ofFamilySummary (family : String × List Modification) : Document :=
  let change (x : Modification) : Document := .list [.int x.timestamp.toInt, .bool x.isDeletion]
  .list [ofText family.1, .bool family.2.isEmpty, ofList change family.2]

-- What a mutation touches and when; how many changes it makes in one of its tables; and how it
-- compares and merges with another one.
def ofSummary (m : Mutation) (table : Option String) (other : Option Mutation) : Document :=
  let changes : Option Nat := do return (← m.families[← table]?).length
  let comparison : List (String × Document) :=
    match other with
    | none   => []
    | some o =>
      [("equal", .bool (m = o)), ("merged", .bool (m.merge? o).isSome),
       ("after", ofMutation false ((m.merge? o).getD m))]
  .record ([("keyspace", ofText m.keyspace), ("key_string", ofText m.keyText),
            ("empty", .bool m.isEmpty), ("tables", ofList ofText m.tables),
            ("families", ofList ofFamilySummary m.families.toList),
            ("probe", ofOption (fun (n : Nat) => .int n) changes)] ++ comparison)

def ofCell (c : Cell) : Document :=
  .list [ofName true c.name, ofValue true c.name c.value, ofInstant true c.timestamp]

def asInt64 (d : Document) : Option Int64 := Int64.ofInt <$> d.asSigned 64

def asInt32 (d : Document) : Option Int32 := Int32.ofInt <$> d.asSigned 32

def asDeletion (d : Document) : Option DeletionTime := do
  return { markedAt := ← (d.get "at").asInt64, localSeconds := ← (d.get "ldt").asInt32 }

def asModification (d : Document) : Option Modification :=
  match d.get "w", d.get "t" with
  | null, null => do return .rangeTombstone (← (d.get "r").asCellName) (← d.asDeletion)
  | null, name => do return .tombstone (← name.asCellName) (← d.asDeletion)
  | name, _    => do
    return .write (← name.asCellName)
      { value := ← (d.get "v").asBytes, timestamp := ← (d.get "ts").asInt64 }

-- A mutation given as the change of a definition. Deletions are stamped with the given seconds.
def asChange (seconds : Int32) (change : String) (d : Document) : Option Mutation := do
  let timestamp ← (d.get "ts").asInt64
  let deletion : DeletionTime := { markedAt := timestamp, localSeconds := seconds }
  match change with
  | "keyspace"        => return (← (d.get "def").asKeyspace).creation timestamp
  | "keyspace_update" => return (← (d.get "new").asKeyspace).alteration timestamp
  | "keyspace_drop"   => return (← (d.get "def").asKeyspace).removal deletion
  | "table"           => return (← (d.get "def").asTable).creation timestamp
  | "table_update"    => do
    return (← (d.get "old").asTable).alteration (← (d.get "new").asTable) deletion
  | "table_drop"      => return (← (d.get "def").asTable).removal deletion
  | _                 => none

def asMutation (seconds : Int32) (d : Document) : Option Mutation :=
  match d.get "make" with
  | text change => asChange seconds change d
  | _           => do
    let families ← (d.get "families").asList (asPair asText (asList asModification))
    return .ofFamilies (← (d.get "keyspace").asText) (← (d.get "key").asBytes) families

def asBatch (seconds : Int32) (d : Document) : Option (List Mutation) :=
  d.asList (asMutation seconds)

def asRange (d : Document) : Option CellRange :=
  match d, d.get "prefix" with
  | null, _      => some .all
  | text _, _    => some .all
  | _,    null   => do return .between (← (d.get "start").asCellName) (← (d.get "end").asCellName)
  | _,    path   => do return .under (← path.asCellName)

end ClusterMetadata.Document
