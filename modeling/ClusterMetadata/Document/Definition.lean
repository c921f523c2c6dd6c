import ClusterMetadata.Address.Text
import ClusterMetadata.Document
import ClusterMetadata.Schema.Definition

/-!
Definitions as documents. A clustering column is called `clustering` here.
-/

namespace ClusterMetadata.Document

def ofMap {α : Type} (write : α → Document) (m : SortedMap String α) : Document :=
  .record (m.toList.map fun (name, a) => (name, write a))

def kindName : ColumnKind → String
  | .partitionKey => "partition_key"
  | .clustering   => "clustering"
  | .regular      => "regular"

def kindOfName? (s : String) : Option ColumnKind :=
  [.partitionKey, .clustering, .regular].find? (kindName · = s)

def asKind : Document → Option ColumnKind
  | text s             => kindOfName? s
  | record [(s, null)] => kindOfName? s
  | _                  => none

def asUuid : Document → Option Uuid
  | text s => Uuid.parse? s
  | _      => none

def asAddress : Document → Option Address
  | text s => Address.parse? s
  | _      => none

def ofCellName (name : CellName) : Document := .list (name.map .text)

def asCellName (d : Document) : Option CellName := d.asList asText

def ofDeletionTime (d : DeletionTime) : Document :=
  .record [("marked_for_delete_at", .int d.markedAt.toInt),
           ("local_deletion_time", .int d.localSeconds.toInt)]

def asDeletionTime (d : Document) : Option DeletionTime :=
  match d.fields? ["marked_for_delete_at", "local_deletion_time"] with
  | some [some markedAt, some localSeconds] => do
    return { markedAt := .ofInt (← markedAt.asSigned 64)
             localSeconds := .ofInt (← localSeconds.asSigned 32) }
  | _ => none

def ofColumn (c : Column) : Document :=
  .record [("name", .text c.name), ("validator", .text c.validator),
           ("kind", .text (kindName c.kind))]

def asColumn (d : Document) : Option Column :=
  match d.fields? ["name", "validator", "kind"] with
  | some [some name, some validator, some kind] => do
    return { name := ← name.asText, validator := ← validator.asText, kind := ← kind.asKind }
  | _ => none

def ofTable (t : Table) : Document :=
  .record [("keyspace", .text t.keyspace), ("name", .text t.name), ("id", .text t.id.toText),
           ("comment", .text t.comment), ("columns", ofMap ofColumn t.columns)]

def asTable (d : Document) : Option Table :=
  match d.fields? ["keyspace", "name", "id", "comment", "columns"] with
  | some [some keyspace, some name, some id, some comment, some columns] => do
    return { keyspace := ← keyspace.asText
             name := ← name.asText
             id := ← id.asUuid
             comment := ← comment.asText
             columns := ← columns.asMap asColumn }
  | _ => none

def ofKeyspace (k : Keyspace) : Document :=
  .record [("name", .text k.name), ("strategy_class", .text k.strategyClass),
           ("strategy_options", ofMap .text k.strategyOptions),
           ("durable_writes", .bool k.durableWrites), ("tables", ofMap ofTable k.tables)]

def asKeyspace (d : Document) : Option Keyspace :=
  match d.fields? ["name", "strategy_class", "strategy_options", "durable_writes", "tables"] with
  | some [some name, some strategyClass, some strategyOptions, some durableWrites,
      some tables] => do
    return { name := ← name.asText
             strategyClass := ← strategyClass.asText
             strategyOptions := ← strategyOptions.asMap asText
             durableWrites := ← durableWrites.asBool
             tables := ← tables.asMap asTable }
  | _ => none

end ClusterMetadata.Document
