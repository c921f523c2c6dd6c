import ClusterMetadata.Catalog
import ClusterMetadata.Schema.Definition
import ClusterMetadata.Text.OptionMap

/-!
Definitions as rows of the schema tables. A keyspace is one partition of each table. Every row has a
marker, a cell whose last component is empty; the row exists while the marker does.
-/

namespace ClusterMetadata

namespace Row

def marker : String := ""

def durableWrites : String := "durable_writes"
def strategyClass : String := "strategy_class"
def strategyOptions : String := "strategy_options"

def id : String := "id"
def comment : String := "comment"

def validator : String := "validator"
def kind : String := "kind"

-- A row and its cells, all written at one instant.
def write (path : CellName) (timestamp : Int64) (cells : List (String × Bytes)) :
    List Modification :=
  cells.map fun (leaf, value) => .write (path.child leaf) { value, timestamp }

end Row

namespace Column

def rows (table : String) (timestamp : Int64) (c : Column) : List Modification :=
  Row.write [table, c.name] timestamp
    [(Row.marker, []), (Row.validator, Utf8.encode c.validator),
     (Row.kind, Utf8.encode c.kind.toText)]

end Column

namespace Table

def rows (t : Table) (timestamp : Int64) : List (String × List Modification) :=
  [(Catalog.tables, Row.write [t.name] timestamp
      [(Row.marker, []), (Row.id, Utf8.encode t.id.toText), (Row.comment, Utf8.encode t.comment)]),
   (Catalog.columns, t.columns.values.flatMap (Column.rows t.name timestamp))]

def creation (t : Table) (timestamp : Int64) : Mutation :=
  .ofFamilies Catalog.system (Utf8.encode t.keyspace) (t.rows timestamp)

-- All rows of the new definition, and a range tombstone for each column it no longer has.
def alteration (old new : Table) (d : DeletionTime) : Mutation :=
  let dropped := (old.droppedColumns new).map fun c => .rangeTombstone [old.name, c] d
  (new.creation d.markedAt).extend Catalog.columns dropped

def removal (t : Table) (d : DeletionTime) : Mutation :=
  .ofFamilies Catalog.system (Utf8.encode t.keyspace)
    [(Catalog.tables, [.rangeTombstone [t.name] d]),
     (Catalog.columns, [.rangeTombstone [t.name] d])]

end Table

namespace Keyspace

def attributeRows (k : Keyspace) (timestamp : Int64) : List (String × List Modification) :=
  [(Catalog.keyspaces, Row.write [] timestamp
      [(Row.marker, []), (Row.durableWrites, Utf8.encode (toString k.durableWrites)),
       (Row.strategyClass, Utf8.encode k.strategyClass),
       (Row.strategyOptions, Utf8.encode (OptionMap.render k.strategyOptions))])]

-- The attributes alone.
def alteration (k : Keyspace) (timestamp : Int64) : Mutation :=
  .ofFamilies Catalog.system (Utf8.encode k.name) (k.attributeRows timestamp)

def creation (k : Keyspace) (timestamp : Int64) : Mutation :=
  (k.alteration timestamp).extendAll (k.tables.values.flatMap (·.rows timestamp))

def removal (k : Keyspace) (d : DeletionTime) : Mutation :=
  .ofFamilies Catalog.system (Utf8.encode k.name)
    (Catalog.schema.map fun table => (table, [.rangeTombstone [] d]))

end Keyspace
end ClusterMetadata
