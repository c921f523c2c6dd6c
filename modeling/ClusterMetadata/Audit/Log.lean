import ClusterMetadata.Audit.Kind
import ClusterMetadata.Catalog
import ClusterMetadata.Schema.Rows

/-!
The audit log. A target is a partition of it, and an entry a row named by the time, the client and
the kind. The time is part of the name only; the cells are stamped on their own.
-/

namespace ClusterMetadata

structure AuditEntry where
  target : String
  time : Int64
  client : String
  kind : AuditKind
  value : String
  deriving DecidableEq

namespace AuditEntry

def valueLeaf : String := "value"

def row (e : AuditEntry) : CellName := [toString e.time.toInt, e.client, e.kind.code]

def addition (e : AuditEntry) (timestamp : Int64) : Mutation :=
  .ofFamilies Catalog.metadata (Utf8.encode e.target)
    [(Catalog.log, Row.write e.row timestamp [(Row.marker, []), (valueLeaf, Utf8.encode e.value)])]

def removal (e : AuditEntry) (d : DeletionTime) : Mutation :=
  .ofFamilies Catalog.metadata (Utf8.encode e.target)
    [(Catalog.log, [Row.marker, valueLeaf].map fun leaf => .tombstone (e.row.child leaf) d)]

end AuditEntry

-- Who asked, as the log shows it.
def clientName (client : Option String) : String := client.getD ""

-- A keyspace, a table in it or a column of that table.
def joinTarget (parts : List String) : String := ".".intercalate parts

end ClusterMetadata
