import ClusterMetadata.Document.Failure
import ClusterMetadata.Document.Mutation

/-!
Reports on definitions and their changes, before anything is written: whether they are accepted, and
which mutations they stand for.
-/

namespace ClusterMetadata.Document

def ofValidity : Except Flaw Unit → Document := ofUnit (ofDefinitionError ∘ .invalid)

-- The table, created or removed at an instant.
def ofTableReport (t : Table) (d : DeletionTime) : Document :=
  .record [("valid", ofValidity t.validate), ("display", ofText t.toText),
           ("qualified", ofText t.qualifiedName), ("partition_key", ofList ofText t.partitionKey),
           ("mutation", ofMutation true (t.creation d.markedAt)),
           ("drop", ofMutation true (t.removal d))]

def ofTableChange (old new : Table) (d : DeletionTime) : Document :=
  .record [("compatible", ofUnit (ofDefinitionError ∘ .incompatible) (old.checkReplacement new)),
           ("equal", .bool (old = new)), ("dropped", ofList ofText (old.droppedColumns new)),
           ("added", ofList ofText (old.addedColumns new)),
           ("update", ofMutation true (old.alteration new d))]

def ofKeyspaceReport (k : Keyspace) (d : DeletionTime) : Document :=
  .record [("valid", ofValidity k.validate), ("display", ofText k.toText),
           ("replication", ofText k.describeReplication),
           ("mutation", ofMutation true (k.creation d.markedAt)),
           ("drop", ofMutation true (k.removal d))]

def ofKeyspaceChange (old new : Keyspace) (d : DeletionTime) : Document :=
  .record [("differ", .bool (old.attributesDiffer new)), ("equal", .bool (old = new)),
           ("update", ofMutation true (new.alteration d.markedAt))]

end ClusterMetadata.Document
