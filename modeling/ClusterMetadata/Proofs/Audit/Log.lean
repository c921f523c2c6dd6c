import ClusterMetadata.Audit.Log
import ClusterMetadata.Proofs.Storage.Writes
import Std.Data.String.ToInt

/-!
The mutations that write an entry of the audit log. They name the time, the client and the kind of
the entry in the partition of its target (`enters_addition`).
-/

namespace ClusterMetadata

namespace AuditEntry

variable {e e' : AuditEntry} {timestamp : Int64} {target target' : String}

-- Where the log keeps the entries of a target.
def partition (target : String) : PartitionId where
  keyspace := Catalog.metadata
  table := Catalog.log
  key := Utf8.encode target

theorem partition_inj : partition target = partition target' ↔ target = target' := by
  simp only [partition, PartitionId.mk.injEq, true_and]
  exact Utf8.encode_inj

theorem time_eq_of_row_eq (h : e.row = e'.row) : e.time = e'.time := by
  simp only [row, List.cons.injEq] at h
  exact Int64.toInt_inj.mp (Int.repr_inj.mp h.left)

theorem addition_on (e : AuditEntry) (timestamp : Int64) (id : PartitionId) :
    (e.addition timestamp).on id = if partition e.target = id then
      [.write (e.row.child Row.marker) ⟨[], timestamp⟩,
       .write (e.row.child valueLeaf) ⟨Utf8.encode e.value, timestamp⟩]
    else [] :=
  Mutation.on_ofFamilies_singleton ..

end AuditEntry

-- The mutation writes the two cells of a row that names a time, the client and the kind, in the
-- partition of the target, and nothing else.
structure Mutation.Enters (m : Mutation) (target : String) (kind : AuditKind) (client : String) :
    Prop where
  keyspace : m.keyspace = Catalog.metadata
  key      : m.key = Utf8.encode target
  cells    : ∃ time value timestamp, ∀ id, m.on id = if AuditEntry.partition target = id then
    [.write [time, client, kind.code, Row.marker] ⟨[], timestamp⟩,
     .write [time, client, kind.code, AuditEntry.valueLeaf] ⟨value, timestamp⟩]
  else []

theorem AuditEntry.enters_addition (e : AuditEntry) (timestamp : Int64) :
    (e.addition timestamp).Enters e.target e.kind e.client where
  keyspace := rfl
  key      := rfl
  cells    := ⟨_, _, _, e.addition_on timestamp⟩

end ClusterMetadata
