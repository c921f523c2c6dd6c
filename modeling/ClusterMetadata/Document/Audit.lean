import ClusterMetadata.Audit.Rows
import ClusterMetadata.Audit.Tag
import ClusterMetadata.Document.Bytes

/-!
Audit records as documents.
-/

namespace ClusterMetadata.Document

def ofTag (t : Tag) : Document :=
  .record [("kind", ofText t.kind.code), ("target", ofText t.target),
           ("value", ofOption ofBytes t.value),
           ("value_str", ofOption (ofText ∘ Utf8.lossy) t.value),
           ("created_at", ofOption (fun (n : Int64) => .int n.toInt) t.createdAt?)]

def ofRowAudit (r : RowAudit) : Document :=
  ofList ofText [r.target, r.value, r.kind.code]

-- Kinds one by one, and in their order.
def ofKinds (kinds : List AuditKind) : Document :=
  let kind (k : AuditKind) : Document := .list [ofText k.code, ofText k.code, .bool k.isCustom]
  let sorted := kinds.mergeSort fun a b => (AuditKind.order a b).isLE
  .record [("each", ofList kind kinds), ("sorted", ofList (ofText ·.code) sorted)]

end ClusterMetadata.Document
