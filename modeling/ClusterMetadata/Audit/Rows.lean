import ClusterMetadata.Audit.Log

/-!
The audit entries of a row mutation: one for each table, with the written cells as its value.
-/

namespace ClusterMetadata

structure RowAudit where
  target : String
  value : String
  kind : AuditKind
  deriving DecidableEq

namespace RowAudit

def isMarker (name : CellName) : Bool := name.leaf == some Row.marker

def insertsRow : Modification → Bool
  | .write name _ => isMarker name
  | _             => false

def describe : Modification → Option String
  | .write name c =>
    if isMarker name then none
    else some (".".intercalate name ++ "=" ++ Utf8.lossy c.value ++ ";")
  | _ => none

def kindOf (mods : List Modification) : AuditKind :=
  if mods.any insertsRow then .rowInserted
  else if mods.all (·.isDeletion) then .rowDeleted
  else .rowUpdated

def ofMutation (m : Mutation) : List RowAudit :=
  m.families.toList.map fun (table, mods) => {
    target := joinTarget [m.keyspace, table, m.keyText]
    value := String.join (mods.filterMap describe)
    kind := kindOf mods }

-- The entries by kind, the kinds as they first come.
def byKind (entries : List RowAudit) : List (AuditKind × List RowAudit) :=
  (entries.map (·.kind)).eraseDups.map fun kind => (kind, entries.filter (·.kind = kind))

end RowAudit
end ClusterMetadata
