/-!
Kinds of audit entries. A kind is stored under its code; a code without a kind of its own stands for
itself.
-/

namespace ClusterMetadata

inductive AuditKind where
  | keyspaceAltered
  | keyspaceDropped
  | tableAltered
  | columnAdded
  | columnDropped
  | tableRenamed
  | tableProbed
  | tableDropped
  | tableTruncated
  | rowInserted
  | rowUpdated
  | rowDeleted
  -- The record of a column that was dropped, see `ColumnDrop`.
  | columnDrop
  | custom (code : String)
  deriving DecidableEq, Repr

namespace AuditKind

def named : List AuditKind :=
  [keyspaceAltered, keyspaceDropped, tableAltered, columnAdded, columnDropped, tableRenamed,
   tableProbed, tableDropped, tableTruncated, rowInserted, rowUpdated, rowDeleted, columnDrop]

def code : AuditKind → String
  | keyspaceAltered => "a_ks"
  | keyspaceDropped => "d_ks"
  | tableAltered    => "a_cf_al"
  | columnAdded     => "a_cf_ad"
  | columnDropped   => "a_cf_d"
  | tableRenamed    => "a_cf_r"
  | tableProbed     => "a_cf_p"
  | tableDropped    => "d_cf"
  | tableTruncated  => "t_cf"
  | rowInserted     => "i_r"
  | rowUpdated      => "u_r"
  | rowDeleted      => "d_r"
  | columnDrop      => "column_drop_tag"
  | custom code     => code

def ofCode (code : String) : AuditKind :=
  (named.find? (·.code = code)).getD (custom code)

def isCustom : AuditKind → Bool
  | custom _ => true
  | _        => false

@[simp]
theorem code_ofCode (code : String) : (ofCode code).code = code := by
  unfold ofCode
  cases h : named.find? (·.code = code) with
  | none   => rfl
  | some k => simpa using List.find?_some h

-- The named kinds come first, the others follow in the order of their codes.
def order (a b : AuditKind) : Ordering :=
  compare (named.idxOf a) (named.idxOf b) |>.then (compare a.code b.code)

end AuditKind
end ClusterMetadata
