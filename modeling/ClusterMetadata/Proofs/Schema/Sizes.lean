import ClusterMetadata.Proofs.Audit.Tag
import ClusterMetadata.Proofs.Schema.Announcement
import ClusterMetadata.Proofs.Wire.Payload

/-!
How much room the mutations take by which definitions are announced. Every name in them is a name
that was accepted, or joined from three such names, or one of the leaves of the rows, so lengths of
two bytes hold them all: whatever is accepted can be written (`Keyspace.fits_creation`,
`Table.fits_alteration`, `Tag.fits_addition`).
-/

namespace ClusterMetadata

open Wire

variable {what name keyspace table target : String} {path : CellName} {key value : Bytes}
  {families : List (String × List Modification)} {cells : List (String × Bytes)}
  {timestamp : Int64} {d : DeletionTime}

def FitsFamily (f : String × List Modification) : Prop :=
  (Utf8.encode f.1).length < shortLimit ∧ ∀ mod ∈ f.2, nameLength mod.path < shortLimit

theorem Mutation.fits_ofFamilies (hk : (Utf8.encode keyspace).length < shortLimit)
    (hb : key.length < shortLimit) (hf : ∀ f ∈ families, FitsFamily f) :
    (ofFamilies keyspace key families).Fits := by
  have ⟨he, heb⟩ := (empty keyspace key).partition_extendAll families
  have fit : ∀ f ∈ (ofFamilies keyspace key families).families.toList, FitsFamily f := by
    refine forall_mem_extendAll (fun h h' => ?_) (by simp [empty]) hf
    exact ⟨h.left, List.forall_mem_append.mpr ⟨h.right, h'.right⟩⟩
  exact ⟨he ▸ hk, heb ▸ hb, fun f hm => (fit f hm).left, fun f hm => (fit f hm).right⟩

theorem length_encode_le_of_checkName (h : checkName what name = .ok ()) :
    (Utf8.encode name).length ≤ maxNameLength :=
  Utf8.length_encode name ▸ (checkName_eq_ok_iff.mp h).right.right

-- Three names that are accepted.
def nameLimit : Nat := 3 * (maxNameLength + 3)

theorem nameLength_child {leaf : String} :
    nameLength (path.child leaf) = nameLength path + (Utf8.encode leaf).length + 3 := by
  simp [nameLength, CellName.child]
  omega

theorem lt_shortLimit_of_le_nameLimit {n : Nat} (h : n ≤ nameLimit + maxNameLength + 3) :
    n < shortLimit :=
  h.trans_lt (by decide)

theorem fitsFamily_of_mem_schema {family : String} {mods : List Modification}
    (hf : family ∈ Catalog.schema) (hm : ∀ mod ∈ mods, nameLength mod.path < shortLimit) :
    FitsFamily (family, mods) := by
  have hl : ∀ family ∈ Catalog.schema, (Utf8.encode family).length < shortLimit := by
    decide +kernel
  exact ⟨hl family hf, hm⟩

-- The partition that the rows of a keyspace and its tables are in.
theorem Mutation.Fits.of_schema (hn : checkName what name = .ok ())
    (hf : ∀ f ∈ families, FitsFamily f) :
    (ofFamilies Catalog.system (Utf8.encode name) families).Fits := by
  have hs : (Utf8.encode Catalog.system).length < shortLimit := by decide +kernel
  exact Mutation.fits_ofFamilies hs ((length_encode_le_of_checkName hn).trans_lt (by decide)) hf

theorem Row.length_encode_le (family : String) :
    ∀ leaf ∈ leaves family, (Utf8.encode leaf).length ≤ maxNameLength := by
  unfold leaves
  repeat' split
  all_goals decide +kernel

theorem Row.fits_write (hp : nameLength path ≤ nameLimit)
    (hc : ∀ leaf ∈ cells.map (·.1), (Utf8.encode leaf).length ≤ maxNameLength) :
    ∀ mod ∈ write path timestamp cells, nameLength mod.path < shortLimit := by
  intro mod hm
  obtain ⟨cell, hcell, rfl⟩ := List.mem_map.mp hm
  have hl := hc cell.1 (List.mem_map_of_mem hcell)
  refine lt_shortLimit_of_le_nameLimit ?_
  rw [Modification.path, nameLength_child]
  omega

namespace Table

variable {t old : Table} {c : Column}

theorem nameLength_row_le (hv : t.validate = .ok ()) : nameLength [t.name] ≤ nameLimit := by
  have hn := length_encode_le_of_checkName (validate_eq_ok_iff.mp hv).right.left
  simp only [nameLength, List.map_cons, List.map_nil, List.sum_cons, List.sum_nil, nameLimit]
  omega

theorem nameLength_column_le (hv : t.validate = .ok ()) (hc : t.columns[name]? = some c) :
    nameLength [t.name, c.name] ≤ nameLimit := by
  have ⟨_, ht, hcs⟩ := validate_eq_ok_iff.mp hv
  have ht := length_encode_le_of_checkName ht
  have hc := length_encode_le_of_checkName (seq_eq_ok_iff.mp (hcs name c hc)).left
  simp only [nameLength, List.map_cons, List.map_nil, List.sum_cons, List.sum_nil, nameLimit]
  omega

theorem fitsFamily_rows (hv : t.validate = .ok ()) : ∀ f ∈ t.rows timestamp, FitsFamily f := by
  rw [rows_eq, List.forall_mem_cons, List.forall_mem_singleton]
  constructor
  case left =>
    exact fitsFamily_of_mem_schema Catalog.tables_mem_schema
      (Row.fits_write (nameLength_row_le hv) (Row.length_encode_le Catalog.tables))
  case right =>
    refine fitsFamily_of_mem_schema Catalog.columns_mem_schema fun mod hm => ?_
    have ⟨c, hc, hm⟩ := List.mem_flatMap.mp hm
    have ⟨key, hc⟩ := SortedMap.mem_values.mp hc
    have hl : ∀ leaf ∈ c.cells.map (·.1), (Utf8.encode leaf).length ≤ maxNameLength :=
      Row.length_encode_le Catalog.columns
    exact Row.fits_write (nameLength_column_le hv hc) hl mod hm

theorem fits_creation (hv : t.validate = .ok ()) : (t.creation timestamp).Fits :=
  .of_schema (validate_eq_ok_iff.mp hv).left (fitsFamily_rows hv)

-- The columns that are dropped are named by the keys of the old definition.
theorem fits_alteration (ho : old.validate = .ok ()) (hk : old.Keyed) (hv : t.validate = .ok ()) :
    (old.alteration t d).Fits := by
  rw [alteration, creation, Mutation.extend_ofFamilies]
  refine .of_schema (validate_eq_ok_iff.mp hv).left (List.forall_mem_append.mpr
    ⟨fitsFamily_rows hv, List.forall_mem_singleton.mpr ?_⟩)
  refine fitsFamily_of_mem_schema Catalog.columns_mem_schema fun mod hm => ?_
  obtain ⟨name, hn, rfl⟩ := List.mem_map.mp hm
  obtain ⟨c, hc⟩ := (mem_droppedColumns.mp hn).left
  have hl := nameLength_column_le ho hc
  rw [hk name c hc] at hl
  exact lt_shortLimit_of_le_nameLimit (by rw [Modification.path]; omega)

theorem fits_removal (hv : t.validate = .ok ()) : (t.removal d).Fits := by
  have hm : ∀ mod ∈ [Modification.rangeTombstone [t.name] d],
      nameLength mod.path < shortLimit := by
    have hl := nameLength_row_le hv
    exact List.forall_mem_singleton.mpr (lt_shortLimit_of_le_nameLimit (by
      rw [Modification.path]; omega))
  refine .of_schema (validate_eq_ok_iff.mp hv).left ?_
  rw [List.forall_mem_cons, List.forall_mem_singleton]
  exact ⟨fitsFamily_of_mem_schema Catalog.tables_mem_schema hm,
    fitsFamily_of_mem_schema Catalog.columns_mem_schema hm⟩

end Table

namespace Keyspace

variable {k : Keyspace}

theorem fitsFamily_attributeRows : ∀ f ∈ k.attributeRows timestamp, FitsFamily f :=
  List.forall_mem_singleton.mpr (fitsFamily_of_mem_schema Catalog.keyspaces_mem_schema
    (Row.fits_write (by decide) (Row.length_encode_le Catalog.keyspaces)))

theorem fits_alteration (hv : k.validate = .ok ()) : (k.alteration timestamp).Fits :=
  .of_schema (validate_eq_ok_iff.mp hv).left fitsFamily_attributeRows

theorem fits_creation (hv : k.validate = .ok ()) : (k.creation timestamp).Fits := by
  obtain ⟨hn, -, ht⟩ := validate_eq_ok_iff.mp hv
  rw [creation, alteration, Mutation.extendAll_ofFamilies]
  refine .of_schema hn (List.forall_mem_append.mpr ⟨fitsFamily_attributeRows, fun f hf => ?_⟩)
  obtain ⟨t, hm, hf⟩ := List.mem_flatMap.mp hf
  obtain ⟨key, hm⟩ := SortedMap.mem_values.mp hm
  exact Table.fitsFamily_rows (ht key t hm).right f hf

theorem fits_removal (hv : k.validate = .ok ()) : (k.removal d).Fits := by
  refine .of_schema (validate_eq_ok_iff.mp hv).left fun f hf => ?_
  obtain ⟨family, hm, rfl⟩ := List.mem_map.mp hf
  have hl : nameLength [] < shortLimit := by decide
  exact fitsFamily_of_mem_schema hm (List.forall_mem_singleton.mpr hl)

end Keyspace

theorem length_encode_joinTarget (keyspace table column : String) :
    (Utf8.encode (joinTarget [keyspace, table, column])).length = (Utf8.encode keyspace).length +
      (Utf8.encode table).length + (Utf8.encode column).length + 2 := by
  have hj : joinTarget [keyspace, table, column] =
      keyspace ++ "." ++ table ++ "." ++ column := rfl
  have hd : ".".utf8ByteSize = 1 := rfl
  simp only [hj, Utf8.length_encode, String.utf8ByteSize_append, hd]
  omega

theorem Tag.fits_addition (h : (Utf8.encode target).length + 3 ≤ nameLimit) :
    (addition .columnDrop target value timestamp).Fits := by
  have hs : (Utf8.encode Catalog.system).length < shortLimit := by decide +kernel
  have hk : (Utf8.encode AuditKind.columnDrop.code).length < shortLimit := by decide +kernel
  have ht : (Utf8.encode Catalog.tags).length < shortLimit := by decide +kernel
  have hl : ∀ leaf ∈ [Row.marker, valueLeaf, createdAtLeaf],
      (Utf8.encode leaf).length ≤ maxNameLength := by
    decide +kernel
  have hp : nameLength [target] ≤ nameLimit := by rwa [nameLength_cons]
  exact Mutation.fits_ofFamilies_singleton.mpr ⟨hs, hk, ht, Row.fits_write hp hl⟩

end ClusterMetadata
