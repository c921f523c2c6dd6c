import ClusterMetadata.Proofs.Storage.Writes
import ClusterMetadata.Proofs.Wire.CellName
import ClusterMetadata.Wire.Mutation

/-!
What can be written at all. Each version of the protocol writes the mutations that it carries and
whose keyspace, key, tables and composite cell names have lengths of two bytes, and no other
(`isOk_writeMutation`); the current version carries them all. How many cells there are and how long
their values are is not looked at.
-/

namespace ClusterMetadata

def Modification.path : Modification → CellName
  | write name _          => name
  | tombstone name _      => name
  | rangeTombstone path _ => path

-- A range tombstone of a part of a partition is not for every version.
def Modification.CarriedBy (version : Int) : Modification → Prop
  | rangeTombstone path _ => path = [] ∨ Protocol.rangeTombstones ≤ version
  | _                     => True

def Mutation.CarriedBy (version : Int) (m : Mutation) : Prop :=
  ∀ f ∈ m.families.toList, ∀ mod ∈ f.2, mod.CarriedBy version

theorem Modification.carriedBy_current (mod : Modification) : mod.CarriedBy Protocol.current := by
  cases mod
  case write          => trivial
  case tombstone      => trivial
  case rangeTombstone => exact .inr (Int.le_refl _)

theorem Mutation.carriedBy_current (m : Mutation) : m.CarriedBy Protocol.current :=
  fun _ _ mod _ => mod.carriedBy_current

@[mk_iff]
structure Mutation.Fits (m : Mutation) : Prop where
  keyspace : (Utf8.encode m.keyspace).length < Wire.shortLimit
  key      : m.key.length < Wire.shortLimit
  tables   : ∀ f ∈ m.families.toList, (Utf8.encode f.1).length < Wire.shortLimit
  names    : ∀ f ∈ m.families.toList, ∀ mod ∈ f.2, Wire.nameLength mod.path < Wire.shortLimit

theorem Mutation.fits_ofFamilies_singleton {keyspace table : String} {key : Bytes}
    {mods : List Modification} : (ofFamilies keyspace key [(table, mods)]).Fits ↔
      (Utf8.encode keyspace).length < Wire.shortLimit ∧ key.length < Wire.shortLimit ∧
        (Utf8.encode table).length < Wire.shortLimit ∧
          ∀ mod ∈ mods, Wire.nameLength mod.path < Wire.shortLimit := by
  rw [fits_iff, toList_families_singleton]
  simp only [List.forall_mem_singleton]
  rfl

namespace Wire

variable {what : String} {name : CellName} {mod : Modification} {m : Mutation}
  {batch : List Mutation} {version : Int}

theorem isOk_writeName (h : nameLength name < shortLimit) : (writeName name).isOk = true := by
  have short : ∀ component ∈ name, (Utf8.encode component).length < shortLimit :=
    fun _ hm => Nat.lt_of_le_of_lt (length_le_of_mem hm) h
  exact isOk_iff.mpr ⟨_, writeName_eq_ok_iff.mpr ⟨short, rfl⟩⟩

-- A name goes out behind its length, whatever follows.
theorem isOk_writeShort_writeName {g : Bytes → Bytes} :
    (do return g (← writeShort what (← writeName name))).isOk = true ↔
      nameLength name < shortLimit := by
  refine (isOk_bind fun b hb => ?_).trans (and_iff_right_of_imp isOk_writeName)
  rw [isOk_map, isOk_writeShort, length_of_writeName hb]

theorem checkRange_eq_ok_iff :
    checkRange name version = .ok () ↔ name = [] ∨ Protocol.rangeTombstones ≤ version := by
  rw [checkRange]
  split
  case isTrue h  => exact iff_of_false nofun (by simpa using h)
  case isFalse h => exact iff_of_true rfl (by simpa [or_iff_not_imp_left] using h)

theorem isOk_writeModification : (writeModification version mod).isOk = true ↔
    nameLength mod.path < shortLimit ∧ mod.CarriedBy version := by
  cases mod
  case write          => exact isOk_writeShort_writeName.trans (and_iff_left trivial).symm
  case tombstone      => exact isOk_writeShort_writeName.trans (and_iff_left trivial).symm
  case rangeTombstone path d =>
    rw [writeModification, isOk_bind fun _ _ => isOk_writeShort_writeName, and_comm, isOk_iff]
    exact and_congr_right fun _ => ⟨fun ⟨_, h⟩ => checkRange_eq_ok_iff.mp h,
      fun h => ⟨(), checkRange_eq_ok_iff.mpr h⟩⟩

theorem isOk_writeFamily {f : String × List Modification} :
    (writeFamily version f).isOk = true ↔ (Utf8.encode f.1).length < shortLimit ∧
      ∀ mod ∈ f.2, nameLength mod.path < shortLimit ∧ mod.CarriedBy version := by
  rw [writeFamily, isOk_bind fun _ _ => isOk_map, isOk_writeText, isOk_writeAll]
  simp only [isOk_writeModification]

theorem isOk_writeMutation :
    (writeMutation version m).isOk = true ↔ m.Fits ∧ m.CarriedBy version := by
  rw [writeMutation, isOk_bind fun _ _ => isOk_bind fun _ _ => isOk_map, isOk_writeText,
    isOk_writeShort, isOk_writeAll]
  simp only [isOk_writeFamily]
  constructor
  case mp =>
    rintro ⟨hk, hb, hf⟩
    refine ⟨⟨hk, hb, fun f hm => (hf f hm).left, fun f hm mod hmod => ?_⟩, fun f hm mod hmod => ?_⟩
    · exact ((hf f hm).right mod hmod).left
    · exact ((hf f hm).right mod hmod).right
  case mpr =>
    rintro ⟨h, hc⟩
    refine ⟨h.keyspace, h.key, fun f hm => ⟨h.tables f hm, fun mod hmod => ?_⟩⟩
    exact ⟨h.names f hm mod hmod, hc f hm mod hmod⟩

theorem isOk_writeBatch_iff : (writeBatch version batch).isOk = true ↔
    ∀ m ∈ batch, m.Fits ∧ m.CarriedBy version := by
  rw [writeBatch, isOk_map, isOk_writeAll]
  simp only [isOk_writeMutation]

theorem isOk_writeBatch :
    (writeBatch Protocol.current batch).isOk = true ↔ ∀ m ∈ batch, m.Fits := by
  rw [isOk_writeBatch_iff]
  simp only [Mutation.carriedBy_current, and_true]

end Wire
end ClusterMetadata
