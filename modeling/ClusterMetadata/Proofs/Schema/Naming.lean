import ClusterMetadata.Audit.Log
import ClusterMetadata.Proofs.Schema.Change

/-!
Names without dots. Names that are accepted have none, so the parts of a target can be told from it
(`joinTarget_inj`). Where only such columns have been written, the columns that are shown have such
names (`Replica.Sound.isPlain_of_shown`).
-/

namespace ClusterMetadata

variable {what name keyspace table column keyspace' table' column' leaf : String}
  {parts : List String}

def IsPlain (name : String) : Prop := '.' ∉ name.toList

theorem isPlain_of_checkName (h : checkName what name = .ok ()) : IsPlain name := by
  obtain ⟨-, hc, -⟩ := checkName_eq_ok_iff.mp h
  intro hm
  exact absurd (List.all_eq_true.mp hc '.' hm) (by decide)

theorem joinTarget_qualifiedName (t : Table) (column : String) :
    joinTarget [t.qualifiedName, column] = joinTarget [t.keyspace, t.name, column] := rfl

theorem joinTarget_pair_injective (target : String) :
    (fun column => joinTarget [target, column]).Injective := by
  intro column column' h
  simpa [joinTarget] using h

-- The plain parts of a target can be told from it.
theorem splitOn_joinTarget (h : ∀ part ∈ parts, IsPlain part) (hn : parts ≠ []) :
    (joinTarget parts).toList.splitOn '.' = parts.map String.toList := by
  rw [joinTarget, String.toList_intercalate]
  refine List.splitOn_intercalate '.' ?_ (by simpa using hn)
  rintro _ hm
  obtain ⟨part, hp, rfl⟩ := List.mem_map.mp hm
  exact h part hp

theorem count_joinTarget (keyspace table column : String) :
    (joinTarget [keyspace, table, column]).toList.count '.' =
      keyspace.toList.count '.' + table.toList.count '.' + column.toList.count '.' + 2 := by
  simp [joinTarget, List.count_append]
  omega

-- There are no dots but those between the plain parts, so the other parts are plain, too.
theorem joinTarget_inj (hk : IsPlain keyspace) (ht : IsPlain table) (hc : IsPlain column) :
    joinTarget [keyspace', table', column'] = joinTarget [keyspace, table, column] ↔
      keyspace' = keyspace ∧ table' = table ∧ column' = column := by
  constructor
  case mpr => rintro ⟨rfl, rfl, rfl⟩; rfl
  case mp =>
    intro h
    have dots := count_joinTarget keyspace' table' column'
    rw [h, count_joinTarget, List.count_eq_zero.mpr hk, List.count_eq_zero.mpr ht,
      List.count_eq_zero.mpr hc] at dots
    have plain : ∀ part ∈ [keyspace, table, column], IsPlain part := by simp [hk, ht, hc]
    have plain' : ∀ part ∈ [keyspace', table', column'], IsPlain part := by
      simp only [List.forall_mem_cons, IsPlain, ← List.count_eq_zero]
      exact ⟨by omega, by omega, by omega, nofun⟩
    have parts := congrArg (fun s : String => s.toList.splitOn '.') h
    rw [splitOn_joinTarget plain (by simp), splitOn_joinTarget plain' (by simp)] at parts
    simpa [String.toList_inj] using parts

namespace Storage

-- The columns of tables that are stored have plain names.
def HasPlainColumns (s : Storage) : Prop :=
  ∀ key table column leaf c,
    (s.partition ⟨Catalog.system, Catalog.columns, key⟩).cells[[table, column, leaf]]? = some c →
      IsPlain column

variable {s s' : Storage} {w : PartitionId → List Modification}

theorem hasPlainColumns_empty : HasPlainColumns ∅ := by
  intro key table column leaf c hc
  rw [partition_empty, Partition.getElem?_cells_empty] at hc
  cases hc

theorem HasPlainColumns.writes (h : s.HasPlainColumns) (hw : s.Writes w s')
    (hn : ∀ key table column leaf c,
      .write [table, column, leaf] c ∈ w ⟨Catalog.system, Catalog.columns, key⟩ → IsPlain column) :
    s'.HasPlainColumns := by
  intro key table column leaf c hc
  rw [hw.partition] at hc
  rcases Partition.live_or_write_of_foldl hc with hc | hm
  · exact h key table column leaf c hc
  · exact hn key table column leaf c hm

end Storage

-- What is shown has been read from what is stored.
theorem Replica.Sound.isPlain_of_shown {r : Replica} {t : Table} {c : Column} (hs : r.Sound)
    (hp : r.storage.HasPlainColumns) (ht : r.schema.table keyspace table = some t)
    (hc : t.columns[column]? = some c) : IsPlain column := by
  obtain ⟨k, hk, ht⟩ := Option.bind_eq_some_iff.mp ht
  obtain ⟨fresh, hr⟩ := hs.inSync.keyspaces keyspace
  rw [Stored.keyspace_of_readable (hs.regular.readable keyspace), hk, Except.ok.injEq] at hr
  obtain ⟨-, htables⟩ := Stored.reading_eq_some hr
  rw [htables] at ht
  obtain ⟨_, -, rfl⟩ := Stored.getElem?_tableMap.mp ht
  obtain ⟨present, -⟩ := Stored.getElem?_columns.mp hc
  obtain ⟨cell, hcell⟩ := (hs.regular.present_iff Catalog.columns_mem_schema rfl).mp present
  exact hp _ table column Row.marker cell hcell

end ClusterMetadata
