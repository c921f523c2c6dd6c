import ClusterMetadata.Proofs.Except
import ClusterMetadata.Proofs.SortedMap
import ClusterMetadata.Schema.Definition

/-!
Definitions whose maps are keyed by the names inside. Accepted definitions of this kind are
consistent (`Keyspace.consistent_of_validate`), and so are those made from them by adding, replacing
and removing tables.
-/

namespace ClusterMetadata

theorem checkName_eq_ok_iff {what name : String} : checkName what name = .ok () ↔
    name ≠ "" ∧ name.toList.all isNameChar ∧ name.utf8ByteSize ≤ maxNameLength := by
  simp [checkName, isName, and_assoc]

namespace Table

variable {t : Table} {c c' : Column} {key keyspace name : String} {id : Uuid}

-- Columns are kept under their names.
def Keyed (t : Table) : Prop :=
  ∀ (key : String) (c : Column), t.columns[key]? = some c → c.name = key

theorem validate_eq_ok_iff : t.validate = .ok () ↔
    checkName "keyspace" t.keyspace = .ok () ∧ checkName "table" t.name = .ok () ∧
      ∀ (key : String) (c : Column), t.columns[key]? = some c → t.checkColumn c = .ok () := by
  rw [validate, seq_eq_ok_iff, seq_eq_ok_iff, forM_eq_ok_iff]
  simp only [SortedMap.mem_values, forall_exists_index]
  exact and_congr_right fun _ => and_congr_right fun _ => forall_comm

theorem getElem?_columns_withColumn (h : (t.withColumn c).columns[key]? = some c') :
    key = c.name ∧ c' = c ∨ t.columns[key]? = some c' := by
  rw [withColumn, Std.ExtTreeMap.getElem?_insert] at h
  split at h
  case isTrue he => exact .inl ⟨(Std.LawfulEqOrd.eq_of_compare he).symm, (Option.some.inj h).symm⟩
  case isFalse   => exact .inr h

theorem keyed_new : (new keyspace name id).Keyed := by
  simp [Keyed, new]

theorem Keyed.withColumn (ht : t.Keyed) (c : Column) : (t.withColumn c).Keyed := by
  intro key c' hc'
  cases getElem?_columns_withColumn hc'
  case inl he => exact he.left ▸ he.right ▸ rfl
  case inr h  => exact ht key c' h

theorem Keyed.withComment (ht : t.Keyed) {comment : String} : (t.withComment comment).Keyed :=
  ht

theorem mem_droppedColumns {old new : Table} {name : String} :
    name ∈ old.droppedColumns new ↔
      (∃ c, old.columns[name]? = some c) ∧ new.columns[name]? = none := by
  simp only [droppedColumns, List.mem_filter, SortedMap.mem_keys_iff, Bool.not_eq_true',
    Std.ExtTreeMap.contains_eq_isSome_getElem?, Option.isSome_eq_false_iff,
    Option.isNone_iff_eq_none]

theorem mem_droppedColumns_iff_mem {old new : Table} {name : String} :
    name ∈ old.droppedColumns new ↔ name ∈ old.columns ∧ name ∉ new.columns := by
  simp only [droppedColumns, List.mem_filter, Std.ExtTreeMap.mem_keys, Bool.not_eq_true',
    ← Std.ExtTreeMap.contains_iff_mem, Bool.not_eq_true]

theorem nodup_droppedColumns (old new : Table) : (old.droppedColumns new).Nodup :=
  Std.ExtTreeMap.nodup_keys.filter _

-- The columns of the partition key must be named alike and nothing more.
theorem checkReplacement_eq_ok_iff {old new : Table} : old.checkReplacement new = .ok () ↔
    new.keyspace = old.keyspace ∧ new.name = old.name ∧ new.id = old.id ∧
      new.partitionKey = old.partitionKey := by
  rw [checkReplacement]
  split
  case isTrue hn =>
    exact iff_of_false nofun fun h => hn.elim (· h.left.symm) (· h.right.left.symm)
  case isFalse hn =>
    rw [not_or, not_not, not_not] at hn
    split
    case isTrue hi => exact iff_of_false nofun fun h => hi h.right.right.left.symm
    case isFalse hi =>
      split
      case isTrue hp  => exact iff_of_false nofun fun h => hp h.right.right.right.symm
      case isFalse hp =>
        rw [not_not] at hi hp
        exact iff_of_true rfl ⟨hn.left.symm, hn.right.symm, hi.symm, hp.symm⟩

theorem validate_new : (new keyspace name id).validate = .ok () ↔
    checkName "keyspace" keyspace = .ok () ∧ checkName "table" name = .ok () := by
  simp [validate_eq_ok_iff, new]

theorem validate_withColumn (ht : t.validate = .ok ()) (hc : t.checkColumn c = .ok ()) :
    (t.withColumn c).validate = .ok () := by
  have ht := validate_eq_ok_iff.mp ht
  refine validate_eq_ok_iff.mpr ⟨ht.left, ht.right.left, fun key c' hc' => ?_⟩
  cases getElem?_columns_withColumn hc'
  case inl he => exact he.right ▸ hc
  case inr h  => exact ht.right.right key c' h

end Table

namespace Keyspace

variable {k : Keyspace} {t t' : Table} {key name strategyClass : String}
  {options : SortedMap String String} {durableWrites : Bool}

def withTables (k : Keyspace) (tables : SortedMap String Table) : Keyspace :=
  { k with tables }

def withoutTable (k : Keyspace) (name : String) : Keyspace :=
  k.withTables (k.tables.erase name)

-- Tables and columns are kept under their names.
def Keyed (k : Keyspace) : Prop :=
  ∀ (key : String) (t : Table), k.tables[key]? = some t → t.name = key ∧ t.Keyed

-- Tables are kept under their names, and they name the keyspace.
structure Consistent (k : Keyspace) : Prop where
  name_eq     : ∀ (key : String) (t : Table), k.tables[key]? = some t → t.name = key
  keyspace_eq : ∀ (key : String) (t : Table), k.tables[key]? = some t → t.keyspace = k.name
  keyed       : ∀ (key : String) (t : Table), k.tables[key]? = some t → t.Keyed

theorem checkTable_eq_ok_iff :
    k.checkTable t = .ok () ↔ t.keyspace = k.name ∧ t.validate = .ok () := by
  simp only [checkTable, check_eq_ok_iff, ne_eq, not_not]

theorem validate_eq_ok_iff : k.validate = .ok () ↔
    checkName "keyspace" k.name = .ok () ∧ k.strategyClass.isEmpty = false ∧
      ∀ (key : String) (t : Table), k.tables[key]? = some t →
        t.keyspace = k.name ∧ t.validate = .ok () := by
  simp only [validate, seq_eq_ok_iff, check_eq_ok_iff, forM_eq_ok_iff, Bool.not_eq_true,
    SortedMap.mem_values, forall_exists_index, checkTable_eq_ok_iff]
  exact and_congr_right fun _ => and_congr_right fun _ => forall_comm

theorem consistent_of_validate (hv : k.validate = .ok ()) (hk : k.Keyed) : k.Consistent where
  name_eq key t ht     := (hk key t ht).left
  keyspace_eq key t ht := ((validate_eq_ok_iff.mp hv).right.right key t ht).left
  keyed key t ht       := (hk key t ht).right

theorem getElem?_tables_withoutTable :
    (k.withoutTable name).tables[key]? = some t ↔ k.tables[key]? = some t ∧ key ≠ name := by
  simp only [withoutTable, withTables, Std.ExtTreeMap.getElem?_erase,
    Std.LawfulEqOrd.compare_eq_iff_eq]
  grind

theorem getElem?_tables_withTable : (k.withTable t).tables[key]? = some t' ↔
    key = t.name ∧ t' = t ∨ (k.withoutTable t.name).tables[key]? = some t' := by
  simp only [getElem?_tables_withoutTable, withTable, Std.ExtTreeMap.getElem?_insert,
    Std.LawfulEqOrd.compare_eq_iff_eq]
  grind

theorem keyed_new : (new name strategyClass options durableWrites).Keyed := by
  simp [Keyed, new]

theorem Keyed.withTable (hk : k.Keyed) (ht : t.Keyed) : (k.withTable t).Keyed := by
  intro key t' ht'
  cases getElem?_tables_withTable.mp ht'
  case inl he =>
    obtain ⟨rfl, rfl⟩ := he
    exact ⟨rfl, ht⟩
  case inr h => exact hk key t' (getElem?_tables_withoutTable.mp h).left

theorem validate_new : (new name strategyClass options durableWrites).validate = .ok () ↔
    checkName "keyspace" name = .ok () ∧ strategyClass.isEmpty = false := by
  simp [validate_eq_ok_iff, new]

theorem validate_withTable (hk : k.validate = .ok ()) (ht : t.validate = .ok ())
    (hn : t.keyspace = k.name) : (k.withTable t).validate = .ok () := by
  have hk := validate_eq_ok_iff.mp hk
  refine validate_eq_ok_iff.mpr ⟨hk.left, hk.right.left, fun key t' ht' => ?_⟩
  cases getElem?_tables_withTable.mp ht'
  case inl he =>
    obtain ⟨rfl, rfl⟩ := he
    exact ⟨hn, ht⟩
  case inr h => exact hk.right.right key t' (getElem?_tables_withoutTable.mp h).left

namespace Consistent

theorem withTables {old : Keyspace} (ho : old.Consistent) (hn : old.name = k.name) :
    (k.withTables old.tables).Consistent :=
  ⟨ho.name_eq, fun key t ht => (ho.keyspace_eq key t ht).trans hn, ho.keyed⟩

theorem withoutTable (hk : k.Consistent) (name : String) : (k.withoutTable name).Consistent where
  name_eq key t ht     := hk.name_eq key t (getElem?_tables_withoutTable.mp ht).left
  keyspace_eq key t ht := hk.keyspace_eq key t (getElem?_tables_withoutTable.mp ht).left
  keyed key t ht       := hk.keyed key t (getElem?_tables_withoutTable.mp ht).left

theorem withTable (hk : k.Consistent) (ht : t.Keyed) (hn : t.keyspace = k.name) :
    (k.withTable t).Consistent := by
  have hw := hk.withoutTable t.name
  constructor
  all_goals
    intro key t' ht'
    cases getElem?_tables_withTable.mp ht'
  case name_eq.inl he     => exact he.left ▸ he.right ▸ rfl
  case keyspace_eq.inl he => exact he.right ▸ hn
  case keyed.inl he       => exact he.right ▸ ht
  case name_eq.inr h      => exact hw.name_eq key t' h
  case keyspace_eq.inr h  => exact hw.keyspace_eq key t' h
  case keyed.inr h        => exact hw.keyed key t' h

end Consistent
end Keyspace
end ClusterMetadata
