import ClusterMetadata.Proofs.Schema.Change
import ClusterMetadata.Proofs.Schema.Reading

/-!
Statements that define keyspaces and tables. Abstractly a statement changes a plain map of
definitions; it is announced as a mutation, and the rows that the mutation writes and removes are
those by which the maps before and after differ (`Statement.exists_carries`).
-/

namespace ClusterMetadata

abbrev Definitions := SortedMap String Keyspace

inductive Statement where
  | createKeyspace (k : Keyspace)
  | alterKeyspace (k : Keyspace)
  | dropKeyspace (name : String)
  | createTable (t : Table)
  | alterTable (t : Table)
  | dropTable (keyspace name : String)

namespace Statement

-- The definitions after the statement.
def effect (ds : Definitions) : Statement → Definitions
  | createKeyspace k        => ds.insert k.name k
  | alterKeyspace k         => ds.alter k.name (·.map fun old => k.withTables old.tables)
  | dropKeyspace name       => ds.erase name
  | createTable t           => ds.alter t.keyspace (·.map (·.withTable t))
  | alterTable t            => ds.alter t.keyspace (·.map (·.withTable t))
  | dropTable keyspace name => ds.alter keyspace (·.map (·.withoutTable name))

-- The announcement of the statement, provided that what it creates is absent and what it alters or
-- drops is present.
def change? (ds : Definitions) (d : DeletionTime) : Statement → Option SchemaChange
  | createKeyspace k =>
    if ds.contains k.name then none else some (.keyspaceCreation k d.markedAt)
  | alterKeyspace k =>
    if ds.contains k.name then some (.keyspaceAlteration k d.markedAt) else none
  | dropKeyspace name => do
    let k ← ds[name]?
    return .keyspaceRemoval k d
  | createTable t => do
    let k ← ds[t.keyspace]?
    if k.tables.contains t.name then none else some (.tableCreation t d.markedAt)
  | alterTable t => do
    let k ← ds[t.keyspace]?
    let old ← k.tables[t.name]?
    return .tableAlteration old t d
  | dropTable keyspace name => do
    let k ← ds[keyspace]?
    let t ← k.tables[name]?
    return .tableRemoval t d

-- The definition that the statement brings is accepted and keyed by names.
def IsValid : Statement → Prop
  | createKeyspace k => k.validate = .ok () ∧ k.Keyed
  | alterKeyspace k  => k.validate = .ok () ∧ k.Keyed
  | createTable t    => t.validate = .ok () ∧ t.Keyed
  | alterTable t     => t.validate = .ok () ∧ t.Keyed
  | _                => True

end Statement

-- The rows of a table lie under its name.
theorem Table.HasRow.singleton_prefix_iff {t : Table} {path : CellName} {name : String}
    {cells : List (String × Bytes)} (hr : t.HasRow path cells) :
    [name] <+: path ↔ name = t.name := by
  cases hr <;> simp

-- An altered table keeps its rows from the deletions that go with it.
theorem Table.Keyed.not_prefix_of_dropped {old new : Table} {path path' : CellName}
    {cells : List (String × Bytes)} (hn : new.Keyed) (hr : new.HasRow path cells)
    (hc : path' ∈ (old.droppedColumns new).map fun c => [old.name, c]) : ¬path' <+: path := by
  obtain ⟨name, hm, rfl⟩ := List.mem_map.mp hc
  cases hr
  case table => simp
  case column key c hc =>
    intro hp
    simp only [List.cons_prefix_cons, List.nil_prefix, and_true] at hp
    have hnone := (mem_droppedColumns.mp hm).right
    rw [hp.right, hn key c hc, hc] at hnone
    cases hnone

namespace Keyspace

variable {k : Keyspace} {t : Table} {name : String} {path : CellName}
  {cells : List (String × Bytes)}

theorem hasRow_withTables_iff {tables : SortedMap String Table} :
    (k.withTables tables).HasRow path cells ↔
      path = [] ∧ cells = k.cells ∨
        ∃ (key : String) (t : Table), tables[key]? = some t ∧ t.HasRow path cells := by
  constructor
  case mp =>
    intro hr
    cases hr
    case keyspace    => exact .inl ⟨rfl, rfl⟩
    case table ht hr => exact .inr ⟨_, _, ht, hr⟩
  case mpr =>
    rintro (⟨rfl, rfl⟩ | ⟨key, t, ht, hr⟩)
    case inl => exact .keyspace
    case inr => exact .table ht hr

theorem hasRow_withTable_iff : (k.withTable t).HasRow path cells ↔
    t.HasRow path cells ∨ (k.withoutTable t.name).HasRow path cells := by
  constructor
  case mp =>
    intro hr
    cases hr
    case keyspace => exact .inr .keyspace
    case table key t' ht hr =>
      cases getElem?_tables_withTable.mp ht
      case inl he => exact .inl (he.right ▸ hr)
      case inr h  => exact .inr (.table h hr)
  case mpr =>
    rintro (hr | hr)
    case inl => exact .table (getElem?_tables_withTable.mpr (.inl ⟨rfl, rfl⟩)) hr
    case inr =>
      cases hr
      case keyspace    => exact .keyspace
      case table ht hr => exact .table (getElem?_tables_withTable.mpr (.inr ht)) hr

theorem Consistent.hasRow_withoutTable_iff (hk : k.Consistent) :
    (k.withoutTable name).HasRow path cells ↔ k.HasRow path cells ∧ ¬[name] <+: path := by
  constructor
  case mp =>
    intro hr
    cases hr
    case keyspace => exact ⟨.keyspace, by simp⟩
    case table key t ht hr =>
      have ⟨ht, hn⟩ := getElem?_tables_withoutTable.mp ht
      rw [hr.singleton_prefix_iff, hk.name_eq key t ht]
      exact ⟨.table ht hr, Ne.symm hn⟩
  case mpr =>
    rintro ⟨⟨⟩, hp⟩
    case keyspace => exact .keyspace
    case table key t ht hr =>
      rw [hr.singleton_prefix_iff, hk.name_eq key t ht] at hp
      exact .table (getElem?_tables_withoutTable.mpr ⟨ht, Ne.symm hp⟩) hr

theorem Consistent.not_hasRow_of_absent (hk : k.Consistent) (hn : k.tables[name]? = none)
    (hr : k.HasRow path cells) : ¬[name] <+: path := by
  cases hr
  case keyspace => simp
  case table key t ht hr =>
    rw [hr.singleton_prefix_iff, hk.name_eq key t ht]
    rintro rfl
    exact absurd (hn.symm.trans ht) (by simp)

-- Without the rows of a table the rest stays, whether they are replaced or dropped.
theorem Consistent.hasRow_rewrite_iff {old : Table} (hk : k.Consistent)
    (ho : k.tables[t.name]? = some old) (ht : t.Keyed) : Rows.rewrite k.HasRow t.HasRow
      (· ∈ (old.droppedColumns t).map fun c => [old.name, c]) path cells ↔
        (k.withTable t).HasRow path cells := by
  have hn : old.name = t.name := hk.name_eq _ _ ho
  rw [hasRow_withTable_iff, hk.hasRow_withoutTable_iff]
  refine or_congr_right (and_congr_right fun hr => ?_)
  constructor
  case mp =>
    rintro ⟨hw, hc⟩ hp
    cases hr
    case keyspace => simp at hp
    case table key t' ht' hr =>
      rw [hr.singleton_prefix_iff] at hp
      obtain rfl : t' = old := by
        rw [← hk.name_eq key t' ht', ← hp, ho] at ht'
        exact (Option.some.inj ht').symm
      cases hr
      case table => exact hw t.cells (hn ▸ .table)
      case column key c hc' =>
        obtain rfl := hk.keyed _ _ ho key c hc'
        cases hcol : t.columns[c.name]?
        case none =>
          have hd := Table.mem_droppedColumns.mpr ⟨⟨c, hc'⟩, hcol⟩
          exact hc _ (List.mem_map_of_mem hd) List.prefix_rfl
        case some c' =>
          have hr : t.HasRow [t.name, c'.name] c'.cells := .column hcol
          rw [ht _ _ hcol, ← hn] at hr
          exact hw _ hr
  case mpr =>
    intro hp
    refine ⟨fun cells' hr' => hp (hr'.singleton_prefix_iff.mpr rfl), fun path' hm hp' => hp ?_⟩
    obtain ⟨c, -, rfl⟩ := List.mem_map.mp hm
    exact (show [t.name] <+: [old.name, c] by simp [hn]).trans hp'

end Keyspace

namespace Definitions

-- The rows of a keyspace among the definitions.
def rows (ds : Definitions) (name : String) : Rows := fun path cells =>
  ∃ k, ds[name]? = some k ∧ k.HasRow path cells

def Consistent (ds : Definitions) : Prop :=
  ∀ (name : String) (k : Keyspace), ds[name]? = some k → k.name = name ∧ k.Consistent

variable {ds : Definitions} {name : String} {k : Keyspace}

theorem rows_of_some (hk : ds[name]? = some k) : ds.rows name = k.HasRow := by
  funext path cells
  simp [rows, hk]

theorem rows_of_none (hk : ds[name]? = none) : ds.rows name = fun _ _ => False := by
  funext path cells
  simp [rows, hk]

theorem Consistent.isShaped (hd : ds.Consistent) (name : String) : (ds.rows name).IsShaped := by
  cases hk : ds[name]?
  case none   => rw [rows_of_none hk]; constructor <;> simp
  case some k => exact rows_of_some hk ▸ (hd name k hk).right.isShaped

theorem consistent_empty : Consistent ∅ := by
  simp [Consistent]

theorem Consistent.insert (hd : ds.Consistent) (hk : k.Consistent) :
    Consistent (ds.insert k.name k) := by
  intro name k' hk'
  rw [Std.ExtTreeMap.getElem?_insert] at hk'
  split at hk'
  case isTrue he =>
    cases hk'
    exact ⟨Std.LawfulEqOrd.eq_of_compare he, hk⟩
  case isFalse => exact hd name k' hk'

theorem Consistent.erase (hd : ds.Consistent) (name : String) : Consistent (ds.erase name) := by
  intro name' k' hk'
  rw [Std.ExtTreeMap.getElem?_erase] at hk'
  split at hk'
  case isTrue  => cases hk'
  case isFalse => exact hd name' k' hk'

theorem Consistent.alter (hd : ds.Consistent) (name : String) {f : Keyspace → Keyspace}
    (hf : ∀ k, k.name = name → k.Consistent → (f k).name = name ∧ (f k).Consistent) :
    Consistent (ds.alter name (·.map f)) := by
  intro name' k' hk'
  rw [Std.ExtTreeMap.getElem?_alter] at hk'
  split at hk'
  case isTrue he =>
    obtain rfl := Std.LawfulEqOrd.eq_of_compare he
    obtain ⟨k, hk, rfl⟩ := Option.map_eq_some_iff.mp hk'
    have ⟨hn, hc⟩ := hd name k hk
    exact hf k hn hc
  case isFalse => exact hd name' k' hk'

end Definitions

-- How a mutation brings one keyspace from the old definitions to the new ones.
structure Carries (m : Mutation) (t : Int64) (ds ds' : Definitions) (name : String) (puts : Rows)
    (clears : CellName → Prop) : Prop where
  rewrites  : Rewrites m.on (Utf8.encode name) t puts clears
  shaped    : puts.IsShaped
  disjoint  : ∀ path cells path', puts path cells → clears path' → ¬path' <+: path
  rows_iff  : ∀ path cells, ds'.rows name path cells ↔ (ds.rows name).rewrite puts clears path cells
  unchanged : ∀ name' ≠ name, ds'[name']? = ds[name']?

namespace Carries

variable {m : Mutation} {t : Int64} {ds : Definitions} {name : String} {k : Keyspace} {puts : Rows}
  {clears : CellName → Prop}

-- A change within a keyspace that stays.
theorem alter {f : Keyspace → Keyspace} (hk : ds[name]? = some k)
    (hw : Rewrites m.on (Utf8.encode name) t puts clears) (hs : puts.IsShaped)
    (hd : ∀ path cells path', puts path cells → clears path' → ¬path' <+: path)
    (hr : ∀ path cells, (f k).HasRow path cells ↔ Rows.rewrite k.HasRow puts clears path cells) :
    Carries m t ds (ds.alter name (·.map f)) name puts clears where
  rewrites  := hw
  shaped    := hs
  disjoint  := hd
  rows_iff path cells := by
    have hk' : (ds.alter name (·.map f))[name]? = some (f k) := by simp [hk]
    rw [Definitions.rows_of_some hk', Definitions.rows_of_some hk, hr]
  unchanged name' hn := by simp [Std.ExtTreeMap.getElem?_alter, hn.symm]

theorem keyspaceCreation {d : Int64} (hk : ds[k.name]? = none) (hc : k.Consistent) :
    Carries (k.creation d) d ds (ds.insert k.name k) k.name k.HasRow fun _ => False where
  rewrites          := k.rewrites_creation
  shaped            := hc.isShaped
  disjoint          := by simp
  rows_iff path cells := by
    have hk' : (ds.insert k.name k)[k.name]? = some k := by simp
    rw [Definitions.rows_of_none hk, Definitions.rows_of_some hk']
    simp [Rows.rewrite]
  unchanged name' hn := by simp [Std.ExtTreeMap.getElem?_insert, hn.symm]

theorem keyspaceAlteration {d : Int64} {old : Keyspace} (hk : ds[k.name]? = some old) :
    Carries (k.alteration d) d ds (ds.alter k.name (·.map fun old => k.withTables old.tables))
      k.name (fun path cells => path = [] ∧ cells = k.cells) fun _ => False := by
  refine alter hk k.rewrites_alteration k.isShaped_cells (by simp) fun path cells => ?_
  rw [Keyspace.hasRow_withTables_iff, Rows.rewrite]
  refine or_congr_right ?_
  constructor
  case mp =>
    rintro ⟨key, t, ht, hr⟩
    refine ⟨.table ht hr, ?_, by simp⟩
    rintro cells' ⟨rfl, -⟩
    cases hr
  case mpr =>
    rintro ⟨⟨⟩, hn, -⟩
    case keyspace    => exact absurd ⟨rfl, rfl⟩ (hn k.cells)
    case table ht hr => exact ⟨_, _, ht, hr⟩

theorem keyspaceRemoval {d : DeletionTime} (hn : k.name = name) :
    Carries (k.removal d) d.markedAt ds (ds.erase name) name (fun _ _ => False) (· ∈ [[]]) where
  rewrites           := hn ▸ k.rewrites_removal
  shaped             := by constructor <;> simp
  disjoint           := by simp
  rows_iff path cells := by
    rw [Definitions.rows_of_none (by simp)]
    simp [Rows.rewrite]
  unchanged name' hn := by simp [Std.ExtTreeMap.getElem?_erase, hn.symm]

theorem tableCreation {d : Int64} {t : Table} (hk : ds[t.keyspace]? = some k) (hc : k.Consistent)
    (ht : k.tables[t.name]? = none) (htk : t.Keyed) :
    Carries (t.creation d) d ds (ds.alter t.keyspace (·.map (·.withTable t))) t.keyspace t.HasRow
      fun _ => False := by
  refine alter hk t.rewrites_creation htk.isShaped (by simp) fun path cells => ?_
  rw [Keyspace.hasRow_withTable_iff, hc.hasRow_withoutTable_iff, Rows.rewrite]
  refine or_congr_right (and_congr_right fun hr => ?_)
  have hp := hc.not_hasRow_of_absent ht hr
  refine iff_of_true hp ⟨fun cells' hr' => hp (hr'.singleton_prefix_iff.mpr rfl), by simp⟩

theorem tableAlteration {d : DeletionTime} {t old : Table} (hk : ds[t.keyspace]? = some k)
    (hc : k.Consistent) (ho : k.tables[t.name]? = some old) (ht : t.Keyed) :
    Carries (old.alteration t d) d.markedAt ds (ds.alter t.keyspace (·.map (·.withTable t)))
      t.keyspace t.HasRow (· ∈ (old.droppedColumns t).map fun c => [old.name, c]) :=
  alter hk Table.rewrites_alteration ht.isShaped (fun _ _ _ => ht.not_prefix_of_dropped)
    fun _ _ => (hc.hasRow_rewrite_iff ho ht).symm

theorem tableRemoval {d : DeletionTime} {t : Table} (hk : ds[t.keyspace]? = some k)
    (hc : k.Consistent) :
    Carries (t.removal d) d.markedAt ds (ds.alter t.keyspace (·.map (·.withoutTable t.name)))
      t.keyspace (fun _ _ => False) (· ∈ [[t.name]]) := by
  refine alter hk t.rewrites_removal (by constructor <;> simp) (by simp) fun path cells => ?_
  rw [hc.hasRow_withoutTable_iff]
  simp [Rows.rewrite]

end Carries

namespace Statement

variable {s : Statement} {ds : Definitions} {d : DeletionTime} {c : SchemaChange}

theorem effect_consistent (hd : ds.Consistent) (hv : s.IsValid) : (s.effect ds).Consistent := by
  cases s
  case createKeyspace k => exact hd.insert (k.consistent_of_validate hv.left hv.right)
  case alterKeyspace k  => exact hd.alter k.name fun old hn hc => ⟨rfl, hc.withTables hn⟩
  case dropKeyspace     => exact hd.erase _
  case createTable t | alterTable t =>
    exact hd.alter t.keyspace fun k hn hc => ⟨hn, hc.withTable hv.right hn.symm⟩
  case dropTable        => exact hd.alter _ fun k hn hc => ⟨hn, hc.withoutTable _⟩

theorem exists_carries (hd : ds.Consistent) (hv : s.IsValid) (hc : s.change? ds d = some c) :
    ∃ name puts clears, Carries c.mutation d.markedAt ds (s.effect ds) name puts clears := by
  cases s
  case createKeyspace k =>
    simp only [change?, Option.ite_none_left_eq_some, Option.some.injEq] at hc
    obtain ⟨hn, rfl⟩ := hc
    have hk := k.consistent_of_validate hv.left hv.right
    exact ⟨_, _, _, .keyspaceCreation (by simpa using hn) hk⟩
  case alterKeyspace k =>
    simp only [change?, Option.ite_none_right_eq_some, Option.some.injEq] at hc
    obtain ⟨hk, rfl⟩ := hc
    rw [Std.ExtTreeMap.contains_eq_isSome_getElem?] at hk
    have ⟨old, hk⟩ := Option.isSome_iff_exists.mp hk
    exact ⟨_, _, _, .keyspaceAlteration hk⟩
  case dropKeyspace name =>
    obtain ⟨k, hk, ⟨⟩⟩ := Option.bind_eq_some_iff.mp hc
    exact ⟨_, _, _, .keyspaceRemoval (hd name k hk).left⟩
  case createTable t =>
    have ⟨k, hk, hc⟩ := Option.bind_eq_some_iff.mp hc
    simp only [Option.ite_none_left_eq_some, Option.some.injEq] at hc
    obtain ⟨hn, rfl⟩ := hc
    exact ⟨_, _, _, .tableCreation hk (hd _ k hk).right (by simpa using hn) hv.right⟩
  case alterTable t =>
    have ⟨k, hk, hc⟩ := Option.bind_eq_some_iff.mp hc
    obtain ⟨old, ho, ⟨⟩⟩ := Option.bind_eq_some_iff.mp hc
    exact ⟨_, _, _, .tableAlteration hk (hd _ k hk).right ho hv.right⟩
  case dropTable keyspace name =>
    have ⟨k, hk, hc⟩ := Option.bind_eq_some_iff.mp hc
    obtain ⟨t, ht, ⟨⟩⟩ := Option.bind_eq_some_iff.mp hc
    have hk' := (hd _ k hk).right
    obtain rfl := hk'.name_eq name t ht
    obtain rfl : t.keyspace = keyspace := (hk'.keyspace_eq _ t ht).trans (hd _ k hk).left
    exact ⟨_, _, _, .tableRemoval hk hk'⟩

end Statement
end ClusterMetadata
