import ClusterMetadata.Proofs.Schema.Announcement

/-!
A storage that holds the rows of a keyspace, and nothing else under its name, reads as the keyspace
(`reading_of_defines`).
-/

namespace ClusterMetadata

namespace Table

variable {t : Table} {family name : String} {path : CellName} {cells cells' : List (String × Bytes)}

theorem Keyed.hasRow_column_iff (ht : t.Keyed) {keyspace : String} :
    t.HasRow [keyspace, name] cells ↔
      keyspace = t.name ∧ ∃ c, t.columns[name]? = some c ∧ cells = c.cells := by
  constructor
  case mp  => rintro ⟨⟩; case column key c hc => exact ⟨rfl, c, ht key c hc ▸ hc, rfl⟩
  case mpr =>
    rintro ⟨rfl, c, hc, rfl⟩
    have hr : t.HasRow [t.name, c.name] c.cells := .column hc
    exact ht name c hc ▸ hr

theorem Keyed.hasRow_unique (ht : t.Keyed) (hr : t.HasRow path cells) (hr' : t.HasRow path cells') :
    cells = cells' := by
  cases hr
  case table => cases hr'; rfl
  case column key c hc =>
    obtain ⟨-, c', hc', rfl⟩ := ht.hasRow_column_iff.mp hr'
    rw [ht key c hc, hc] at hc'
    cases hc'
    rfl

theorem Keyed.isShaped (ht : t.Keyed) : Rows.IsShaped t.HasRow :=
  ⟨fun _ _ _ => ht.hasRow_unique, t.isWhole.leaves⟩

end Table

theorem Keyspace.isShaped_cells (k : Keyspace) :
    Rows.IsShaped fun path cells => path = [] ∧ cells = k.cells where
  unique := by
    rintro path cells cells' ⟨-, rfl⟩ ⟨-, rfl⟩
    rfl
  leaves := k.isWhole_cells.leaves

namespace Keyspace.Consistent

variable {k : Keyspace} {family name : String} {path : CellName}
  {cells cells' : List (String × Bytes)}

theorem hasRow_table_iff (hk : k.Consistent) :
    k.HasRow [name] cells ↔ ∃ t, k.tables[name]? = some t ∧ cells = t.cells := by
  constructor
  case mp =>
    rintro ⟨⟩
    case table key t ht hr =>
      cases hr
      exact ⟨t, hk.name_eq key t ht ▸ ht, rfl⟩
  case mpr =>
    rintro ⟨t, ht, rfl⟩
    have hr : t.HasRow [t.name] t.cells := .table
    exact .table ht (hk.name_eq name t ht ▸ hr)

theorem hasRow_column_iff (hk : k.Consistent) {t : String} : k.HasRow [t, name] cells ↔
    ∃ d c, k.tables[t]? = some d ∧ d.columns[name]? = some c ∧ cells = c.cells := by
  constructor
  case mp =>
    rintro ⟨⟩
    case table key d hd hr =>
      obtain ⟨rfl, c, hc, rfl⟩ := (hk.keyed key d hd).hasRow_column_iff.mp hr
      exact ⟨d, c, hk.name_eq key d hd ▸ hd, hc, rfl⟩
  case mpr =>
    rintro ⟨d, c, hd, hc, rfl⟩
    exact .table hd ((hk.keyed t d hd).hasRow_column_iff.mpr ⟨(hk.name_eq t d hd).symm, c, hc, rfl⟩)

theorem isShaped (hk : k.Consistent) : Rows.IsShaped k.HasRow where
  unique path cells cells' hr hr' := by
    cases hr
    case keyspace => cases hr' with | keyspace => rfl | table _ hr' => cases hr'
    case table key t ht hr =>
      obtain rfl := hk.name_eq key t ht
      cases hr
      case table =>
        obtain ⟨t', ht', rfl⟩ := hk.hasRow_table_iff.mp hr'
        cases ht.symm.trans ht'
        rfl
      case column key c hc =>
        obtain rfl := hk.keyed _ t ht key c hc
        obtain ⟨t', c', ht', hc', rfl⟩ := hk.hasRow_column_iff.mp hr'
        cases ht.symm.trans ht'
        cases hc.symm.trans hc'
        rfl
  leaves := k.isWhole.leaves

-- Of a consistent keyspace the rows under the name of a table are those of the table.
theorem hasRow_under_iff {t : Table} (hk : k.Consistent) (ht : k.tables[t.name]? = some t)
    (hp : [t.name] <+: path) : k.HasRow path cells ↔ t.HasRow path cells := by
  refine ⟨fun hr => ?_, .table ht⟩
  cases hr
  case keyspace => simp at hp
  case table key t' ht' hr =>
    have hn : t.name = key := by
      cases hr <;> simpa [hk.name_eq key t' ht'] using hp
    cases ht.symm.trans (hn ▸ ht')
    exact hr

end Keyspace.Consistent

namespace Stored

variable {s : Storage} {rows : Rows} {family name leaf : String} {area path : CellName}
  {cells : List (String × Bytes)} {v : Bytes} {fresh : Nat → Uuid}

section

variable (hs : (s.partition ⟨Catalog.system, family, Utf8.encode name⟩).HoldsUnder family area rows)

include hs

theorem exists_mem_cells_iff {n : CellName} (ha : area <+: n) :
    (∃ t, ⟨⟨v, t⟩, n⟩ ∈ Stored.cells s family name) ↔ rows.Has family n v := by
  simp only [mem_cells]
  exact hs n v ha

theorem has_of_mem_cells {c : Cell} (hc : c ∈ Stored.cells s family name) (ha : area <+: c.name) :
    rows.Has family c.name c.value :=
  (exists_mem_cells_iff hs ha).mp ⟨c.timestamp, hc⟩

end

-- Cells of a row are not found under those of another.
theorem eq_child_of_isPrefix {n : CellName} (hh : rows.Has family n v)
    (hl : path.length = Row.depth family) (hp : path.child leaf <+: n) : n = path.child leaf := by
  obtain ⟨path', _, leaf', _, hl', _, rfl⟩ := hh
  refine (hp.eq_of_length ?_).symm
  simp [CellName.child, hl, hl']

section

variable (hs : (s.partition ⟨Catalog.system, family, Utf8.encode name⟩).HoldsUnder family area rows)
  (hf : family ∈ Catalog.schema) (hr : rows.IsShaped) (hl : path.length = Row.depth family)

include hs hf hr hl

theorem value?_of_holds (ha : area <+: path.child leaf) (hrow : rows path cells)
    (hv : (leaf, v) ∈ cells) : value? (Stored.cells s family name) (path.child leaf) = some v := by
  have hh : rows.Has family (path.child leaf) v := ⟨path, cells, leaf, hrow, hl, hv, rfl⟩
  have ⟨t, hc⟩ := (exists_mem_cells_iff hs ha).mpr hh
  refine value?_eq_some hc List.prefix_rfl fun c hc hp => ?_
  have hh' := has_of_mem_cells hs hc (ha.trans hp)
  exact hr.value_eq hf (eq_child_of_isPrefix hh' hl hp ▸ hh') hh

theorem present_of_holds (ha : area <+: path.child Row.marker) :
    present (Stored.cells s family name) path = true ↔ ∃ cells, rows path cells := by
  rw [present_iff]
  constructor
  case mp =>
    rintro ⟨c, hc, hp⟩
    have hh := has_of_mem_cells hs hc (ha.trans hp)
    obtain ⟨path', cells, _, hrow, -, -, he⟩ := eq_child_of_isPrefix hh hl hp ▸ hh
    obtain ⟨rfl, -⟩ := CellName.child_inj.mp he
    exact ⟨cells, hrow⟩
  case mpr =>
    rintro ⟨cells, hrow⟩
    have ⟨v, hh⟩ := hr.exists_marker hf hrow hl
    have ⟨t, hc⟩ := (exists_mem_cells_iff hs ha).mpr hh
    exact ⟨_, hc, List.prefix_rfl⟩

end

section

variable {t : Table}
  (hs : ∀ family ∈ [Catalog.tables, Catalog.columns],
    (s.partition ⟨Catalog.system, family, Utf8.encode name⟩).HoldsUnder family [t.name] t.HasRow)
  (ht : t.Keyed)

include hs ht

theorem column_of_holds {c : Column} (hc : t.columns[c.name]? = some c) :
    column (Stored.cells s Catalog.columns name) t.name c.name = c := by
  have hrow : t.HasRow [t.name, c.name] c.cells := .column hc
  have value_eq (leaf v) (hv : (leaf, v) ∈ c.cells) :=
    value?_of_holds (hs Catalog.columns (by simp)) Catalog.columns_mem_schema ht.isShaped rfl
      (by simp [CellName.child]) hrow hv
  have hv := value_eq Row.validator (Utf8.encode c.validator) (by simp [Column.cells])
  have hkind := value_eq Row.kind (Utf8.encode c.kind.toText) (by simp [Column.cells])
  simp only [CellName.child, List.cons_append, List.nil_append] at hv hkind
  simp [column, text, hv, hkind]

theorem columns_of_holds : columns (Stored.cells s Catalog.columns name) t.name = t.columns := by
  refine Std.ExtTreeMap.ext_getElem? fun column' => Option.ext fun c => ?_
  rw [getElem?_columns, present_of_holds (hs Catalog.columns (by simp)) Catalog.columns_mem_schema
    ht.isShaped rfl (by simp [CellName.child])]
  have column_eq {c} (hc : t.columns[column']? = some c) :
      column (Stored.cells s Catalog.columns name) t.name column' = c := by
    obtain rfl := ht column' c hc
    exact column_of_holds hs ht hc
  constructor
  case mp =>
    rintro ⟨⟨cells, hrow⟩, rfl⟩
    obtain ⟨-, c, hc, -⟩ := ht.hasRow_column_iff.mp hrow
    rw [hc, column_eq hc]
  case mpr =>
    intro hc
    exact ⟨⟨_, ht.hasRow_column_iff.mpr ⟨rfl, c, hc, rfl⟩⟩, column_eq hc⟩

theorem table_of_holds (hk : t.keyspace = name) (u : Uuid) :
    table (Stored.cells s Catalog.tables name) (Stored.cells s Catalog.columns name) name t.name u =
      t := by
  have hrow : t.HasRow [t.name] t.cells := .table
  have value_eq (leaf v) (hv : (leaf, v) ∈ t.cells) :=
    value?_of_holds (hs Catalog.tables (by simp)) Catalog.tables_mem_schema ht.isShaped rfl
      (by simp [CellName.child]) hrow hv
  have hid := value_eq Row.id (Utf8.encode t.id.toText) (by simp [Table.cells])
  have hcomment := value_eq Row.comment (Utf8.encode t.comment) (by simp [Table.cells])
  simp only [CellName.child, List.cons_append, List.nil_append] at hid hcomment
  simp only [table, text, hid, hcomment, columns_of_holds hs ht]
  simp [← hk]

theorem getElem?_tableMap_of_holds (hk : t.keyspace = name) :
    (tableMap s name fresh)[t.name]? = some t := by
  have hp : present (Stored.cells s Catalog.tables name) [t.name] = true :=
    (present_of_holds (hs Catalog.tables (by simp)) Catalog.tables_mem_schema ht.isShaped rfl
      (by simp [CellName.child])).mpr ⟨_, .table⟩
  obtain ⟨t', ht'⟩ := exists_getElem?_tableMap.mpr hp
  obtain ⟨i, -, rfl⟩ := getElem?_tableMap.mp ht'
  rw [ht', table_of_holds hs ht hk]

end

-- The attributes of a keyspace and, whatever they are, its tables.
theorem reading_of_holds {k : Keyspace}
    (hs : (s.partition ⟨Catalog.system, Catalog.keyspaces, Utf8.encode k.name⟩).Holds
      Catalog.keyspaces fun path cells => path = [] ∧ cells = k.cells) :
    reading s k.name fresh = some (k.withTables (tableMap s k.name fresh)) := by
  have hs := Partition.holdsUnder_nil.mpr hs
  have value_eq (leaf v) (hv : (leaf, v) ∈ k.cells) :=
    value?_of_holds hs Catalog.keyspaces_mem_schema k.isShaped_cells rfl List.nil_prefix
      ⟨rfl, rfl⟩ hv
  have hd := value_eq Row.durableWrites (Utf8.encode (toString k.durableWrites))
    (by simp [Keyspace.cells])
  have hc := value_eq Row.strategyClass (Utf8.encode k.strategyClass) (by simp [Keyspace.cells])
  have ho := value_eq Row.strategyOptions
    (Utf8.encode (OptionMap.render k.strategyOptions)) (by simp [Keyspace.cells])
  simp only [CellName.child, List.nil_append] at hd hc ho
  have hp := (present_of_holds hs Catalog.keyspaces_mem_schema k.isShaped_cells rfl
    List.nil_prefix).mpr ⟨_, rfl, rfl⟩
  have hb : (Utf8.encode (toString k.durableWrites) == Utf8.encode "true") = k.durableWrites := by
    have hn : Utf8.encode "false" ≠ Utf8.encode "true" := by simp [Utf8.encode_inj]
    cases k.durableWrites
    case true  => exact beq_self_eq_true _
    case false => exact beq_false_of_ne hn
  simp [reading, Keyspace.withTables, hp, hd, hc, ho, hb, text]

section

variable {k : Keyspace} (hs : s.Defines (Utf8.encode k.name) k.HasRow) (hk : k.Consistent)

include hs hk

theorem tableMap_of_defines : tableMap s k.name fresh = k.tables := by
  refine Std.ExtTreeMap.ext_getElem? fun name => Option.ext fun t => ?_
  have shown {t} (ht : k.tables[name]? = some t) : (tableMap s k.name fresh)[name]? = some t := by
    obtain rfl := hk.name_eq name t ht
    refine getElem?_tableMap_of_holds (fun family hf => ?_) (hk.keyed _ t ht)
      (hk.keyspace_eq _ t ht)
    refine (hs family (by grind [Catalog.schema])).under ?_ fun path cells _ =>
      hk.hasRow_under_iff ht
    rcases List.mem_pair.mp hf with rfl | rfl <;> exact Nat.le_of_ble_eq_true rfl
  constructor
  case mp =>
    intro ht
    have hp := exists_getElem?_tableMap.mp ⟨t, ht⟩
    have ht₀ := Partition.holdsUnder_nil.mpr (hs Catalog.tables Catalog.tables_mem_schema)
    obtain ⟨cells, hrow⟩ := (present_of_holds ht₀ Catalog.tables_mem_schema hk.isShaped rfl
      List.nil_prefix).mp hp
    obtain ⟨t', ht', -⟩ := hk.hasRow_table_iff.mp hrow
    rw [ht', ← shown ht', ht]
  case mpr => exact shown

theorem reading_of_defines : reading s k.name fresh = some k := by
  have attributes : (s.partition ⟨Catalog.system, Catalog.keyspaces, Utf8.encode k.name⟩).Holds
      Catalog.keyspaces fun path cells => path = [] ∧ cells = k.cells := by
    refine Partition.holdsUnder_nil.mp ((hs _ Catalog.keyspaces_mem_schema).under (Nat.zero_le _)
      fun path cells hl _ => ?_)
    obtain rfl := List.length_eq_zero_iff.mp hl
    refine ⟨fun hr => ?_, fun ⟨_, hc⟩ => hc ▸ .keyspace⟩
    cases hr
    case keyspace   => exact ⟨rfl, rfl⟩
    case table ht hr => cases hr
  rw [reading_of_holds attributes, tableMap_of_defines hs hk]
  rfl

end

theorem reading_of_defines_nothing (hs : s.Defines (Utf8.encode name) fun _ _ => False) :
    reading s name fresh = none := by
  have hp : ¬present (Stored.cells s Catalog.keyspaces name) [] = true := by
    rw [present_of_holds (Partition.holdsUnder_nil.mpr (hs _ Catalog.keyspaces_mem_schema))
      Catalog.keyspaces_mem_schema (by constructor <;> simp) rfl List.nil_prefix]
    simp
  exact if_neg hp

end Stored
end ClusterMetadata
