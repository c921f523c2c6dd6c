import ClusterMetadata.Proofs.Schema.Storable

/-!
What a table stays through changes. What is shown of it is read from its own cells
(`Replica.Sound.exists_table_eq`), so a change that leaves them leaves the table
(`Replica.Sound.descends_of_eq`), and one that replaces the table leaves its id and the columns of
its partition key (`Replica.Sound.descends_of_update`).
-/

namespace ClusterMetadata

namespace Table

variable {t : Table} {column validator : String}

-- The columns of the partition key, each with its validator.
def keyValidators (t : Table) : Set (String × String) :=
  {p | ∃ (key : String) (c : Column), t.columns[key]? = some c ∧ c.kind = .partitionKey ∧
    p = (c.name, c.validator)}

theorem Keyed.mem_partitionKey (ht : t.Keyed) : column ∈ t.partitionKey ↔
    ∃ c, t.columns[column]? = some c ∧ c.kind = .partitionKey := by
  simp only [partitionKey, List.mem_filterMap, SortedMap.mem_values, Option.ite_none_right_eq_some,
    Option.some.injEq]
  constructor
  case mp =>
    rintro ⟨c, ⟨key, hc⟩, hkind, rfl⟩
    exact ⟨c, ht key c hc ▸ hc, hkind⟩
  case mpr =>
    rintro ⟨c, hc, hkind⟩
    exact ⟨c, ⟨column, hc⟩, hkind, ht column c hc⟩

theorem Keyed.mem_keyValidators (ht : t.Keyed) : (column, validator) ∈ t.keyValidators ↔
    ∃ c, t.columns[column]? = some c ∧ c.kind = .partitionKey ∧ c.validator = validator := by
  constructor
  case mp =>
    rintro ⟨key, c, hc, hkind, he⟩
    obtain ⟨rfl, rfl⟩ := Prod.mk.inj he
    exact ⟨c, ht key c hc ▸ hc, hkind, rfl⟩
  case mpr =>
    rintro ⟨c, hc, hkind, rfl⟩
    exact ⟨column, c, hc, hkind, by rw [ht column c hc]⟩

-- The cells that a table has for itself and for its columns.

theorem value_eq_of_has_id {name : String} {v : Bytes}
    (h : Rows.Has t.HasRow Catalog.tables (CellName.child [name] Row.id) v) :
    v = Utf8.encode t.id.toText := by
  obtain ⟨path, cells, leaf, hrow, -, hv, he⟩ := h
  obtain ⟨rfl, rfl⟩ := CellName.child_inj.mp he
  cases hrow
  simpa [cells, Row.id, Row.marker, Row.comment] using hv

theorem Keyed.exists_of_has_column (ht : t.Keyed) {name leaf : String} {v : Bytes}
    (h : Rows.Has t.HasRow Catalog.columns (CellName.child [name, column] leaf) v) :
    ∃ c, t.columns[column]? = some c ∧ (leaf, v) ∈ c.cells := by
  obtain ⟨path, cells, leaf', hrow, -, hv, he⟩ := h
  obtain ⟨rfl, rfl⟩ := CellName.child_inj.mp he
  obtain ⟨-, c, hc, rfl⟩ := ht.hasRow_column_iff.mp hrow
  exact ⟨c, hc, hv⟩

theorem Keyed.has_column (ht : t.Keyed) {c : Column} (hc : t.columns[column]? = some c)
    {leaf : String} {v : Bytes} (hv : (leaf, v) ∈ c.cells) :
    Rows.Has t.HasRow Catalog.columns (CellName.child [t.name, column] leaf) v :=
  ⟨_, _, leaf, ht.hasRow_column_iff.mpr ⟨rfl, c, hc, rfl⟩, rfl, hv, rfl⟩

end Table

namespace Column

variable {c : Column} {v : Bytes}

theorem mem_cells_kind : (Row.kind, v) ∈ c.cells ↔ v = Utf8.encode c.kind.toText := by
  simp [cells, Row.kind, Row.marker, Row.validator]

theorem mem_cells_validator : (Row.validator, v) ∈ c.cells ↔ v = Utf8.encode c.validator := by
  simp [cells, Row.kind, Row.marker, Row.validator]

end Column

namespace Footprint.Describes

variable {f : Footprint} {batch : List Mutation} {s s' : Storage} {family : String} {n : CellName}
  {c : Stamped} (hd : f.Describes batch) (hs : s.Writes (batchOn batch) s')
  (hfam : family ∈ Catalog.schema)

include hd hs hfam

theorem live_or_puts
    (hc : (s'.partition ⟨Catalog.system, family, Utf8.encode f.keyspace⟩).cells[n]? = some c) :
    (s.partition ⟨Catalog.system, family, Utf8.encode f.keyspace⟩).cells[n]? = some c ∨
      f.puts.Has family n c.value := by
  obtain ⟨m, hm, hon⟩ := hd
  rw [hs.partition, hon family hfam] at hc
  exact (Partition.live_or_write_of_foldl hc).imp_right fun hw =>
    ((hm.write family hfam n c).mp hw).right

theorem exists_live_of_puts (hf : f.IsTidy) (hin : family ∈ f.families) {v : Bytes}
    (hh : f.puts.Has family n v)
    (hc : (s.partition ⟨Catalog.system, family, Utf8.encode f.keyspace⟩).cells[n]? = some c) :
    ∃ c', (s'.partition ⟨Catalog.system, family, Utf8.encode f.keyspace⟩).cells[n]? = some c' := by
  obtain ⟨m, hm, hon⟩ := hd
  rw [hs.partition, hon family hfam, Partition.getElem?_foldl_of_written (c := ⟨v, f.time⟩)]
  · have writes : ∀ m ∈ [Modification.write n ⟨v, f.time⟩], m.isDeletion = false := by
      simp [Modification.isDeletion]
    obtain ⟨c', hc', -⟩ := Partition.exists_le_live_of_writes writes hc
    exact ⟨c', hc'⟩
  · exact (hm.write family hfam n _).mpr ⟨rfl, hh⟩
  · intro c hw
    obtain ⟨ht, hh'⟩ := (hm.write family hfam n c).mp hw
    exact Stamped.ext (hf.shaped.value_eq hfam hh' hh) ht
  · exact hf.not_deletes hin hm hh

-- What the change neither writes nor clears stays.
theorem getElem?_eq {keyspace : String} (ha : f.keyspace = keyspace →
      (∀ v, ¬f.puts.Has family n v) ∧
        ∀ path, f.clears path → path.length ≤ Row.depth family → ¬path <+: n) :
    (s'.partition ⟨Catalog.system, family, Utf8.encode keyspace⟩).cells[n]? =
      (s.partition ⟨Catalog.system, family, Utf8.encode keyspace⟩).cells[n]? := by
  obtain ⟨m, hm, hon⟩ := hd
  rw [hs.partition, hon family hfam]
  by_cases hk : f.keyspace = keyspace
  case neg =>
    have hk : Utf8.encode keyspace ≠ Utf8.encode f.keyspace :=
      fun he => hk (Utf8.encode_inj.mp he).symm
    rw [hm.elsewhere family _ hk]
    rfl
  case pos =>
    subst hk
    obtain ⟨unwritten, uncleared⟩ := ha rfl
    refine Option.ext fun c => ?_
    rw [Partition.getElem?_foldl_of_unwritten, and_iff_left_iff_imp]
    · intro _ mod hmod path d hdel hp
      obtain ⟨hclear, hl⟩ := (hm.deletion family hfam path).mp ⟨mod, hmod, d, hdel⟩
      exact absurd hp (uncleared path hclear hl)
    · exact fun c hw => unwritten c.value ((hm.write family hfam n c).mp hw).right

end Footprint.Describes

namespace Storage

def tableCell? (s : Storage) (keyspace table leaf : String) : Option Stamped :=
  (s.partition ⟨Catalog.system, Catalog.tables, Utf8.encode keyspace⟩).cells[
    CellName.child [table] leaf]?

def columnCell? (s : Storage) (keyspace table column leaf : String) : Option Stamped :=
  (s.partition ⟨Catalog.system, Catalog.columns, Utf8.encode keyspace⟩).cells[
    CellName.child [table, column] leaf]?

-- The column is stored as one of the partition key.
def HasKey (s : Storage) (keyspace table column : String) : Prop :=
  ∃ c, s.columnCell? keyspace table column Row.kind = some c ∧
    Stored.readKind? c.value = some .partitionKey

namespace IsRegular

variable {s : Storage} {family keyspace name table column leaf leaf' : String} {path : CellName}
  (hs : s.IsRegular)

include hs

theorem value?_eq (hf : family ∈ Catalog.schema) (hl : path.length = Row.depth family + 1) :
    Stored.value? (Stored.cells s family name) path =
      (s.partition ⟨Catalog.system, family, Utf8.encode name⟩).cells[path]?.map (·.value) := by
  rw [Stored.value?_cells, hs.below_eq_none hf hl, Option.none_or]

theorem value?_table : Stored.value? (Stored.cells s Catalog.tables keyspace) [table, leaf] =
    (s.tableCell? keyspace table leaf).map (·.value) :=
  hs.value?_eq Catalog.tables_mem_schema rfl

theorem value?_column :
    Stored.value? (Stored.cells s Catalog.columns keyspace) [table, column, leaf] =
      (s.columnCell? keyspace table column leaf).map (·.value) :=
  hs.value?_eq Catalog.columns_mem_schema rfl

theorem exists_columnCell (hl : leaf' ∈ Row.leaves Catalog.columns)
    (hc : ∃ c, s.columnCell? keyspace table column leaf = some c) :
    ∃ c, s.columnCell? keyspace table column leaf' = some c :=
  hs.exists_live Catalog.columns_mem_schema hl hc

theorem present_column_iff :
    Stored.present (Stored.cells s Catalog.columns keyspace) [table, column] = true ↔
      ∃ c, s.columnCell? keyspace table column Row.marker = some c :=
  hs.present_iff Catalog.columns_mem_schema rfl

theorem present_table_iff :
    Stored.present (Stored.cells s Catalog.tables keyspace) [table] = true ↔
      ∃ c, s.tableCell? keyspace table Row.marker = some c :=
  hs.present_iff Catalog.tables_mem_schema rfl

end IsRegular
end Storage

namespace Footprint.Describes

-- A change that puts a table.
variable {f : Footprint} {batch : List Mutation} {s s' : Storage} {t : Table}
  {column leaf : String} {c : Stamped} (hd : f.Describes batch)
  (hw : s.Writes (batchOn batch) s') (hput : f.puts = t.HasRow)

include hd hw hput

theorem live_tableCell (hc : s'.tableCell? f.keyspace t.name leaf = some c) :
    s.tableCell? f.keyspace t.name leaf = some c ∨
      Rows.Has t.HasRow Catalog.tables (CellName.child [t.name] leaf) c.value :=
  hput ▸ hd.live_or_puts hw Catalog.tables_mem_schema hc

theorem live_columnCell (ht : t.Keyed)
    (hc : s'.columnCell? f.keyspace t.name column leaf = some c) :
    s.columnCell? f.keyspace t.name column leaf = some c ∨
      ∃ d, t.columns[column]? = some d ∧ (leaf, c.value) ∈ d.cells :=
  (hd.live_or_puts hw Catalog.columns_mem_schema hc).imp_right fun h =>
    ht.exists_of_has_column (hput ▸ h)

theorem exists_tableMarker (hf : f.IsTidy) (hfam : Catalog.tables ∈ f.families)
    (hc : ∃ c, s.tableCell? f.keyspace t.name Row.marker = some c) :
    ∃ c, s'.tableCell? f.keyspace t.name Row.marker = some c := by
  obtain ⟨c, hc⟩ := hc
  have hh : f.puts.Has Catalog.tables (CellName.child [t.name] Row.marker) [] := by
    rw [hput]
    exact ⟨_, _, Row.marker, .table, rfl, by simp [Table.cells], rfl⟩
  exact hd.exists_live_of_puts hw Catalog.tables_mem_schema hf hfam hh hc

-- If the table has the partition key that is stored, then this is what stays stored.
theorem hasKey_iff (ht : t.Keyed) (hf : f.IsTidy) (hfam : Catalog.columns ∈ f.families)
    (hkey : column ∈ t.partitionKey ↔ s.HasKey f.keyspace t.name column) :
    s'.HasKey f.keyspace t.name column ↔ s.HasKey f.keyspace t.name column := by
  constructor
  case mp =>
    rintro ⟨c, hc, hkind⟩
    rcases hd.live_columnCell hw hput ht hc with hc | ⟨d, hcolumn, hm⟩
    · exact ⟨c, hc, hkind⟩
    · rw [Column.mem_cells_kind.mp hm, Stored.readKind?_encode_toText, Option.some.injEq] at hkind
      exact hkey.mp (ht.mem_partitionKey.mpr ⟨d, hcolumn, hkind⟩)
  case mpr =>
    intro stored
    obtain ⟨c, hc, hkind⟩ := id stored
    obtain ⟨d, hcolumn, hdkind⟩ := ht.mem_partitionKey.mp (hkey.mpr stored)
    have hh : f.puts.Has Catalog.columns (CellName.child [t.name, column] Row.kind) _ :=
      hput ▸ ht.has_column hcolumn (Column.mem_cells_kind.mpr rfl)
    obtain ⟨c', hc'⟩ := hd.exists_live_of_puts hw Catalog.columns_mem_schema hf hfam hh hc
    refine ⟨c', hc', ?_⟩
    rcases hd.live_columnCell hw hput ht hc' with hc' | ⟨d', hcolumn', hm'⟩
    · cases hc.symm.trans hc'
      exact hkind
    · cases hcolumn.symm.trans hcolumn'
      rw [Column.mem_cells_kind.mp hm', Stored.readKind?_encode_toText, hdkind]

end Footprint.Describes

namespace Replica.Sound

variable {r : Replica} {keyspace name column validator : String} {t : Table} (hs : r.Sound)
  (shown : r.schema.table keyspace name = some t)

include hs shown

theorem exists_table_eq : Stored.hasKeyspace r.storage keyspace = true ∧
    (∃ c, r.storage.tableCell? keyspace name Row.marker = some c) ∧
    ∃ u, t = Stored.table (Stored.cells r.storage Catalog.tables keyspace)
      (Stored.cells r.storage Catalog.columns keyspace) keyspace name u := by
  obtain ⟨hk, hp, -⟩ := hs.inSync.table_eq_some shown
  obtain ⟨k, hkeyspace, ht⟩ := Option.bind_eq_some_iff.mp shown
  obtain ⟨fresh, hread⟩ := hs.inSync.keyspaces keyspace
  exact ⟨hk, hs.regular.present_table_iff.mp hp,
    Stored.exists_table_eq (hread.trans (congrArg Except.ok hkeyspace)) ht⟩

theorem keyed : t.Keyed := by
  obtain ⟨-, -, u, rfl⟩ := hs.exists_table_eq shown
  intro column c hc
  obtain ⟨-, rfl⟩ := Stored.getElem?_columns.mp hc
  rfl

theorem exists_id : ∃ c, r.storage.tableCell? keyspace name Row.id = some c ∧
    Stored.readId? c.value = some t.id := by
  obtain ⟨-, hm, u, rfl⟩ := hs.exists_table_eq shown
  obtain ⟨c, hc⟩ : ∃ c, r.storage.tableCell? keyspace name Row.id = some c :=
    hs.regular.exists_live Catalog.tables_mem_schema Row.id_mem_leaves hm
  have hv : Stored.value? (Stored.cells r.storage Catalog.tables keyspace) [name, Row.id] =
      some c.value := by
    rw [hs.regular.value?_table, hc, Option.map_some]
  obtain ⟨id, hid⟩ := Stored.exists_readId?_eq_some (hs.regular.readable keyspace).ids hv
  refine ⟨c, hc, ?_⟩
  rw [Stored.table, hv, Option.bind_some, hid, Option.getD_some]

-- A column with its kind and its validator, as it is stored.
theorem exists_key_column_iff : (∃ c, t.columns[column]? = some c ∧ c.kind = .partitionKey ∧
      c.validator = validator) ↔ r.storage.HasKey keyspace name column ∧
    ∃ c, r.storage.columnCell? keyspace name column Row.validator = some c ∧
      Utf8.lossy c.value = validator := by
  obtain ⟨-, -, u, rfl⟩ := hs.exists_table_eq shown
  constructor
  case mp =>
    rintro ⟨c, hc, hkind, rfl⟩
    obtain ⟨hp, rfl⟩ := Stored.getElem?_columns.mp hc
    have hm := hs.regular.present_column_iff.mp hp
    obtain ⟨kind, hk⟩ := hs.regular.exists_columnCell Row.kind_mem_leaves hm
    obtain ⟨cell, hcell⟩ := hs.regular.exists_columnCell Row.validator_mem_leaves hm
    constructor
    · refine ⟨kind, hk, ?_⟩
      rw [Stored.column, hs.regular.value?_column, hk] at hkind
      cases hread : Stored.readKind? kind.value <;> simp_all
    · refine ⟨cell, hcell, ?_⟩
      rw [Stored.column, Stored.text, hs.regular.value?_column, hcell]
      rfl
  case mpr =>
    rintro ⟨⟨kind, hk, hread⟩, cell, hcell, rfl⟩
    have hp := hs.regular.present_column_iff.mpr
      (hs.regular.exists_columnCell (Row.marker_mem_leaves _) ⟨kind, hk⟩)
    refine ⟨_, Stored.getElem?_columns.mpr ⟨hp, rfl⟩, ?_, ?_⟩
    · rw [Stored.column, hs.regular.value?_column, hk]
      simp [hread]
    · rw [Stored.column, Stored.text, hs.regular.value?_column, hcell]
      rfl

theorem mem_keyValidators_iff : (column, validator) ∈ t.keyValidators ↔
    r.storage.HasKey keyspace name column ∧
      ∃ c, r.storage.columnCell? keyspace name column Row.validator = some c ∧
        Utf8.lossy c.value = validator :=
  (hs.keyed shown).mem_keyValidators.trans (hs.exists_key_column_iff shown)

theorem mem_partitionKey_iff :
    column ∈ t.partitionKey ↔ r.storage.HasKey keyspace name column := by
  rw [(hs.keyed shown).mem_partitionKey]
  constructor
  case mp =>
    rintro ⟨c, hc, hkind⟩
    exact ((hs.exists_key_column_iff shown).mp ⟨c, hc, hkind, rfl⟩).left
  case mpr =>
    intro hkey
    obtain ⟨kind, hk, -⟩ := id hkey
    obtain ⟨cell, hcell⟩ := hs.regular.exists_columnCell Row.validator_mem_leaves ⟨kind, hk⟩
    obtain ⟨c, hc, hkind, -⟩ := (hs.exists_key_column_iff shown).mpr ⟨hkey, cell, hcell, rfl⟩
    exact ⟨c, hc, hkind⟩

end Replica.Sound

-- What has become of a table by updates. It has kept its id and the columns of its partition key,
-- and every one of these has a validator that the table or one of the updates has given it.
structure Table.Descends (old : Table) (updates : List Table) (t : Table) : Prop where
  id         : t.id = old.id
  key        : ∀ column, column ∈ t.partitionKey ↔ column ∈ old.partitionKey
  validators : ∀ p ∈ t.keyValidators, ∃ u ∈ old :: updates, p ∈ u.keyValidators

namespace Table.Descends

variable {old t t' : Table} {updates updates' : List Table}

theorem refl : t.Descends [] t :=
  ⟨rfl, fun _ => Iff.rfl, fun _ hp => ⟨t, List.mem_singleton_self t, hp⟩⟩

theorem trans (h : old.Descends updates t) (h' : t.Descends updates' t') :
    old.Descends (updates ++ updates') t' where
  id         := h'.id.trans h.id
  key column := (h'.key column).trans (h.key column)
  validators p hp := by
    obtain ⟨u, hu, hp⟩ := h'.validators p hp
    rcases List.mem_cons.mp hu with rfl | hu
    · obtain ⟨u, hu, hp⟩ := h.validators p hp
      exact ⟨u, List.mem_append_left updates' hu, hp⟩
    · exact ⟨u, List.mem_cons_of_mem _ (List.mem_append_right updates hu), hp⟩

-- While no update gives a column of the key another validator, all keep theirs.
theorem keyValidators_eq (h : old.Descends updates t) (ho : old.Keyed) (ht : t.Keyed)
    (hu : ∀ u ∈ updates, u.keyValidators = old.keyValidators) :
    t.keyValidators = old.keyValidators := by
  have subset {p : String × String} (hp : p ∈ t.keyValidators) : p ∈ old.keyValidators := by
    obtain ⟨u, hm, hp⟩ := h.validators p hp
    rcases List.mem_cons.mp hm with rfl | hm
    · exact hp
    · exact hu u hm ▸ hp
  refine Set.Subset.antisymm (fun p hp => subset hp) fun ⟨column, validator⟩ hp => ?_
  obtain ⟨c, hc, hkind, rfl⟩ := ho.mem_keyValidators.mp hp
  have hkey := (h.key column).mpr (ho.mem_partitionKey.mpr ⟨c, hc, hkind⟩)
  obtain ⟨c', hc', hkind'⟩ := ht.mem_partitionKey.mp hkey
  have hp' : (column, c'.validator) ∈ t.keyValidators :=
    ht.mem_keyValidators.mpr ⟨c', hc', hkind', rfl⟩
  obtain ⟨c₂, hc₂, -, hv⟩ := ho.mem_keyValidators.mp (subset hp')
  cases hc.symm.trans hc₂
  exact hv ▸ hp'

end Table.Descends

namespace Replica.Sound

variable {r r' : Replica} {keyspace name : String} {old new t : Table} (hs : r.Sound)
  (hs' : r'.Sound) (shown : r.schema.table keyspace name = some old)
  (stored : Stored.hasKeyspace r'.storage keyspace = true)

include hs hs' shown stored

-- The cells of the table are what they were.
theorem descends_of_eq
    (htable : ∀ leaf, r'.storage.tableCell? keyspace name leaf =
      r.storage.tableCell? keyspace name leaf)
    (hcolumn : ∀ column leaf, r'.storage.columnCell? keyspace name column leaf =
      r.storage.columnCell? keyspace name column leaf) :
    ∃ t, r'.schema.table keyspace name = some t ∧ old.Descends [] t := by
  obtain ⟨-, hm, -⟩ := hs.exists_table_eq shown
  rw [← htable] at hm
  obtain ⟨t, ht⟩ := hs'.inSync.exists_table stored (hs'.regular.present_table_iff.mpr hm)
  obtain ⟨c, hc, hid⟩ := hs.exists_id shown
  obtain ⟨c', hc', hid'⟩ := hs'.exists_id ht
  rw [htable, hc] at hc'
  cases hc'
  have same (column : String) :
      r'.storage.HasKey keyspace name column ↔ r.storage.HasKey keyspace name column := by
    rw [Storage.HasKey, Storage.HasKey, hcolumn]
  refine ⟨t, ht, Option.some.inj (hid'.symm.trans hid), fun column => ?_,
    fun ⟨column, validator⟩ hp => ⟨old, List.mem_singleton_self old, ?_⟩⟩
  · rw [hs'.mem_partitionKey_iff ht, hs.mem_partitionKey_iff shown, same]
  · rw [hs'.mem_keyValidators_iff ht, same, hcolumn] at hp
    exact (hs.mem_keyValidators_iff shown).mpr hp

theorem descends_of_update {f : Footprint} {batch : List Mutation} (hd : f.Describes batch)
    (hf : f.IsTidy) (hw : r.storage.Writes (batchOn batch) r'.storage) (hk : f.keyspace = keyspace)
    (hput : f.puts = new.HasRow) (hfam : f.families = [Catalog.tables, Catalog.columns])
    (hn : new.Keyed) (hname : new.name = name) (hr : old.checkReplacement new = .ok ()) :
    ∃ t, r'.schema.table keyspace name = some t ∧ old.Descends [new] t := by
  subst hk hname
  obtain ⟨-, -, hid, hkey⟩ := Table.checkReplacement_eq_ok_iff.mp hr
  have stored_key (column : String) :
      column ∈ new.partitionKey ↔ r.storage.HasKey f.keyspace new.name column := by
    rw [hkey, hs.mem_partitionKey_iff shown]
  have same_key (column : String) :=
    hd.hasKey_iff hw hput hn hf (by simp [hfam]) (stored_key column)
  obtain ⟨-, hm, -⟩ := hs.exists_table_eq shown
  have hm := hd.exists_tableMarker hw hput hf (by simp [hfam]) hm
  obtain ⟨t, ht⟩ := hs'.inSync.exists_table stored (hs'.regular.present_table_iff.mpr hm)
  refine ⟨t, ht, ?_, fun column => ?_, fun ⟨column, validator⟩ hp => ?_⟩
  case refine_1 =>
    obtain ⟨c, hc, hread⟩ := hs.exists_id shown
    obtain ⟨c', hc', hread'⟩ := hs'.exists_id ht
    rcases hd.live_tableCell hw hput hc' with hc' | hh
    · cases hc.symm.trans hc'
      exact Option.some.inj (hread'.symm.trans hread)
    · rw [Table.value_eq_of_has_id hh, Stored.readId?_encode_toText, hid] at hread'
      exact (Option.some.inj hread').symm
  case refine_2 =>
    rw [hs'.mem_partitionKey_iff ht, hs.mem_partitionKey_iff shown, same_key]
  case refine_3 =>
    obtain ⟨hk, c, hc, hv⟩ := (hs'.mem_keyValidators_iff ht).mp hp
    have hk := (same_key column).mp hk
    rcases hd.live_columnCell hw hput hn hc with hc | ⟨d, hcolumn, hm⟩
    · exact ⟨old, by simp, (hs.mem_keyValidators_iff shown).mpr ⟨hk, c, hc, hv⟩⟩
    · obtain ⟨d', hcolumn', hkind⟩ := hn.mem_partitionKey.mp ((stored_key column).mpr hk)
      cases hcolumn.symm.trans hcolumn'
      rw [Column.mem_cells_validator.mp hm, Utf8.lossy_encode] at hv
      exact ⟨new, by simp, hn.mem_keyValidators.mpr ⟨d, hcolumn, hkind, hv⟩⟩

end Replica.Sound

end ClusterMetadata
