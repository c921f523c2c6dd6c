import ClusterMetadata.Proofs.Schema.Change

/-!
Alterations of one table that were made at the same time and meet in a store. The store merges them
in whatever order they come (`Works.mergeAll`). Of a column that one of them drops and the other
keeps, the later alteration decides, and so does what the store held later than the drop
(`Works.mergeAll_alterations`).
-/

namespace ClusterMetadata

namespace Partition

variable {p : Partition} {h mods : List Modification} {path : CellName} {put : Stamped}
  {cut : Int64}

-- What is live under a path after changes that put `put` there and cut off what came until `cut`.
theorem Reflects.exists_live_under_iff (hr : p.Reflects h)
    (hlive : ∃ n c, path <+: n ∧ p.cells[n]? = some c) (hput : .write path put ∈ mods)
    (hputs : ∀ n c, .write n c ∈ mods → path <+: n → c.timestamp = put.timestamp)
    (hcut : ∃ m ∈ mods, ∃ path' d, m.Deletes path' d ∧ path' <+: path ∧ d.markedAt = cut)
    (hcuts : ∀ m ∈ mods, ∀ path' d n, m.Deletes path' d → path' <+: n → path <+: n →
      d.markedAt = cut) :
    (∃ n c, path <+: n ∧ (mods.foldl Partition.modify p).cells[n]? = some c) ↔
      cut < put.timestamp ∨ ∃ n c, path <+: n ∧ p.cells[n]? = some c ∧ cut < c.timestamp := by
  have hr' := hr.foldl mods
  -- What is later than the cut can only be hidden by what was there.
  have exists_live {n} {c : Stamped} (hp : path <+: n) (hm : .write n c ∈ h ++ mods)
      (hu : ¬Covered h n c.timestamp) (hc : cut < c.timestamp) :
      ∃ n c, path <+: n ∧ (mods.foldl Partition.modify p).cells[n]? = some c := by
    have hu' : ¬Covered (h ++ mods) n c.timestamp := by
      rw [covered_append, not_or]
      refine ⟨hu, fun ⟨m, hm, path', d, hd, hp', ht⟩ => Std.not_le.mpr hc ?_⟩
      exact hcuts m hm path' d n hd hp' hp ▸ ht
    have ⟨c', hc', _⟩ := hr'.exists_live_of_not_covered hm (Std.le_refl _) hu'
    exact ⟨n, c', hp, hc'⟩
  have exists_live_of_old {n} {c : Stamped} (hp : path <+: n) (hl : p.cells[n]? = some c)
      (hc : cut < c.timestamp) :
      ∃ n c, path <+: n ∧ (mods.foldl Partition.modify p).cells[n]? = some c := by
    have hg := (isLive_iff.mp (hr.getElem?_eq_some_iff.mp hl)).left
    exact exists_live hp (List.mem_append_left _ hg.left) hg.right hc
  constructor
  case mp =>
    rintro ⟨n, c, hp, hl⟩
    have hl := hr'.getElem?_eq_some_iff.mp hl
    have ⟨m, hm, path', d, hd, hp', ht⟩ := hcut
    have hlt : cut < c.timestamp :=
      ht ▸ hl.later m (List.mem_append_right _ hm) path' d hd (hp'.trans hp)
    cases List.mem_append.mp hl.greatest.left
    case inr hw => exact .inl (hputs n c hw hp ▸ hlt)
    case inl hw =>
      have hu : ¬Covered h n c.timestamp := fun ⟨m, hm, path', d, hd, hp', ht⟩ =>
        Std.not_le.mpr (hl.later m (List.mem_append_left _ hm) path' d hd hp') ht
      have ⟨c', hc', ht⟩ := hr.exists_live_of_not_covered hw (Std.le_refl _) hu
      exact .inr ⟨n, c', hp, hc', Std.lt_of_lt_of_le hlt ht⟩
  case mpr =>
    rintro (hlt | ⟨n, c, hp, hl, hlt⟩)
    case inr => exact exists_live_of_old hp hl hlt
    case inl =>
      by_cases hu : Covered h path put.timestamp
      case neg => exact exists_live List.prefix_rfl (List.mem_append_right _ hput) hu hlt
      case pos =>
        -- What hides the write does not hide what was live, which is later still.
        have ⟨n, c, hp, hl⟩ := hlive
        have ⟨m, hm, path', d, hd, hp', ht⟩ := hu
        have hd := (hr.getElem?_eq_some_iff.mp hl).later m hm path' d hd (hp'.trans hp)
        exact exists_live_of_old hp hl (Std.lt_trans (Std.lt_of_lt_of_le hlt ht) hd)

end Partition

namespace Stored

variable {s s' : Storage} {name : String} {w : PartitionId → List Modification}

-- What loads still loads after rows of tables and columns have been written.
theorem Loads.writes (hl : Loads s name) (hw : s.Writes w s')
    (hr : ∀ family ∈ Catalog.schema, RowWise family (w ⟨Catalog.system, family, Utf8.encode name⟩))
    (hk : w ⟨Catalog.system, Catalog.keyspaces, Utf8.encode name⟩ = []) : Loads s' name := by
  have attributes : cells s' Catalog.keyspaces name = cells s Catalog.keyspaces name := by
    simp only [cells, Storage.read, hw.partition, hk, List.foldl_nil]
  have old_or_row {family : String} (hf : family ∈ Catalog.schema) {c : Cell}
      (hc : c ∈ cells s' family name) : c ∈ cells s family name ∨ ∃ path leaf,
        c.name = CellName.child path leaf ∧ path.length = Row.depth family ∧
          Row.Fits leaf c.value := by
    rw [mem_cells, hw.partition] at hc
    rcases Partition.live_or_write_of_foldl hc with hc | hc
    · exact .inl (mem_cells.mpr hc)
    · obtain ⟨path, leaf, hn, hl, _, hf, _⟩ := (hr family hf).write _ _ hc
      exact .inr ⟨path, leaf, hn, hl, hf⟩
  constructor
  case options => exact attributes ▸ hl.options
  case ids =>
    intro hp c hc
    rcases old_or_row Catalog.tables_mem_schema hc with hc | ⟨path, leaf, hn, hd, hf⟩
    · exact hl.ids (attributes ▸ hp) c hc
    · exact hf.checkId_eq_ok hn hd
  case kinds =>
    intro hp c hc
    rcases old_or_row Catalog.columns_mem_schema hc with hc | ⟨path, leaf, hn, hd, hf⟩
    · exact hl.kinds (attributes ▸ hp) c hc
    · exact hf.checkKind_eq_ok hn hd

-- The cells that make the column one of the table.
def columnMarkers (s : Storage) (keyspace table column : String) : List Cell :=
  under (cells s Catalog.columns keyspace) [table, column, Row.marker]

theorem mem_columnMarkers {keyspace table column : String} {c : Cell} :
    c ∈ columnMarkers s keyspace table column ↔ [table, column, Row.marker] <+: c.name ∧
      (s.partition ⟨Catalog.system, Catalog.columns, Utf8.encode keyspace⟩).cells[c.name]? =
        some c.toStamped := by
  rw [columnMarkers, mem_under, mem_cells, and_comm]

theorem exists_columnMarkers_iff {keyspace table column : String} {P : Stamped → Prop} :
    (∃ c ∈ columnMarkers s keyspace table column, P c.toStamped) ↔
      ∃ n c, [table, column, Row.marker] <+: n ∧
        (s.partition ⟨Catalog.system, Catalog.columns, Utf8.encode keyspace⟩).cells[n]? = some c ∧
          P c := by
  simp only [mem_columnMarkers]
  constructor
  case mp  => exact fun ⟨c, ⟨hp, hl⟩, h⟩ => ⟨c.name, c.toStamped, hp, hl, h⟩
  case mpr => exact fun ⟨n, c, hp, hl, h⟩ => ⟨⟨c, n⟩, ⟨hp, hl⟩, h⟩

theorem exists_mem_columnMarkers_iff {keyspace table column : String} :
    (∃ c, c ∈ columnMarkers s keyspace table column) ↔
      ∃ n c, [table, column, Row.marker] <+: n ∧
        (s.partition ⟨Catalog.system, Catalog.columns, Utf8.encode keyspace⟩).cells[n]? =
          some c := by
  simpa using exists_columnMarkers_iff (s := s) (P := fun _ => True)

end Stored

namespace Replica

variable {r r' : Replica} {keyspace name column : String} {t old : Table} {batch : List Mutation}
  {batches : List (List Mutation)}

theorem InSync.table_eq_some (hs : InSync r) (h : r.schema.table keyspace name = some t) :
    Stored.present (Stored.cells r.storage Catalog.keyspaces keyspace) [] = true ∧
      Stored.present (Stored.cells r.storage Catalog.tables keyspace) [name] = true ∧
      t.columns = Stored.columns (Stored.cells r.storage Catalog.columns keyspace) name := by
  obtain ⟨k, hk, ht⟩ := Option.bind_eq_some_iff.mp h
  have ⟨fresh, hr⟩ := hs.keyspaces keyspace
  have hr := (Stored.keyspace_eq_ok_iff.mp hr).right.trans hk
  have ⟨hp, hm⟩ := Stored.reading_eq_some hr
  rw [hm] at ht
  have ⟨_, _, hc⟩ := Stored.getElem?_tableMap.mp ht
  exact ⟨hp, Stored.exists_getElem?_tableMap.mp ⟨t, ht⟩, congrArg Table.columns hc.symm⟩

theorem InSync.exists_table (hs : InSync r)
    (hk : Stored.present (Stored.cells r.storage Catalog.keyspaces keyspace) [] = true)
    (ht : Stored.present (Stored.cells r.storage Catalog.tables keyspace) [name] = true) :
    ∃ t, r.schema.table keyspace name = some t := by
  have ⟨fresh, hr⟩ := hs.keyspaces keyspace
  have hr := (Stored.keyspace_eq_ok_iff.mp hr).right
  have hs : (Stored.reading r.storage keyspace fresh).isSome := Stored.isSome_reading_iff.mpr hk
  have ⟨k, hk⟩ := Option.isSome_iff_exists.mp hs
  have ⟨_, hm⟩ := Stored.reading_eq_some hk
  have ⟨t, ht⟩ : ∃ t, (Stored.tableMap r.storage keyspace fresh)[name]? = some t :=
    Stored.exists_getElem?_tableMap.mpr ht
  exact ⟨t, Option.bind_eq_some_iff.mpr ⟨k, hr ▸ hk, hm ▸ ht⟩⟩

-- A store that works: it shows what it holds, what it holds has been written, and it can be
-- written.
structure Works (r : Replica) : Prop where
  inSync   : InSync r
  reflects : ∃ h, r.storage.Reflects h
  failing  : r.storage.failing = false

theorem Sound.works (hs : Sound r) : Works r :=
  have ⟨h, hr, _⟩ := hs.regular
  ⟨hs.inSync, ⟨h, hr⟩, hs.failing⟩

-- A batch of rows of tables and columns.
structure IsTabular (batch : List Mutation) : Prop where
  regular : Regular (batchOn batch)
  spares  : ∀ key, batchOn batch ⟨Catalog.system, Catalog.keyspaces, key⟩ = []

theorem mem_batchOn_flatten {id : PartitionId} {m : Modification} :
    m ∈ batchOn batches.flatten id ↔ ∃ batch ∈ batches, m ∈ batchOn batch id := by
  simp only [mem_batchOn, List.mem_flatten]
  constructor
  case mp  => exact fun ⟨m', ⟨batch, hb, hm⟩, h⟩ => ⟨batch, hb, m', hm, h⟩
  case mpr => exact fun ⟨batch, hb, m', hm, h⟩ => ⟨m', ⟨batch, hb, hm⟩, h⟩

theorem IsTabular.flatten (hb : ∀ batch ∈ batches, IsTabular batch) :
    IsTabular batches.flatten where
  regular := .of_parts fun id m hm =>
    have ⟨batch, hbatch, hm⟩ := mem_batchOn_flatten.mp hm
    ⟨_, (hb batch hbatch).regular, hm, fun _ _ hm => mem_batchOn_flatten.mpr ⟨batch, hbatch, hm⟩⟩
  spares key := by
    refine List.eq_nil_iff_forall_not_mem.mpr fun m hm => ?_
    have ⟨batch, hbatch, hm⟩ := mem_batchOn_flatten.mp hm
    exact List.eq_nil_iff_forall_not_mem.mp ((hb batch hbatch).spares key) m hm

theorem Works.merge (hw : Works r) (hb : IsTabular batch) :
    ∃ r', r.merge batch = .ok r' ∧ Works r' ∧ r.storage.Writes (batchOn batch) r'.storage := by
  have ⟨h, hr⟩ := hw.reflects
  have ⟨r', hm⟩ := exists_merge_eq_ok hw.failing fun s hs name _ =>
    (hw.inSync.loads name).writes hs (fun family hf => hb.regular.rows family hf _) (hb.spares _)
  have hs := writes_merge hm
  exact ⟨r', hm, ⟨hw.inSync.merge hm, ⟨_, hr.writes hs⟩, hs.failing.trans hw.failing⟩, hs⟩

theorem Works.mergeAll (hw : Works r) (hb : ∀ batch ∈ batches, IsTabular batch) :
    ∃ r', r.mergeAll batches = .ok r' ∧ Works r' ∧
      r.storage.Writes (batchOn batches.flatten) r'.storage := by
  induction batches generalizing r
  case nil => exact ⟨r, rfl, hw, .refl⟩
  case cons batch batches hi =>
    have ⟨hb, hbs⟩ := List.forall_mem_cons.mp hb
    have ⟨r₁, h₁, hw₁, hs₁⟩ := hw.merge hb
    have ⟨r₂, h₂, hw₂, hs₂⟩ := hi hw₁ hbs
    refine ⟨r₂, ?_, hw₂, ?_⟩
    · rw [Replica.mergeAll, List.foldlM_cons, h₁]
      exact h₂
    · rw [List.flatten_cons, batchOn_append]
      exact hs₁.trans hs₂

-- On the schema tables the batch is an alteration of the table.
structure IsAlteration (old t : Table) (d : DeletionTime) (batch : List Mutation) : Prop where
  keyspace : t.keyspace = old.keyspace
  name     : t.name = old.name
  batch    : ∀ family ∈ Catalog.schema, ∀ key, batchOn batch ⟨Catalog.system, family, key⟩ =
    (old.alteration t d).on ⟨Catalog.system, family, key⟩

namespace IsAlteration

variable {d : DeletionTime}

theorem rewrites (h : IsAlteration old t d batch) :
    Rewrites (old.alteration t d).on (Utf8.encode old.keyspace) d.markedAt t.HasRow
      (· ∈ (old.droppedColumns t).map fun c => [old.name, c]) :=
  h.keyspace ▸ Table.rewrites_alteration

-- Deletions reach no other rows than those of columns.
theorem isDeletion_eq_false (h : IsAlteration old t d batch) {family : String}
    (hf : family ∈ Catalog.schema) (hl : Row.depth family < 2) {key : Bytes} {m : Modification}
    (hm : m ∈ batchOn batch ⟨Catalog.system, family, key⟩) : m.isDeletion = false := by
  have deletes {path : CellName} {d' : DeletionTime} (hd : m.Deletes path d') : False := by
    rw [h.batch family hf] at hm
    obtain rfl := h.rewrites.key_eq hm
    have ⟨hp, hd⟩ := (h.rewrites.deletion family hf path).mp ⟨m, hm, d', hd⟩
    obtain ⟨_, -, rfl⟩ := List.mem_map.mp hp
    exact Nat.not_le.mpr hl hd
  cases m
  case write                  => rfl
  case tombstone path d'      => exact (deletes (.tombstone path d')).elim
  case rangeTombstone path d' => exact (deletes (.rangeTombstone path d')).elim

theorem isTabular (h : IsAlteration old t d batch) : IsTabular batch where
  regular := (Table.rewrites_alteration.regular t.isWhole).congr fun family hf key =>
    (h.batch family hf key).symm
  spares key := by
    refine List.eq_nil_iff_forall_not_mem.mpr fun m hm => ?_
    have hd := h.isDeletion_eq_false Catalog.keyspaces_mem_schema (by decide) hm
    cases m
    case tombstone      => cases hd
    case rangeTombstone => cases hd
    case write n c =>
      rw [h.batch _ Catalog.keyspaces_mem_schema] at hm
      obtain rfl := h.rewrites.key_eq hm
      obtain ⟨-, path, _, _, hr, hl, -⟩ :=
        (h.rewrites.write _ Catalog.keyspaces_mem_schema n c).mp hm
      cases List.eq_nil_of_length_eq_zero hl
      cases hr

variable {c : Column} {n path : CellName} {m : Modification} {d' : DeletionTime} {cell : Stamped}

-- The markers of the columns that are kept are written, and no others.
theorem write_mem (h : IsAlteration old t d batch) (hc : t.columns[column]? = some c)
    (hn : c.name = column) : .write [old.name, column, Row.marker] ⟨[], d.markedAt⟩ ∈
      batchOn batch ⟨Catalog.system, Catalog.columns, Utf8.encode old.keyspace⟩ := by
  have hr : t.HasRow [t.name, c.name] c.cells := .column hc
  rw [h.batch _ Catalog.columns_mem_schema]
  refine (h.rewrites.write _ Catalog.columns_mem_schema _ _).mpr
    ⟨rfl, _, _, Row.marker, hr, rfl, ?_⟩
  exact ⟨List.mem_cons_self, by rw [h.name, hn]; rfl⟩

theorem exists_of_write_mem (h : IsAlteration old t d batch)
    (hm : .write n cell ∈
      batchOn batch ⟨Catalog.system, Catalog.columns, Utf8.encode old.keyspace⟩)
    (hp : [old.name, column, Row.marker] <+: n) : cell.timestamp = d.markedAt ∧
      ∃ (key : String) (c : Column), t.columns[key]? = some c ∧ c.name = column := by
  rw [h.batch _ Catalog.columns_mem_schema] at hm
  obtain ⟨ht, path, _, leaf, hr, hl, -, rfl⟩ :=
    (h.rewrites.write _ Catalog.columns_mem_schema n cell).mp hm
  refine ⟨ht, ?_⟩
  cases hr
  case table => cases hl
  case column key c hc =>
    simp only [CellName.child, List.cons_append, List.nil_append, List.cons_prefix_cons] at hp
    exact ⟨key, c, hc, hp.right.left.symm⟩

-- The columns that are dropped are cut off, and no others.
theorem exists_deletes (h : IsAlteration old t d batch) (hc : old.columns[column]? = some c)
    (hn : t.columns[column]? = none) :
    ∃ m ∈ batchOn batch ⟨Catalog.system, Catalog.columns, Utf8.encode old.keyspace⟩, ∃ d',
      m.Deletes [old.name, column] d' ∧ d'.markedAt = d.markedAt := by
  rw [h.batch _ Catalog.columns_mem_schema]
  have hm := List.mem_map_of_mem (f := fun c => [old.name, c])
    (Table.mem_droppedColumns.mpr ⟨⟨c, hc⟩, hn⟩)
  have ⟨m, hm, d', hd⟩ :=
    (h.rewrites.deletion _ Catalog.columns_mem_schema _).mpr ⟨hm, Nat.le_refl 2⟩
  exact ⟨m, hm, d', hd, hd.timestamp_eq.symm.trans (h.rewrites.timestamp _ m hm)⟩

theorem dropped_of_deletes (h : IsAlteration old t d batch)
    (hm : m ∈ batchOn batch ⟨Catalog.system, Catalog.columns, Utf8.encode old.keyspace⟩)
    (hd : m.Deletes path d') (hp : path <+: n) (hn : [old.name, column, Row.marker] <+: n) :
    d'.markedAt = d.markedAt ∧ t.columns[column]? = none := by
  rw [h.batch _ Catalog.columns_mem_schema] at hm
  refine ⟨hd.timestamp_eq.symm.trans (h.rewrites.timestamp _ m hm), ?_⟩
  have ⟨hc, _⟩ := (h.rewrites.deletion _ Catalog.columns_mem_schema path).mp ⟨m, hm, d', hd⟩
  obtain ⟨column', hm, rfl⟩ := List.mem_map.mp hc
  have hp : [old.name, column'] <+: [old.name, column, Row.marker] :=
    List.prefix_of_prefix_length_le hp hn (by simp)
  simp only [List.cons_prefix_cons, List.nil_prefix, true_and, and_true] at hp
  exact hp ▸ (Table.mem_droppedColumns.mp hm).right

end IsAlteration

section

variable {dropping keeping : Table} {d k : DeletionTime} {drop keep : List Mutation} {c : Column}

-- The table is still shown, whatever became of its columns.
theorem Works.exists_table (hw : Works r) (hw' : Works r')
    (ht : r.schema.table keyspace name = some t)
    (hs : r.storage.Writes (batchOn batch) r'.storage) (hb : IsTabular batch)
    (hd : ∀ key, ∀ m ∈ batchOn batch ⟨Catalog.system, Catalog.tables, key⟩,
      m.isDeletion = false) : ∃ t', r'.schema.table keyspace name = some t' := by
  have ⟨hp, hl, _⟩ := hw.inSync.table_eq_some ht
  refine hw'.inSync.exists_table ?_ ?_
  · have he : Stored.cells r'.storage Catalog.keyspaces keyspace =
        Stored.cells r.storage Catalog.keyspaces keyspace := by
      simp only [Stored.cells, Storage.read, hs.partition, hb.spares, List.foldl_nil]
    rwa [he]
  · obtain ⟨cell, hc, hp⟩ := Stored.present_iff.mp hl
    obtain ⟨c', hc', _⟩ :=
      Partition.exists_le_live_of_writes (hd (Utf8.encode keyspace)) (Stored.mem_cells.mp hc)
    rw [← hs.partition] at hc'
    exact Stored.present_iff.mpr ⟨⟨c', cell.name⟩, Stored.mem_cells.mpr hc', hp⟩

theorem InSync.getElem?_columns_eq_none_iff (hs : InSync r)
    (ht : r.schema.table keyspace name = some t) : t.columns[column]? = none ↔
      ¬∃ c, c ∈ Stored.columnMarkers r.storage keyspace name column := by
  have ⟨_, _, hc⟩ := hs.table_eq_some ht
  rw [← not_iff_not, not_not, ← ne_eq, Option.ne_none_iff_exists', hc]
  simp only [Stored.getElem?_columns, exists_and_left, exists_eq', and_true, Stored.present_iff,
    Stored.columnMarkers, Stored.mem_under]
  rfl

theorem InSync.name_eq_of_column (hs : InSync r) (ht : r.schema.table keyspace name = some t)
    (hc : t.columns[column]? = some c) : c.name = column := by
  have ⟨_, _, he⟩ := hs.table_eq_some ht
  rw [he, Stored.getElem?_columns] at hc
  exact hc.right ▸ rfl

section

-- Both alterations start from the definition that is shown. One drops the column, the other keeps
-- it.
variable (hw : Works r) (ht : r.schema.table old.keyspace old.name = some old)
  (hd : IsAlteration old dropping d drop) (hk : IsAlteration old keeping k keep)
  (hc : old.columns[column]? = some c) (hdc : dropping.columns[column]? = none)
  (hdk : dropping.Keyed) (hkc : keeping.columns[column]? = some c) (hdb : drop ∈ batches)
  (hkb : keep ∈ batches) (hb : ∀ batch ∈ batches, batch = drop ∨ batch = keep)

include hw ht hd hk hc hdc hdk hkc hdb hkb hb

theorem exists_marker_iff {s : Storage} (hs : r.storage.Writes (batchOn batches.flatten) s) :
    (∃ c, c ∈ Stored.columnMarkers s old.keyspace old.name column) ↔
      d.markedAt < k.markedAt ∨
        ∃ c ∈ Stored.columnMarkers r.storage old.keyspace old.name column,
          d.markedAt < c.timestamp := by
  let id : PartitionId := ⟨Catalog.system, Catalog.columns, Utf8.encode old.keyspace⟩
  have ⟨h, hr⟩ := hw.reflects
  have hlive : ∃ c, c ∈ Stored.columnMarkers r.storage old.keyspace old.name column := by
    by_contra hn
    cases hc.symm.trans ((hw.inSync.getElem?_columns_eq_none_iff ht).mpr hn)
  have hput := hk.write_mem hkc (hw.inSync.name_eq_of_column ht hc)
  have ⟨cut, hcut, d', hdel, ht⟩ := hd.exists_deletes hc hdc
  have hcut := mem_batchOn_flatten.mpr ⟨drop, hdb, hcut⟩
  rw [Stored.exists_mem_columnMarkers_iff] at hlive ⊢
  rw [Stored.exists_columnMarkers_iff (P := fun c => d.markedAt < c.timestamp), hs.partition]
  refine (hr id).exists_live_under_iff hlive (mem_batchOn_flatten.mpr ⟨keep, hkb, hput⟩) ?_
    ⟨cut, hcut, _, d', hdel, ⟨[Row.marker], rfl⟩, ht⟩ ?_
  -- Only the one that keeps the column writes its marker.
  · intro n cell hw hp
    have ⟨batch, hbatch, hw⟩ := mem_batchOn_flatten.mp hw
    rcases hb batch hbatch with rfl | rfl
    · obtain ⟨-, key, c', hc', rfl⟩ := hd.exists_of_write_mem hw hp
      rw [hdk key c' hc', hc'] at hdc
      cases hdc
    · exact (hk.exists_of_write_mem hw hp).left
  -- Only the one that drops the column deletes it.
  · intro m hm path' d' n hdel hp' hp
    have ⟨batch, hbatch, hm⟩ := mem_batchOn_flatten.mp hm
    rcases hb batch hbatch with rfl | rfl
    · exact (hd.dropped_of_deletes hm hdel hp' hp).left
    · have hn := (hk.dropped_of_deletes hm hdel hp' hp).right
      cases hn.symm.trans hkc

-- The column is gone if the drop is no earlier than the other alteration and than what was stored
-- of the column.
theorem Works.mergeAll_alterations :
    ∃ r' t, r.mergeAll batches = .ok r' ∧ r'.schema.table old.keyspace old.name = some t ∧
      (t.columns[column]? = none ↔ k.markedAt ≤ d.markedAt ∧
        ∀ c ∈ Stored.columnMarkers r.storage old.keyspace old.name column,
          c.timestamp ≤ d.markedAt) := by
  have alteration {batch : List Mutation} (hm : batch ∈ batches) :
      ∃ t d, IsAlteration old t d batch := by
    rcases hb batch hm with rfl | rfl
    · exact ⟨dropping, d, hd⟩
    · exact ⟨keeping, k, hk⟩
  have tabular : ∀ batch ∈ batches, IsTabular batch := by
    intro batch hm
    have ⟨_, _, h⟩ := alteration hm
    exact h.isTabular
  have ⟨r', hm, hw', hs⟩ := hw.mergeAll tabular
  have ⟨t, ht'⟩ : ∃ t, r'.schema.table old.keyspace old.name = some t := by
    refine hw.exists_table hw' ht hs (.flatten tabular) fun key m hm => ?_
    have ⟨batch, hbatch, hm⟩ := mem_batchOn_flatten.mp hm
    have ⟨_, _, h⟩ := alteration hbatch
    exact h.isDeletion_eq_false Catalog.tables_mem_schema (by decide) hm
  refine ⟨r', t, hm, ht', ?_⟩
  rw [hw'.inSync.getElem?_columns_eq_none_iff ht',
    exists_marker_iff hw ht hd hk hc hdc hdk hkc hdb hkb hb hs, not_or, Std.not_lt]
  simp only [not_exists, not_and, Std.not_lt]

end

end

end Replica
end ClusterMetadata
