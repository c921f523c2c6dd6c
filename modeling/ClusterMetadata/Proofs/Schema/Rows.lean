import ClusterMetadata.Proofs.Schema.Stored
import ClusterMetadata.Proofs.Uuid

/-!
Histories of the schema tables in which rows are written and deleted whole, columns with their
tables. What is live in such a history is whole as well (`RowWise.exists_live`,
`Regular.exists_live_owner`), and it can be read (`IsRegular.readable`).
-/

namespace ClusterMetadata

namespace Row

-- The length of a row's path.
def depth (family : String) : Nat :=
  if family = Catalog.keyspaces then 0 else if family = Catalog.tables then 1 else 2

-- The leaves of a row.
def leaves (family : String) : List String :=
  if family = Catalog.keyspaces then [marker, durableWrites, strategyClass, strategyOptions]
  else if family = Catalog.tables then [marker, id, comment]
  else [marker, validator, kind]

theorem depth_le_two (family : String) : depth family ≤ 2 := by
  simp only [depth]
  repeat' split
  all_goals decide

theorem depth_inj {family family' : String} (hf : family ∈ Catalog.schema)
    (hf' : family' ∈ Catalog.schema) (h : depth family = depth family') : family = family' := by
  simp only [Catalog.schema, List.mem_cons, List.not_mem_nil, or_false] at hf hf'
  obtain rfl | rfl | rfl := hf <;> obtain rfl | rfl | rfl := hf' <;> first | rfl | cases h

theorem marker_mem_leaves (family : String) : marker ∈ leaves family := by
  simp only [leaves]
  repeat' split
  all_goals exact List.mem_cons_self

theorem id_mem_leaves : id ∈ leaves Catalog.tables := by
  simp [leaves, Catalog.keyspaces, Catalog.tables]

theorem validator_mem_leaves : validator ∈ leaves Catalog.columns := by
  simp [leaves, Catalog.keyspaces, Catalog.tables, Catalog.columns]

theorem kind_mem_leaves : kind ∈ leaves Catalog.columns := by
  simp [leaves, Catalog.keyspaces, Catalog.tables, Catalog.columns]

-- A value that is refused under no leaf.
structure Fits (leaf : String) (value : Bytes) : Prop where
  options : leaf = strategyOptions → (Stored.readOptions? value).isSome
  id      : leaf = Row.id → (Stored.readId? value).isSome
  kind    : leaf = Row.kind → (Stored.readKind? value).isSome

theorem mem_write {path n : CellName} {timestamp : Int64} {cells : List (String × Bytes)}
    {c : Stamped} : .write n c ∈ write path timestamp cells ↔
      ∃ leaf, (leaf, c.value) ∈ cells ∧ n = path.child leaf ∧ c.timestamp = timestamp := by
  simp only [write, List.mem_map, Prod.exists, Modification.write.injEq]
  constructor
  case mp  => rintro ⟨leaf, value, hm, rfl, rfl⟩; exact ⟨leaf, hm, rfl, rfl⟩
  case mpr => rintro ⟨leaf, hm, rfl, rfl⟩; exact ⟨leaf, c.value, hm, rfl, rfl⟩

theorem isDeletion_of_mem_write {path : CellName} {timestamp : Int64}
    {cells : List (String × Bytes)} {m : Modification} (h : m ∈ write path timestamp cells) :
    m.isDeletion = false := by
  obtain ⟨_, -, rfl⟩ := List.mem_map.mp h
  rfl

end Row

theorem CellName.child_inj {path path' : CellName} {leaf leaf' : String} :
    path.child leaf = path'.child leaf' ↔ path = path' ∧ leaf = leaf' := by
  simp [child, List.append_singleton_inj]

namespace Row.Fits

variable {path : CellName} {leaf keyspace : String} {c : Cell}

-- Cells of rows pass the checks of their tables.

theorem isSome_readOptions? (hf : Fits leaf c.value) (hn : c.name = path.child leaf)
    (hl : path.length = depth Catalog.keyspaces) (hp : [strategyOptions] <+: c.name) :
    (Stored.readOptions? c.value).isSome := by
  have ⟨rest, hp⟩ := hp
  cases List.eq_nil_of_length_eq_zero hl
  rw [hn, CellName.child, List.nil_append, List.singleton_append, List.cons.injEq] at hp
  exact hf.options hp.left.symm

theorem checkId_eq_ok (hf : Fits leaf c.value) (hn : c.name = path.child leaf)
    (hl : path.length = depth Catalog.tables) : Stored.checkId keyspace c = .ok () := by
  obtain ⟨t, rfl⟩ := List.length_eq_one_iff.mp hl
  have hi (h : leaf = Row.id) : (Stored.readId? c.value).isNone = false := by
    simpa using hf.id h
  simp only [Stored.checkId, hn, CellName.child, List.singleton_append]
  refine if_neg ?_
  rintro ⟨h, hn⟩
  simp [hi h] at hn

theorem checkKind_eq_ok (hf : Fits leaf c.value) (hn : c.name = path.child leaf)
    (hl : path.length = depth Catalog.columns) : Stored.checkKind keyspace c = .ok () := by
  obtain ⟨t, column, rfl⟩ := List.length_eq_two.mp hl
  have hi (h : leaf = Row.kind) : (Stored.readKind? c.value).isNone = false := by
    simpa using hf.kind h
  simp only [Stored.checkKind, hn, CellName.child, List.cons_append, List.nil_append]
  refine if_neg ?_
  rintro ⟨h, hn⟩
  simp [hi h] at hn

end Row.Fits

-- Each write belongs to a row of which every leaf is written no earlier, and a deletion covers
-- rows or none of their cells.
structure RowWise (family : String) (h : List Modification) : Prop where
  write    : ∀ n c, .write n c ∈ h → ∃ path leaf, n = CellName.child path leaf ∧
    path.length = Row.depth family ∧ leaf ∈ Row.leaves family ∧ Row.Fits leaf c.value ∧
    ∀ leaf' ∈ Row.leaves family, ∃ c', .write (path.child leaf') c' ∈ h ∧ c.timestamp ≤ c'.timestamp
  deletion : ∀ m ∈ h, ∀ path d, m.Deletes path d → path.length ≤ Row.depth family

namespace RowWise

variable {family : String} {h h' : List Modification}

-- Histories of this kind can be put together.
theorem of_parts (hp : ∀ m ∈ h, ∃ h' ⊆ h, m ∈ h' ∧ RowWise family h') : RowWise family h where
  write n c hm := by
    have ⟨h', hs, hm', hw⟩ := hp _ hm
    have ⟨path, leaf, hn, hl, hf, hv, hr⟩ := hw.write n c hm'
    refine ⟨path, leaf, hn, hl, hf, hv, fun leaf' hf' => ?_⟩
    have ⟨c', hc', ht⟩ := hr leaf' hf'
    exact ⟨c', hs hc', ht⟩
  deletion m hm := by
    obtain ⟨h', -, hm', hw⟩ := hp _ hm
    exact hw.deletion m hm'

variable {p : Partition} {path : CellName} {leaf leaf' : String} {c : Stamped} {n : CellName}

theorem exists_path (hw : RowWise family h) (hr : p.Reflects h) (hc : p.cells[n]? = some c) :
    ∃ path leaf, n = CellName.child path leaf ∧ path.length = Row.depth family ∧
      leaf ∈ Row.leaves family ∧ Row.Fits leaf c.value := by
  have hl := hr.getElem?_eq_some_iff.mp hc
  obtain ⟨path, leaf, hn, hd, hm, hf, -⟩ := hw.write n c hl.greatest.left
  exact ⟨path, leaf, hn, hd, hm, hf⟩

-- With one cell of a row the others are live too.
theorem exists_live (hw : RowWise family h) (hr : p.Reflects h)
    (hc : p.cells[path.child leaf]? = some c) (hl : leaf' ∈ Row.leaves family) :
    ∃ c', p.cells[path.child leaf']? = some c' ∧ c.timestamp ≤ c'.timestamp := by
  have hg := (isLive_iff.mp (hr.getElem?_eq_some_iff.mp hc)).left
  obtain ⟨path', leaf₀, he, hd, -, -, ho⟩ := hw.write _ c hg.left
  obtain ⟨rfl, rfl⟩ := CellName.child_inj.mp he
  have ⟨c', hm, ht⟩ := ho leaf' hl
  refine hr.exists_live_of_not_covered hm ht fun ⟨m, hm, del, d, hdel, hp, hle⟩ => hg.right ?_
  have hpath : del <+: path := List.prefix_of_prefix_length_le hp (List.prefix_append ..)
    (hd ▸ hw.deletion m hm del d hdel)
  exact ⟨m, hm, del, d, hdel, hpath.trans (List.prefix_append ..), Std.le_trans ht hle⟩

end RowWise

-- Histories of the schema tables of whole rows, with every column written no later than its table
-- and deleted with it.
structure Regular (h : PartitionId → List Modification) : Prop where
  rows  : ∀ family ∈ Catalog.schema, ∀ key, RowWise family (h ⟨Catalog.system, family, key⟩)
  owner : ∀ key t column leaf c,
    .write [t, column, leaf] c ∈ h ⟨Catalog.system, Catalog.columns, key⟩ →
    ∃ c', .write [t, Row.marker] c' ∈ h ⟨Catalog.system, Catalog.tables, key⟩ ∧
      c.timestamp ≤ c'.timestamp
  owned : ∀ key, ∀ m ∈ h ⟨Catalog.system, Catalog.tables, key⟩, ∀ path d, m.Deletes path d →
    ∃ m' ∈ h ⟨Catalog.system, Catalog.columns, key⟩, ∃ d', m'.Deletes path d' ∧
      d.markedAt ≤ d'.markedAt

namespace Regular

variable {h h' : PartitionId → List Modification}

theorem of_parts (hp : ∀ id, ∀ m ∈ h id, ∃ h', Regular h' ∧ m ∈ h' id ∧ ∀ id', h' id' ⊆ h id') :
    Regular h where
  rows family hf key := .of_parts fun m hm =>
    have ⟨h', hr, hm', hs⟩ := hp _ m hm
    ⟨_, hs _, hm', hr.rows family hf key⟩
  owner key t column leaf c hm := by
    have ⟨h', hr, hm', hs⟩ := hp _ _ hm
    have ⟨c', hc', ht⟩ := hr.owner key t column leaf c hm'
    exact ⟨c', hs _ hc', ht⟩
  owned key m hm path d hd := by
    have ⟨h', hr, hm', hs⟩ := hp _ _ hm
    have ⟨m', hc, hd'⟩ := hr.owned key m hm' path d hd
    exact ⟨m', hs _ hc, hd'⟩

theorem nil : Regular fun _ => [] :=
  of_parts (by simp)

theorem append (hr : Regular h) (hr' : Regular h') : Regular fun id => h id ++ h' id :=
  of_parts fun _ _ hm =>
    match List.mem_append.mp hm with
    | .inl hm => ⟨h, hr, hm, fun _ => List.subset_append_left ..⟩
    | .inr hm => ⟨h', hr', hm, fun _ => List.subset_append_right ..⟩

theorem batchOn {batch : List Mutation} (hb : ∀ m ∈ batch, Regular m.on) :
    Regular (batchOn batch) :=
  of_parts fun _ _ hm =>
    have ⟨m, hm', ho⟩ := mem_batchOn.mp hm
    ⟨m.on, hb m hm', ho, fun _ _ ho => mem_batchOn.mpr ⟨m, hm', ho⟩⟩

-- Nothing but the schema tables counts.
theorem congr (hr : Regular h)
    (he : ∀ family ∈ Catalog.schema, ∀ key,
      h ⟨Catalog.system, family, key⟩ = h' ⟨Catalog.system, family, key⟩) : Regular h' where
  rows family hf key := he family hf key ▸ hr.rows family hf key
  owner key := by
    rw [← he _ Catalog.columns_mem_schema, ← he _ Catalog.tables_mem_schema]
    exact hr.owner key
  owned key := by
    rw [← he _ Catalog.columns_mem_schema, ← he _ Catalog.tables_mem_schema]
    exact hr.owned key

-- A table is live while one of its columns is.
theorem exists_live_owner (hr : Regular h) {tables columns : Partition} {key : Bytes}
    (ht : tables.Reflects (h ⟨Catalog.system, Catalog.tables, key⟩))
    (hc : columns.Reflects (h ⟨Catalog.system, Catalog.columns, key⟩)) {t column leaf : String}
    {c : Stamped} (hl : columns.cells[[t, column, leaf]]? = some c) :
    ∃ c', tables.cells[[t, Row.marker]]? = some c' ∧ c.timestamp ≤ c'.timestamp := by
  have hg := (isLive_iff.mp (hc.getElem?_eq_some_iff.mp hl)).left
  have ⟨c', hm, hle⟩ := hr.owner key t column leaf c hg.left
  refine ht.exists_live_of_not_covered hm hle fun ⟨m, hm, path, d, hd, hp, hle'⟩ => hg.right ?_
  have hlen := (hr.rows Catalog.tables Catalog.tables_mem_schema key).deletion m hm path d hd
  have ⟨m', hm', d', hd', hdd⟩ := hr.owned key m hm path d hd
  have hpt : path <+: [t] :=
    List.prefix_of_prefix_length_le hp ⟨[Row.marker], rfl⟩ hlen
  have htd : c.timestamp ≤ d'.markedAt := Std.le_trans hle (Std.le_trans hle' hdd)
  exact ⟨m', hm', path, d', hd', hpt.trans ⟨[column, leaf], rfl⟩, htd⟩

end Regular

namespace Storage

-- The schema tables have a regular history.
def IsRegular (s : Storage) : Prop :=
  ∃ h, s.Reflects h ∧ Regular h

variable {s s' : Storage} {w : PartitionId → List Modification}

theorem isRegular_empty : IsRegular ∅ :=
  ⟨_, reflects_empty, .nil⟩

theorem IsRegular.writes (hs : s.IsRegular) (hw : s.Writes w s') (hr : Regular w) : s'.IsRegular :=
  have ⟨_, hp, hh⟩ := hs
  ⟨_, hp.writes hw, hh.append hr⟩

namespace IsRegular

variable {family name : String} {c : Cell}

theorem exists_path (hs : s.IsRegular) (hf : family ∈ Catalog.schema)
    (hc : c ∈ Stored.cells s family name) : ∃ path leaf, c.name = CellName.child path leaf ∧
      path.length = Row.depth family ∧ leaf ∈ Row.leaves family ∧ Row.Fits leaf c.value := by
  have ⟨_, hp, hr⟩ := hs
  exact (hr.rows family hf _).exists_path (hp _) (Stored.mem_cells.mp hc)

theorem readable (hs : s.IsRegular) (name : String) : Stored.Readable s name := by
  constructor
  case options =>
    intro c hc hp
    obtain ⟨path, leaf, he, hl, -, hf⟩ := hs.exists_path Catalog.keyspaces_mem_schema hc
    exact hf.isSome_readOptions? he hl hp
  case ids =>
    intro c hc
    obtain ⟨path, leaf, he, hl, -, hf⟩ := hs.exists_path Catalog.tables_mem_schema hc
    exact hf.checkId_eq_ok he hl
  case kinds =>
    intro c hc
    obtain ⟨path, leaf, he, hl, -, hf⟩ := hs.exists_path Catalog.columns_mem_schema hc
    exact hf.checkKind_eq_ok he hl

theorem exists_live (hs : s.IsRegular) (hf : family ∈ Catalog.schema) {path : CellName}
    {key : Bytes} {leaf leaf' : String} (hl : leaf' ∈ Row.leaves family)
    (hc : ∃ c, (s.partition ⟨Catalog.system, family, key⟩).cells[path.child leaf]? = some c) :
    ∃ c, (s.partition ⟨Catalog.system, family, key⟩).cells[path.child leaf']? = some c := by
  have ⟨_, hp, hr⟩ := hs
  have ⟨c, hc⟩ := hc
  obtain ⟨c', hc', -⟩ := (hr.rows family hf key).exists_live (hp _) hc hl
  exact ⟨c', hc'⟩

theorem present_iff (hs : s.IsRegular) (hf : family ∈ Catalog.schema) {path : CellName}
    (hd : path.length = Row.depth family) :
    Stored.present (Stored.cells s family name) path = true ↔
      ∃ c, (s.partition ⟨Catalog.system, family, Utf8.encode name⟩).cells[path.child Row.marker]? =
        some c := by
  rw [Stored.present_iff]
  constructor
  case mp =>
    rintro ⟨c, hc, hp⟩
    obtain ⟨path', leaf', he, hd', -, -⟩ := hs.exists_path hf hc
    have hn : path.child Row.marker = c.name := by
      refine hp.eq_of_length ?_
      rw [he, CellName.child, CellName.child, List.length_append, List.length_append, hd, hd']
      rfl
    exact ⟨_, hn ▸ Stored.mem_cells.mp hc⟩
  case mpr =>
    rintro ⟨c, hc⟩
    exact ⟨⟨c, path.child Row.marker⟩, Stored.mem_cells.mpr hc, List.prefix_rfl⟩

theorem identified (hs : s.IsRegular) (name : String) : Stored.Identified s name := by
  intro t ht
  have hm := (hs.present_iff Catalog.tables_mem_schema rfl).mp ht
  have ⟨c, hc⟩ := hs.exists_live Catalog.tables_mem_schema Row.id_mem_leaves hm
  rw [Option.isSome_iff_ne_none, ne_eq, Stored.value?_eq_none_iff]
  exact fun h => h ⟨c, _⟩ (Stored.mem_cells.mpr hc) List.prefix_rfl

end IsRegular
end Storage
end ClusterMetadata
