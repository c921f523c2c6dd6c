import ClusterMetadata.Proofs.Schema.Reading
import ClusterMetadata.Proofs.Schema.Rejection
import ClusterMetadata.Proofs.Storage.Prevailing

/-!
What it takes for a change to show. Where the change is about, a storage holds what the change
leaves if and only if nothing that it held before outlasts the change
(`Footprint.Describes.bears_iff_yields`).
-/

namespace ClusterMetadata

-- The rows that a change writes and the paths that it clears, at one instant, and where it is
-- about: the tables and the path in them.
structure Footprint where
  keyspace : String
  time     : Int64
  puts     : Rows
  clears   : CellName → Prop
  families : List String
  area     : CellName

-- The change clears nothing that it writes, and writes nothing elsewhere in its tables. It does
-- something.
structure Footprint.IsTidy (f : Footprint) : Prop where
  shaped   : f.puts.IsShaped
  disjoint : ∀ path cells path', f.puts path cells → f.clears path' → ¬path' <+: path
  schema   : ∀ family ∈ f.families, family ∈ Catalog.schema
  within   : ∀ family ∈ f.families, ∀ path cells, f.puts path cells →
    path.length = Row.depth family → f.area <+: path
  acts     : ∃ family ∈ f.families, (∃ n v, f.puts.Has family n v) ∨
    ∃ path, f.clears path ∧ path.length ≤ Row.depth family

-- The batch makes the change and leaves the other schema tables alone.
def Footprint.Describes (f : Footprint) (batch : List Mutation) : Prop :=
  ∃ m : Mutation, Rewrites m.on (Utf8.encode f.keyspace) f.time f.puts f.clears ∧
    ∀ family ∈ Catalog.schema, ∀ key,
      batchOn batch ⟨Catalog.system, family, key⟩ = m.on ⟨Catalog.system, family, key⟩

-- Nothing in the partition outlasts the change. It takes what the change writes, and what is live
-- where the change is about is written anew or cleared.
structure Partition.Yields (p : Partition) (family : String) (f : Footprint) : Prop where
  takes : ∀ n v, f.puts.Has family n v → p.Takes n ⟨v, f.time⟩
  gives : ∀ n c, p.cells[n]? = some c → f.area <+: n → (∃ v, f.puts.Has family n v) ∨
    ∃ path, f.clears path ∧ path.length ≤ Row.depth family ∧ path <+: n ∧ c.timestamp ≤ f.time

namespace Storage

def Yields (s : Storage) (f : Footprint) : Prop :=
  ∀ family ∈ f.families,
    (s.partition ⟨Catalog.system, family, Utf8.encode f.keyspace⟩).Yields family f

-- The storage holds what the change leaves where it is about.
def Bears (s : Storage) (f : Footprint) : Prop :=
  ∀ family ∈ f.families,
    (s.partition ⟨Catalog.system, family, Utf8.encode f.keyspace⟩).HoldsUnder family f.area f.puts

end Storage

theorem Table.HasRow.ne_nil {t : Table} {path : CellName} {cells : List (String × Bytes)}
    (hr : t.HasRow path cells) : path ≠ [] := by
  cases hr <;> simp

def Stored.hasKeyspace (s : Storage) (name : String) : Bool :=
  present (cells s Catalog.keyspaces name) []

section

variable {p : Partition} {s s' : Storage} {f : Footprint} {family : String} {key : Bytes}
  {w : PartitionId → List Modification} {n : CellName} {v : Bytes} {c : Stamped}

namespace Footprint.IsTidy

variable (hf : f.IsTidy) (hfam : family ∈ f.families)
  (hw : Rewrites w key f.time f.puts f.clears)

include hf hfam

theorem area_isPrefix (hh : f.puts.Has family n v) : f.area <+: n := by
  obtain ⟨path, cells, leaf, hrow, hl, -, rfl⟩ := hh
  exact (hf.within family hfam path cells hrow hl).trans (List.prefix_append ..)

include hw

-- No deletion of the change reaches what it writes.
theorem not_deletes (hh : f.puts.Has family n v) :
    ∀ m ∈ w ⟨Catalog.system, family, key⟩, ∀ path d, m.Deletes path d → ¬path <+: n := by
  intro m hm path d hd hp
  obtain ⟨row, cells, leaf, hrow, hl, -, rfl⟩ := hh
  have ⟨hc, hle⟩ := (hw.deletion family (hf.schema family hfam) path).mp ⟨m, hm, d, hd⟩
  exact hf.disjoint row cells path hrow hc
    (List.prefix_of_prefix_length_le hp (List.prefix_append ..) (hl ▸ hle))

theorem exists_foldl_iff_takes (hh : f.puts.Has family n v) :
    (∃ t, ((w ⟨Catalog.system, family, key⟩).foldl Partition.modify p).cells[n]? = some ⟨v, t⟩) ↔
      p.Takes n ⟨v, f.time⟩ := by
  have hs := hf.schema family hfam
  have hm : .write n ⟨v, f.time⟩ ∈ w ⟨Catalog.system, family, key⟩ :=
    (hw.write family hs n _).mpr ⟨rfl, hh⟩
  have hu : ∀ c, .write n c ∈ w ⟨Catalog.system, family, key⟩ → c = ⟨v, f.time⟩ := by
    intro c hc
    have ⟨ht, hh'⟩ := (hw.write family hs n c).mp hc
    exact Stamped.ext (hf.shaped.value_eq hs hh' hh) ht
  rw [Partition.getElem?_foldl_of_written hm hu (hf.not_deletes hfam hw hh),
    ← Partition.exists_write_iff]

theorem not_written (hn : ∀ v, ¬f.puts.Has family n v) :
    ∀ c, .write n c ∉ w ⟨Catalog.system, family, key⟩ :=
  fun c hm => hn c.value ((hw.write family (hf.schema family hfam) n c).mp hm).right

theorem holdsUnder_iff_yields :
    ((w ⟨Catalog.system, family, key⟩).foldl Partition.modify p).HoldsUnder family f.area f.puts ↔
      p.Yields family f := by
  have hs := hf.schema family hfam
  constructor
  case mp =>
    intro holds
    refine ⟨fun n v hh => ?_, fun n c hc ha => ?_⟩
    · rw [← hf.exists_foldl_iff_takes hfam hw hh]
      exact (holds n v (hf.area_isPrefix hfam hh)).mpr hh
    · refine or_iff_not_imp_left.mpr fun hn => ?_
      rw [not_exists] at hn
      by_contra hkept
      refine hn c.value ((holds n c.value ha).mp ⟨c.timestamp, ?_⟩)
      refine (Partition.getElem?_foldl_of_unwritten (hf.not_written hfam hw hn)).mpr ⟨hc, ?_⟩
      intro m hm path d hd hp
      have ⟨hclear, hl⟩ := (hw.deletion family hs path).mp ⟨m, hm, d, hd⟩
      have ht : d.markedAt = f.time := hd.timestamp_eq ▸ hw.timestamp _ m hm
      refine Std.not_le.mp fun hle => hkept ⟨path, hclear, hl, hp, ht ▸ hle⟩
  case mpr =>
    intro yields n v ha
    by_cases hn : ∃ v, f.puts.Has family n v
    case pos =>
      obtain ⟨v', hh⟩ := hn
      have ⟨t', hc⟩ := (hf.exists_foldl_iff_takes hfam hw hh).mpr (yields.takes n v' hh)
      rw [hc]
      constructor
      case mp  => rintro ⟨t, ⟨⟩⟩; exact hh
      case mpr => exact fun hh' => ⟨t', by rw [hf.shaped.value_eq hs hh hh']⟩
    case neg =>
      rw [not_exists] at hn
      refine iff_of_false (fun ⟨t, hc⟩ => ?_) (hn v)
      have ⟨hc, hkept⟩ :=
        (Partition.getElem?_foldl_of_unwritten (hf.not_written hfam hw hn)).mp hc
      have ⟨path, hclear, hl, hp, hle⟩ :=
        (yields.gives n _ hc ha).resolve_left fun ⟨v, hh⟩ => hn v hh
      have ⟨m, hm, d, hd⟩ := (hw.deletion family hs path).mpr ⟨hclear, hl⟩
      have ht : d.markedAt = f.time := hd.timestamp_eq ▸ hw.timestamp _ m hm
      exact Std.not_le.mpr (ht ▸ hkept m hm path d hd hp) hle

end Footprint.IsTidy

-- What is written for a table and for what is dropped of it.
theorem Footprint.isTidy_of_table {t : Table} (ht : t.Keyed) (hp : f.puts = t.HasRow)
    (hc : ∀ path, f.clears path → ∃ old : Table,
      path ∈ (old.droppedColumns t).map fun c => [old.name, c])
    (hf : f.families = [Catalog.tables, Catalog.columns]) (ha : f.area = [t.name]) : f.IsTidy where
  shaped := hp ▸ ht.isShaped
  disjoint path cells path' hr hc' := by
    have ⟨old, hm⟩ := hc path' hc'
    exact ht.not_prefix_of_dropped (hp ▸ hr) hm
  schema family hm := by
    rw [hf] at hm
    rcases List.mem_pair.mp hm with rfl | rfl
    · exact Catalog.tables_mem_schema
    · exact Catalog.columns_mem_schema
  within family _ path cells hr _ := by
    rw [ha]
    rw [hp] at hr
    exact hr.singleton_prefix_iff.mpr rfl
  acts := by
    refine ⟨Catalog.tables, by simp [hf], .inl ⟨[t.name, Row.marker], [], ?_⟩⟩
    rw [hp]
    exact ⟨[t.name], t.cells, Row.marker, .table, rfl, by simp [Table.cells], rfl⟩

namespace Footprint.Describes

variable {batch : List Mutation} {m : Mutation}

theorem of_rewrites (hm : Rewrites m.on (Utf8.encode f.keyspace) f.time f.puts f.clears) :
    f.Describes [m] :=
  ⟨m, hm, fun _ _ _ => List.flatMap_singleton ..⟩

variable (hd : f.Describes batch)

include hd

theorem bears_iff_yields (hf : f.IsTidy) (hs : s.Writes (batchOn batch) s') :
    s'.Bears f ↔ s.Yields f := by
  obtain ⟨m, hm, hb⟩ := hd
  refine forall₂_congr fun family hfam => ?_
  rw [hs.partition, hb family (hf.schema family hfam)]
  exact hf.holdsUnder_iff_yields hfam hm

theorem mem_touchedKeyspaces (hf : f.IsTidy) : f.keyspace ∈ Schema.touchedKeyspaces batch := by
  obtain ⟨m, hm, hb⟩ := hd
  obtain ⟨family, hfam, hacts⟩ := hf.acts
  have hs := hf.schema family hfam
  have ht : Utf8.lossy (Utf8.encode f.keyspace) ∈ Schema.touchedKeyspaces batch := by
    refine Schema.keyText_mem_touched (by simpa [Catalog.isSchema] using hs) fun he => ?_
    rw [hb family hs] at he
    rcases hacts with ⟨n, v, hh⟩ | ⟨path, hc⟩
    · have hw := (hm.write family hs n ⟨v, f.time⟩).mpr ⟨rfl, hh⟩
      rw [he] at hw
      cases hw
    · obtain ⟨_, hw, -⟩ := (hm.deletion family hs path).mpr hc
      rw [he] at hw
      cases hw
  simpa using ht

-- A change that is about tables leaves alone which keyspaces exist.
theorem hasKeyspace_eq (hp : ∀ path cells, f.puts path cells → path ≠ [])
    (hc : ∀ path, f.clears path → path ≠ []) (hs : s.Writes (batchOn batch) s')
    (keyspace : String) :
    Stored.hasKeyspace s' keyspace = Stored.hasKeyspace s keyspace := by
  obtain ⟨m, hm, hb⟩ := hd
  let id : PartitionId := ⟨Catalog.system, Catalog.keyspaces, Utf8.encode keyspace⟩
  have unchanged : m.on id = [] := by
    refine List.eq_nil_iff_forall_not_mem.mpr fun mod hmod => ?_
    have hkey := hm.key_eq hmod
    have hfam := Catalog.keyspaces_mem_schema
    have undeleted (path d) (hdel : mod.Deletes path d) : False := by
      have ⟨hclear, hl⟩ := (hm.deletion _ hfam path).mp ⟨mod, hkey ▸ hmod, d, hdel⟩
      exact hc path hclear (List.length_eq_zero_iff.mp (Nat.le_zero.mp hl))
    cases mod
    case write n c =>
      obtain ⟨-, path, cells, _, hrow, hl, -⟩ := (hm.write _ hfam n c).mp (hkey ▸ hmod)
      exact hp path cells hrow (List.length_eq_zero_iff.mp hl)
    case tombstone path d      => exact undeleted path d (.tombstone path d)
    case rangeTombstone path d => exact undeleted path d (.rangeTombstone path d)
  have he : s'.partition id = s.partition id := by
    rw [hs.partition, hb _ Catalog.keyspaces_mem_schema, unchanged]
    rfl
  simp only [Stored.hasKeyspace, Stored.cells, Storage.read, id] at he ⊢
  rw [he]

end Footprint.Describes

-- No cell is live under the marker of the row.
theorem Stored.holdsUnder_marker_iff {keyspace : String} {path : CellName} :
    (s.partition ⟨Catalog.system, family, Utf8.encode keyspace⟩).HoldsUnder family
        (path.child Row.marker) (fun _ _ => False) ↔
      present (cells s family keyspace) path = false := by
  rw [← Bool.not_eq_true, present_iff]
  constructor
  case mp =>
    rintro holds ⟨c, hc, hp⟩
    have ⟨_, _, _, hr, _⟩ := (holds c.name c.value hp).mp ⟨c.timestamp, mem_cells.mp hc⟩
    exact hr
  case mpr =>
    intro hn n v hp
    refine ⟨fun ⟨time, hc⟩ => absurd ?_ hn, fun ⟨_, _, _, hr, _⟩ => hr.elim⟩
    exact ⟨⟨⟨v, time⟩, n⟩, mem_cells.mpr hc, hp⟩

namespace Replica.Shows

variable {r : Replica} {keyspace name : String}

theorem exists_reading (h : r.Shows name) :
    ∃ fresh, r.schema.keyspace name = Stored.reading r.storage name fresh :=
  have ⟨fresh, hk⟩ := h
  ⟨fresh, (Stored.keyspace_eq_ok_iff.mp hk).right.symm⟩

theorem keyspace_eq_none_iff (h : r.Shows name) :
    r.schema.keyspace name = none ↔ Stored.hasKeyspace r.storage name = false := by
  have ⟨fresh, hr⟩ := h.exists_reading
  have hs : (Stored.reading r.storage name fresh).isSome ↔
      Stored.hasKeyspace r.storage name = true := Stored.isSome_reading_iff
  rw [hr, ← Bool.not_eq_true, ← hs]
  simp

-- A table is shown as it is read, if its keyspace exists.
theorem exists_table_eq (h : r.Shows keyspace) : ∃ fresh, ∀ name, r.schema.table keyspace name =
    if Stored.hasKeyspace r.storage keyspace then (Stored.tableMap r.storage keyspace fresh)[name]?
    else none := by
  have ⟨fresh, hr⟩ := h.exists_reading
  refine ⟨fresh, fun name => ?_⟩
  change (r.schema.keyspace keyspace).bind (·.tables[name]?) = _
  rw [hr, Stored.reading, Stored.hasKeyspace]
  split <;> rfl

theorem table_eq_none_iff (h : r.Shows keyspace) : r.schema.table keyspace name = none ↔
    (Stored.hasKeyspace r.storage keyspace →
      Stored.present (Stored.cells r.storage Catalog.tables keyspace) [name] = false) := by
  have ⟨fresh, ht⟩ := h.exists_table_eq
  have hs : (∃ d, (Stored.tableMap r.storage keyspace fresh)[name]? = some d) ↔
      Stored.present (Stored.cells r.storage Catalog.tables keyspace) [name] = true :=
    Stored.exists_getElem?_tableMap
  rw [ht, ← Bool.not_eq_true, ← hs]
  split
  case isTrue hs  => simp [hs, Option.eq_none_iff_forall_ne_some]
  case isFalse hs => simp [hs]

end Replica.Shows

end

end ClusterMetadata
