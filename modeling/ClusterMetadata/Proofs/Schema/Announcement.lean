import ClusterMetadata.Proofs.Schema.Content
import ClusterMetadata.Proofs.Text.OptionMap
import ClusterMetadata.Schema.Rows

/-!
What the announcement of a definition writes and deletes: the rows of the definition
(`rewrites_creation`, `rewrites_alteration`), and for what is dropped the path that leads to its
rows (`rewrites_removal`).
-/

namespace ClusterMetadata

namespace Stored

@[simp]
theorem readOptions?_encode_render (options : SortedMap String String) :
    readOptions? (Utf8.encode (OptionMap.render options)) = some options := by
  simp [readOptions?, OptionMap.parse?_render]

@[simp]
theorem readId?_encode_toText (id : Uuid) : readId? (Utf8.encode id.toText) = some id := by
  simp [readId?, Uuid.parse?_toText]

@[simp]
theorem readKind?_encode_toText (kind : ColumnKind) :
    readKind? (Utf8.encode kind.toText) = some kind := by
  simp [readKind?]

end Stored

namespace Column

-- The row of a column.
def cells (c : Column) : List (String × Bytes) :=
  [(Row.marker, []), (Row.validator, Utf8.encode c.validator),
   (Row.kind, Utf8.encode c.kind.toText)]

theorem fits (c : Column) : ∀ cell ∈ c.cells, Row.Fits cell.1 cell.2 := by
  intro cell hc
  simp only [cells, List.mem_cons, List.not_mem_nil, or_false] at hc
  obtain rfl | rfl | rfl := hc
  all_goals
    constructor <;> simp [Row.marker, Row.validator, Row.kind, Row.strategyOptions, Row.id]

end Column

namespace Table

-- The row of a table alone.
def cells (t : Table) : List (String × Bytes) :=
  [(Row.marker, []), (Row.id, Utf8.encode t.id.toText), (Row.comment, Utf8.encode t.comment)]

-- The rows of a table and its columns.
inductive HasRow (t : Table) : CellName → List (String × Bytes) → Prop
  | table : HasRow t [t.name] t.cells
  | column {key : String} {c : Column} (hc : t.columns[key]? = some c) :
      HasRow t [t.name, c.name] c.cells

theorem fits (t : Table) : ∀ cell ∈ t.cells, Row.Fits cell.1 cell.2 := by
  intro cell hc
  simp only [cells, List.mem_cons, List.not_mem_nil, or_false] at hc
  obtain rfl | rfl | rfl := hc
  all_goals
    constructor <;> simp [Row.marker, Row.id, Row.comment, Row.kind, Row.strategyOptions]

theorem isWhole (t : Table) : Rows.IsWhole t.HasRow where
  leaves family hf path cells hr hl := by
    cases hr
    case table =>
      obtain rfl := Row.depth_inj hf Catalog.tables_mem_schema hl.symm
      rfl
    case column =>
      obtain rfl := Row.depth_inj hf Catalog.columns_mem_schema hl.symm
      rfl
  fits path cells hr := by
    cases hr
    case table      => exact t.fits
    case column c _ => exact c.fits
  owner t' column cells hr := by
    cases hr
    exact ⟨t.cells, .table⟩

theorem rows_eq (t : Table) (timestamp : Int64) :
    t.rows timestamp =
      [(Catalog.tables, Row.write [t.name] timestamp t.cells),
       (Catalog.columns, t.columns.values.flatMap (Column.rows t.name timestamp))] :=
  rfl

end Table

namespace Keyspace

-- The row of a keyspace alone.
def cells (k : Keyspace) : List (String × Bytes) :=
  [(Row.marker, []), (Row.durableWrites, Utf8.encode (toString k.durableWrites)),
   (Row.strategyClass, Utf8.encode k.strategyClass),
   (Row.strategyOptions, Utf8.encode (OptionMap.render k.strategyOptions))]

-- The rows of a keyspace, its tables and their columns.
inductive HasRow (k : Keyspace) : CellName → List (String × Bytes) → Prop
  | keyspace : HasRow k [] k.cells
  | table {key : String} {t : Table} {path : CellName} {cells : List (String × Bytes)}
      (ht : k.tables[key]? = some t) (hr : t.HasRow path cells) : HasRow k path cells

theorem fits (k : Keyspace) : ∀ cell ∈ k.cells, Row.Fits cell.1 cell.2 := by
  intro cell hc
  simp only [cells, List.mem_cons, List.not_mem_nil, or_false] at hc
  obtain rfl | rfl | rfl | rfl := hc
  all_goals
    constructor <;>
      simp [Row.marker, Row.durableWrites, Row.strategyClass, Row.kind, Row.strategyOptions, Row.id]

theorem isWhole_cells (k : Keyspace) :
    Rows.IsWhole fun path cells => path = [] ∧ cells = k.cells where
  leaves := by
    rintro family hf path cells ⟨rfl, rfl⟩ hl
    obtain rfl := Row.depth_inj hf Catalog.keyspaces_mem_schema hl.symm
    rfl
  fits := by
    rintro path cells ⟨-, rfl⟩
    exact k.fits
  owner := by simp

theorem isWhole (k : Keyspace) : Rows.IsWhole k.HasRow where
  leaves family hf path cells hr hl := by
    cases hr
    case keyspace      => exact k.isWhole_cells.leaves family hf [] _ ⟨rfl, rfl⟩ hl
    case table t ht hr => exact t.isWhole.leaves family hf path cells hr hl
  fits path cells hr := by
    cases hr
    case keyspace      => exact k.fits
    case table t ht hr => exact t.isWhole.fits path cells hr
  owner t' column cells hr := by
    cases hr
    case table t ht hr =>
      have ⟨cells', hr'⟩ := t.isWhole.owner t' column cells hr
      exact ⟨cells', .table ht hr'⟩

end Keyspace

-- The modification is among those for the table.
def InParts (parts : List (String × List Modification)) (family : String) (m : Modification) :
    Prop :=
  ∃ mods, (family, mods) ∈ parts ∧ m ∈ mods

-- What the parts of a mutation write and delete in the schema tables.
structure PartsRewrite (parts : List (String × List Modification)) (t : Int64) (puts : Rows)
    (clears : CellName → Prop) : Prop where
  write     : ∀ family ∈ Catalog.schema, ∀ n c,
    InParts parts family (.write n c) ↔ c.timestamp = t ∧ puts.Has family n c.value
  deletion  : ∀ family ∈ Catalog.schema, ∀ path,
    (∃ m d, InParts parts family m ∧ m.Deletes path d) ↔
      clears path ∧ path.length ≤ Row.depth family
  timestamp : ∀ family m, InParts parts family m → m.timestamp = t

section

variable {parts parts' : List (String × List Modification)} {family family' : String}
  {m : Modification} {mods : List Modification}

theorem inParts_append :
    InParts (parts ++ parts') family m ↔ InParts parts family m ∨ InParts parts' family m := by
  simp only [InParts, List.mem_append, or_and_right, exists_or]

theorem inParts_cons : InParts ((family', mods) :: parts) family m ↔
    family = family' ∧ m ∈ mods ∨ InParts parts family m := by
  simp only [InParts, List.mem_cons, Prod.mk.injEq, or_and_right, exists_or, and_assoc,
    exists_and_left, exists_eq_left]

theorem not_inParts_nil : ¬InParts [] family m := by
  simp [InParts]

theorem inParts_singleton : InParts [(family', mods)] family m ↔ family = family' ∧ m ∈ mods := by
  rw [inParts_cons, or_iff_left not_inParts_nil]

end

namespace PartsRewrite

variable {parts parts' : List (String × List Modification)} {t : Int64} {puts puts' : Rows}
  {clears clears' : CellName → Prop} {key : Bytes} {family : String}

theorem rewrites (h : PartsRewrite parts t puts clears) :
    Rewrites (Mutation.ofFamilies Catalog.system key parts).on key t puts clears where
  write family hf n c := by
    rw [← h.write family hf n c, Mutation.mem_on_ofFamilies]
    simp [InParts]
  deletion family hf path := by
    rw [← h.deletion family hf path]
    simp [Mutation.mem_on_ofFamilies, InParts]
  timestamp id m hm := h.timestamp id.table m (Mutation.mem_on_ofFamilies.mp hm).right.right
  elsewhere family key' hk := by
    refine List.eq_nil_iff_forall_not_mem.mpr fun m hm => hk ?_
    exact (Mutation.mem_on_ofFamilies.mp hm).right.left.symm

theorem congr (h : PartsRewrite parts t puts clears)
    (hm : ∀ family m, InParts parts family m ↔ InParts parts' family m)
    (hp : ∀ path cells, puts path cells ↔ puts' path cells)
    (hc : ∀ path, clears path ↔ clears' path) : PartsRewrite parts' t puts' clears' := by
  obtain rfl : puts = puts' := funext fun path => funext fun cells => propext (hp path cells)
  obtain rfl : clears = clears' := funext fun path => propext (hc path)
  exact ⟨fun family hf n c => (hm ..).symm.trans (h.write family hf n c),
    fun family hf path => by simp only [← hm, h.deletion family hf],
    fun family m hmem => h.timestamp family m ((hm ..).mpr hmem)⟩

theorem append (h : PartsRewrite parts t puts clears) (h' : PartsRewrite parts' t puts' clears') :
    PartsRewrite (parts ++ parts') t (fun path cells => puts path cells ∨ puts' path cells)
      (fun path => clears path ∨ clears' path) where
  write family hf n c := by
    simp only [inParts_append, h.write family hf, h'.write family hf, Rows.Has, or_and_right,
      exists_or, ← and_or_left]
  deletion family hf path := by
    simp only [inParts_append, or_and_right, exists_or, h.deletion family hf, h'.deletion family hf]
  timestamp family m hm :=
    (inParts_append.mp hm).elim (h.timestamp family m) (h'.timestamp family m)

theorem nil : PartsRewrite [] t (fun _ _ => False) (fun _ => False) := by
  constructor <;> simp [InParts, Rows.Has]

theorem flatMap {α : Type} {as : List α} {f : α → List (String × List Modification)}
    {puts : α → Rows} (h : ∀ a, PartsRewrite (f a) t (puts a) fun _ => False) :
    PartsRewrite (as.flatMap f) t (fun path cells => ∃ a ∈ as, puts a path cells)
      fun _ => False := by
  induction as
  case nil          => exact nil.congr (fun _ _ => Iff.rfl) (by simp) (by simp)
  case cons a as hi => exact ((h a).append hi).congr (fun _ _ => Iff.rfl) (by simp) (by simp)

theorem row {path : CellName} {cells : List (String × Bytes)} (hf : family ∈ Catalog.schema)
    (hl : path.length = Row.depth family) : PartsRewrite [(family, Row.write path t cells)] t
      (fun path' cells' => path' = path ∧ cells' = cells) fun _ => False where
  write family' hf' n c := by
    rw [inParts_singleton, Row.mem_write]
    constructor
    case mp =>
      rintro ⟨rfl, leaf, hm, hn, ht⟩
      exact ⟨ht, path, cells, leaf, ⟨rfl, rfl⟩, hl, hm, hn⟩
    case mpr =>
      rintro ⟨ht, _, _, leaf, ⟨rfl, rfl⟩, hl', hm, hn⟩
      exact ⟨Row.depth_inj hf' hf (hl'.symm.trans hl), leaf, hm, hn, ht⟩
  deletion family' hf' path' := by
    refine iff_of_false ?_ (by simp)
    rintro ⟨m, d, hm, hd⟩
    have hi := Row.isDeletion_of_mem_write (inParts_singleton.mp hm).right
    cases hd <;> cases hi
  timestamp family' m hm := by
    obtain ⟨_, -, rfl⟩ := List.mem_map.mp (inParts_singleton.mp hm).right
    rfl

-- Deletions of one length, with all the tables that they reach into.
theorem deletions {paths : List CellName} {d : DeletionTime}
    (hm : ∀ family ∈ Catalog.schema, ∀ m, InParts parts family m ↔
      ∃ path ∈ paths, m = .rangeTombstone path d ∧ path.length ≤ Row.depth family)
    (hs : ∀ family m, InParts parts family m → family ∈ Catalog.schema) :
    PartsRewrite parts d.markedAt (fun _ _ => False) (· ∈ paths) where
  write family hf n c := by simp [hm family hf, Rows.Has]
  deletion family hf path := by
    simp only [hm family hf]
    constructor
    case mp  => rintro ⟨m, d, ⟨path, hp, rfl, hl⟩, hd⟩; cases hd; exact ⟨hp, hl⟩
    case mpr => exact fun ⟨hp, hl⟩ => ⟨_, d, ⟨path, hp, rfl, hl⟩, .rangeTombstone path d⟩
  timestamp family m hm' := by
    obtain ⟨path, -, rfl, -⟩ := (hm family (hs family m hm') m).mp hm'
    rfl

end PartsRewrite

namespace Table

variable {t old new : Table} {timestamp : Int64} {d : DeletionTime}

theorem partsRewrite_rows (t : Table) (timestamp : Int64) :
    PartsRewrite (t.rows timestamp) timestamp t.HasRow fun _ => False := by
  have hc : PartsRewrite
      (t.columns.values.flatMap fun c => [(Catalog.columns, c.rows t.name timestamp)]) timestamp
      (fun path cells => ∃ c ∈ t.columns.values, path = [t.name, c.name] ∧ cells = c.cells)
      fun _ => False :=
    .flatMap fun c => .row Catalog.columns_mem_schema rfl
  have ht : PartsRewrite [(Catalog.tables, Row.write [t.name] timestamp t.cells)] timestamp
      (fun path cells => path = [t.name] ∧ cells = t.cells) fun _ => False :=
    .row Catalog.tables_mem_schema rfl
  refine (ht.append hc).congr (fun family m => ?_) (fun path cells => ?_) (by simp)
  · rw [rows_eq, inParts_append, inParts_singleton, inParts_cons]
    refine or_congr_right ?_
    rw [inParts_singleton]
    simp only [InParts, List.mem_flatMap, List.mem_singleton, Prod.mk.injEq]
    constructor
    case mp  => rintro ⟨_, ⟨c, hc, rfl, rfl⟩, hm⟩; exact ⟨rfl, c, hc, hm⟩
    case mpr => rintro ⟨rfl, c, hc, hm⟩; exact ⟨_, ⟨c, hc, rfl, rfl⟩, hm⟩
  · constructor
    case mp =>
      rintro (⟨rfl, rfl⟩ | ⟨c, hc, rfl, rfl⟩)
      case inl => exact .table
      case inr =>
        obtain ⟨_, hc⟩ := SortedMap.mem_values.mp hc
        exact .column hc
    case mpr =>
      intro hr
      cases hr
      case table     => exact .inl ⟨rfl, rfl⟩
      case column hc => exact .inr ⟨_, SortedMap.mem_values.mpr ⟨_, hc⟩, rfl, rfl⟩

theorem rewrites_creation :
    Rewrites (t.creation timestamp).on (Utf8.encode t.keyspace) timestamp t.HasRow fun _ => False :=
  (t.partsRewrite_rows timestamp).rewrites

theorem rewrites_alteration :
    Rewrites (old.alteration new d).on (Utf8.encode new.keyspace) d.markedAt new.HasRow
      (· ∈ (old.droppedColumns new).map fun c => [old.name, c]) := by
  have hd : PartsRewrite
      [(Catalog.columns, (old.droppedColumns new).map fun c => .rangeTombstone [old.name, c] d)]
      d.markedAt (fun _ _ => False) (· ∈ (old.droppedColumns new).map fun c => [old.name, c]) := by
    refine .deletions (fun family hf m => ?_) fun family m hm => ?_
    · rw [inParts_singleton, List.mem_map]
      simp only [List.mem_map, exists_exists_and_eq_and]
      constructor
      case mp  => rintro ⟨rfl, c, hc, rfl⟩; exact ⟨c, hc, rfl, Nat.le_refl _⟩
      case mpr =>
        rintro ⟨c, hc, rfl, hl⟩
        refine ⟨Row.depth_inj hf Catalog.columns_mem_schema (Nat.le_antisymm ?_ hl), c, hc, rfl⟩
        exact Row.depth_le_two family
    · simp [(inParts_singleton.mp hm).left, Catalog.schema]
  have h : PartsRewrite _ d.markedAt new.HasRow _ :=
    ((new.partsRewrite_rows d.markedAt).append hd).congr (fun _ _ => Iff.rfl)
      (fun _ _ => iff_of_eq (or_false _)) fun _ => iff_of_eq (false_or _)
  rw [alteration, creation, Mutation.extend_ofFamilies]
  exact h.rewrites

theorem fst_mem_schema_of_mem_rows {f : String × List Modification} (hf : f ∈ t.rows timestamp) :
    f.1 ∈ Catalog.schema := by
  simp only [rows_eq, List.mem_cons, List.not_mem_nil, or_false] at hf
  obtain rfl | rfl := hf
  · exact Catalog.tables_mem_schema
  · exact Catalog.columns_mem_schema

-- Nothing but the schema tables is altered.
theorem alteration_on_eq_nil {id : PartitionId} (h : id.table ∉ Catalog.schema) :
    (old.alteration new d).on id = [] := by
  rw [alteration, creation, Mutation.extend_ofFamilies]
  refine Mutation.on_ofFamilies_eq_nil fun f hf he => h (he ▸ ?_)
  rcases List.mem_append.mp hf with hf | hf
  · exact fst_mem_schema_of_mem_rows hf
  · exact List.mem_singleton.mp hf ▸ Catalog.columns_mem_schema

theorem rewrites_removal : Rewrites (t.removal d).on (Utf8.encode t.keyspace) d.markedAt
    (fun _ _ => False) (· ∈ [[t.name]]) := by
  refine PartsRewrite.rewrites (.deletions (fun family hf m => ?_) fun family m hm => ?_)
  · simp only [inParts_cons, not_inParts_nil, List.mem_singleton, exists_eq_left, or_false]
    simp only [Catalog.schema, List.mem_cons, List.not_mem_nil, or_false] at hf
    obtain rfl | rfl | rfl := hf <;>
      simp [Catalog.keyspaces, Catalog.tables, Catalog.columns, Row.depth]
  · rw [inParts_cons, inParts_singleton] at hm
    obtain ⟨rfl, -⟩ | ⟨rfl, -⟩ := hm <;> simp [Catalog.schema]

end Table

namespace Keyspace

variable {k : Keyspace} {timestamp : Int64} {d : DeletionTime}

theorem partsRewrite_attributeRows (k : Keyspace) (timestamp : Int64) :
    PartsRewrite (k.attributeRows timestamp) timestamp
      (fun path cells => path = [] ∧ cells = k.cells) fun _ => False :=
  .row Catalog.keyspaces_mem_schema rfl

theorem rewrites_alteration : Rewrites (k.alteration timestamp).on (Utf8.encode k.name) timestamp
    (fun path cells => path = [] ∧ cells = k.cells) fun _ => False :=
  (k.partsRewrite_attributeRows timestamp).rewrites

theorem rewrites_creation :
    Rewrites (k.creation timestamp).on (Utf8.encode k.name) timestamp k.HasRow fun _ => False := by
  have ht : PartsRewrite (k.tables.values.flatMap (·.rows timestamp)) timestamp
      (fun path cells => ∃ t ∈ k.tables.values, t.HasRow path cells) fun _ => False :=
    .flatMap fun t => t.partsRewrite_rows timestamp
  have hk := (k.partsRewrite_attributeRows timestamp).append ht
  rw [creation, alteration, Mutation.extendAll_ofFamilies]
  refine (hk.congr (fun _ _ => Iff.rfl) (fun path cells => ?_) (by simp)).rewrites
  · constructor
    case mp =>
      rintro (⟨rfl, rfl⟩ | ⟨t, hm, hr⟩)
      case inl => exact .keyspace
      case inr =>
        have ⟨_, ht⟩ := SortedMap.mem_values.mp hm
        exact .table ht hr
    case mpr =>
      intro hr
      cases hr
      case keyspace    => exact .inl ⟨rfl, rfl⟩
      case table ht hr => exact .inr ⟨_, SortedMap.mem_values.mpr ⟨_, ht⟩, hr⟩

theorem creation_on_eq_nil {id : PartitionId} (h : id.table ∉ Catalog.schema) :
    (k.creation timestamp).on id = [] := by
  rw [creation, alteration, Mutation.extendAll_ofFamilies]
  refine Mutation.on_ofFamilies_eq_nil fun f hf he => h (he ▸ ?_)
  rcases List.mem_append.mp hf with hf | hf
  · exact List.mem_singleton.mp hf ▸ Catalog.keyspaces_mem_schema
  · have ⟨t, _, hf⟩ := List.mem_flatMap.mp hf
    exact Table.fst_mem_schema_of_mem_rows hf

theorem rewrites_removal : Rewrites (k.removal d).on (Utf8.encode k.name) d.markedAt
    (fun _ _ => False) (· ∈ [[]]) := by
  have parts_iff {family m} : InParts (Catalog.schema.map fun family =>
      (family, [Modification.rangeTombstone [] d])) family m ↔
      family ∈ Catalog.schema ∧ m = .rangeTombstone [] d := by
    simp only [InParts, List.mem_map, Prod.mk.injEq]
    constructor
    case mp  => rintro ⟨_, ⟨family, hf, rfl, rfl⟩, hm⟩; exact ⟨hf, List.mem_singleton.mp hm⟩
    case mpr => rintro ⟨hf, rfl⟩; exact ⟨_, ⟨family, hf, rfl, rfl⟩, List.mem_singleton_self _⟩
  refine PartsRewrite.rewrites (.deletions (fun family hf m => ?_) fun family m hm => ?_)
  · simp [parts_iff, hf]
  · exact (parts_iff.mp hm).left

end Keyspace

end ClusterMetadata
