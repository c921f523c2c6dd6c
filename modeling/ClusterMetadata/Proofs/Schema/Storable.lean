import ClusterMetadata.Proofs.Schema.Concurrent
import ClusterMetadata.Proofs.Schema.Footprint
import ClusterMetadata.Proofs.Schema.Refinement

/-!
Which accepted definitions a store gives back. Reading counts what is said below a path before what
the cell there says (`Stored.value?_cells`), so a change that is later than all there is shows as
far as nothing is said below its cells (`Footprint.Describes.value?_eq`). What is read is kept under
the names inside, and definitions come back if they are kept that way too
(`Replica.shows_accepted_iff`).
-/

namespace ClusterMetadata

namespace Stored

variable {s s' : Storage} {family keyspace name : String} {path : CellName} {fresh : Nat → Uuid}
  {k : Keyspace}

-- What is read is kept under the names inside.
theorem keyed_of_tableMap {key : String} {t : Table}
    (h : (tableMap s name fresh)[key]? = some t) : t.name = key ∧ t.Keyed := by
  obtain ⟨i, -, rfl⟩ := getElem?_tableMap.mp h
  refine ⟨rfl, fun column c hc => ?_⟩
  obtain ⟨-, rfl⟩ := getElem?_columns.mp hc
  rfl

theorem keyed_reading (h : reading s name fresh = some k) : k.Keyed :=
  fun _ _ ht => keyed_of_tableMap ((reading_eq_some h).right ▸ ht)

-- What is said below the path, by the last cell there.
def below (cs : List Cell) (path : CellName) : Option Bytes :=
  ((under cs path).filter (·.name ≠ path)).getLast?.map (·.value)

theorem mem_below {cs : List Cell} {c : Cell} :
    c ∈ (under cs path).filter (·.name ≠ path) ↔ c ∈ cs ∧ path <+: c.name ∧ c.name ≠ path := by
  simp [mem_under, and_assoc]

theorem ascending_below :
    Ascending (((under (cells s family keyspace) path).filter (·.name ≠ path)).map (·.name)) :=
  Partition.ascending_read.sublist ((List.filter_sublist.trans List.filter_sublist).map _)

-- What is said below the path counts before what the cell there says.
theorem value?_cells : value? (cells s family keyspace) path =
    (below (cells s family keyspace) path).or
      ((s.partition ⟨Catalog.system, family, Utf8.encode keyspace⟩).cells[path]?.map
        (·.value)) := by
  have ha : Ascending ((under (cells s family keyspace) path).map (·.name)) :=
    Partition.ascending_read.sublist (List.filter_sublist.map _)
  rw [value?, below]
  rcases List.eq_nil_or_concat (under (cells s family keyspace) path) with he | ⟨init, c, he⟩
  case inl =>
    have hn : (s.partition ⟨Catalog.system, family, Utf8.encode keyspace⟩).cells[path]? = none := by
      refine Option.eq_none_iff_forall_ne_some.mpr fun c hc => ?_
      have hm : ⟨c, path⟩ ∈ under (cells s family keyspace) path :=
        mem_under.mpr ⟨mem_cells.mpr hc, List.prefix_rfl⟩
      rw [he] at hm
      cases hm
    simp [he, hn]
  case inr =>
    have member : ∀ c' ∈ init ++ [c], c' ∈ cells s family keyspace ∧ path <+: c'.name :=
      fun c' hc' => mem_under.mp (by rwa [he, List.concat_eq_append])
    obtain ⟨hc, hp⟩ := member c (by simp)
    rw [he, List.concat_eq_append] at ha ⊢
    by_cases hn : c.name = path
    case neg => simp [hn]
    case pos =>
      -- The cell at the path stands before all cells below it.
      have hi : init = [] := by
        refine List.eq_nil_iff_forall_not_mem.mpr fun c' hc' => ?_
        rw [List.map_append, Ascending, List.pairwise_append] at ha
        have hlt := ha.right.right c'.name (List.mem_map_of_mem hc') c.name (by simp)
        obtain ⟨rest, hr⟩ := (member c' (List.mem_append_left _ hc')).right
        have hle := CellName.isLE_compare_append path rest
        rw [hn, ← hr, Std.OrientedOrd.eq_swap] at hlt
        cases h : compare path (path ++ rest) <;> simp_all
      rw [mem_cells, hn] at hc
      simp [hi, hn, hc]

theorem below_congr (h : ∀ n : CellName, path <+: n → n ≠ path →
      (s'.partition ⟨Catalog.system, family, Utf8.encode keyspace⟩).cells[n]? =
        (s.partition ⟨Catalog.system, family, Utf8.encode keyspace⟩).cells[n]?) :
    below (cells s' family keyspace) path = below (cells s family keyspace) path := by
  rw [below, below]
  refine congrArg (fun cs : List Cell => cs.getLast?.map (·.value)) ?_
  refine eq_of_ascending_map (f := Cell.name) ascending_below ascending_below fun c => ?_
  simp only [mem_below, mem_cells]
  refine and_congr_left fun ⟨hp, hn⟩ => ?_
  rw [h c.name hp hn]

end Stored

section

variable {f : Footprint} {batch : List Mutation} {s s' : Storage} {family : String} {n : CellName}

namespace Footprint.Describes

-- A change that is later than all there is.
variable (hd : f.Describes batch) (hf : f.IsTidy) (hs : s.Writes (batchOn batch) s')
  (hfam : family ∈ f.families)
  (hb : (s.partition ⟨Catalog.system, family, Utf8.encode f.keyspace⟩).IsBefore f.time)

include hd hf hs hfam hb

theorem getElem?_of_puts {v : Bytes} (hh : f.puts.Has family n v) :
    (s'.partition ⟨Catalog.system, family, Utf8.encode f.keyspace⟩).cells[n]? =
      some ⟨v, f.time⟩ := by
  obtain ⟨m, hm, hon⟩ := hd
  have hschema := hf.schema family hfam
  rw [hs.partition, hon family hschema, Partition.getElem?_foldl_of_written (c := ⟨v, f.time⟩)]
  · exact Partition.getElem?_write_of_later hb.not_shadowed (hb.cells n)
  · exact (hm.write family hschema n _).mpr ⟨rfl, hh⟩
  · intro c hc
    have ⟨ht, hh'⟩ := (hm.write family hschema n c).mp hc
    exact Stamped.ext (hf.shaped.value_eq hschema hh' hh) ht
  · exact hf.not_deletes hfam hm hh

theorem getElem?_of_not_puts {c : Stamped} (hn : ∀ v, ¬f.puts.Has family n v) :
    (s'.partition ⟨Catalog.system, family, Utf8.encode f.keyspace⟩).cells[n]? = some c ↔
      (s.partition ⟨Catalog.system, family, Utf8.encode f.keyspace⟩).cells[n]? = some c ∧
        ∀ path, f.clears path → path.length ≤ Row.depth family → ¬path <+: n := by
  obtain ⟨m, hm, hon⟩ := hd
  have hschema := hf.schema family hfam
  rw [hs.partition, hon family hschema,
    Partition.getElem?_foldl_of_unwritten (hf.not_written hfam hm hn)]
  refine and_congr_right fun hc => ?_
  constructor
  case mp =>
    intro later path hclear hl hp
    have ⟨mod, hmod, d, hdel⟩ := (hm.deletion family hschema path).mpr ⟨hclear, hl⟩
    have ht : d.markedAt = f.time := hdel.timestamp_eq ▸ hm.timestamp _ mod hmod
    exact Std.lt_irrefl (Std.lt_trans (ht ▸ later mod hmod path d hdel hp) (hb.cells n c hc))
  case mpr =>
    intro spared mod hmod path d hdel hp
    have ⟨hclear, hl⟩ := (hm.deletion family hschema path).mp ⟨mod, hmod, d, hdel⟩
    exact absurd hp (spared path hclear hl)

-- What is written counts, except for what has been said below it.
theorem value?_eq {path : CellName} {cells : List (String × Bytes)} {leaf : String} {v : Bytes}
    (hrow : f.puts path cells) (hl : path.length = Row.depth family) (hv : (leaf, v) ∈ cells) :
    Stored.value? (Stored.cells s' family f.keyspace) (path.child leaf) =
      (Stored.below (Stored.cells s family f.keyspace) (path.child leaf)).or (some v) := by
  have same : Stored.below (Stored.cells s' family f.keyspace) (path.child leaf) =
      Stored.below (Stored.cells s family f.keyspace) (path.child leaf) := by
    refine Stored.below_congr fun n hp hn => Option.ext fun c => ?_
    have unwritten : ∀ v, ¬f.puts.Has family n v :=
      fun v hh => hn (Stored.eq_child_of_isPrefix hh hl hp)
    rw [getElem?_of_not_puts hd hf hs hfam hb unwritten, and_iff_left_iff_imp]
    intro _ path' hclear hl' hp'
    exact hf.disjoint path cells path' hrow hclear
      (List.prefix_of_prefix_length_le hp' ((List.prefix_append ..).trans hp) (hl ▸ hl'))
  rw [Stored.value?_cells, same,
    getElem?_of_puts hd hf hs hfam hb ⟨path, cells, leaf, hrow, hl, hv, rfl⟩]
  rfl

theorem present_iff {path : CellName} (hl : path.length = Row.depth family) :
    Stored.present (Stored.cells s' family f.keyspace) path = true ↔ (∃ cells, f.puts path cells) ∨
      Stored.present (Stored.cells s family f.keyspace) path = true ∧
        ∀ path', f.clears path' → ¬path' <+: path := by
  simp only [Stored.present_iff, Stored.mem_cells]
  constructor
  case mp =>
    rintro ⟨c, hc, hp⟩
    by_cases hn : ∃ v, f.puts.Has family c.name v
    case pos =>
      obtain ⟨v, hh⟩ := hn
      obtain ⟨path', cells, _, hrow, -, -, he⟩ := Stored.eq_child_of_isPrefix hh hl hp ▸ hh
      obtain ⟨rfl, -⟩ := CellName.child_inj.mp he
      exact .inl ⟨cells, hrow⟩
    case neg =>
      rw [not_exists] at hn
      have ⟨hc, spared⟩ := (getElem?_of_not_puts hd hf hs hfam hb hn).mp hc
      refine .inr ⟨⟨c, hc, hp⟩, fun path' hclear hp' => ?_⟩
      exact spared path' hclear (hl ▸ hp'.length_le) (hp'.trans ((List.prefix_append ..).trans hp))
  case mpr =>
    rintro (⟨cells, hrow⟩ | ⟨⟨c, hc, hp⟩, spared⟩)
    case inl =>
      have ⟨v, hh⟩ := hf.shaped.exists_marker (hf.schema family hfam) hrow hl
      exact ⟨⟨⟨v, f.time⟩, _⟩, getElem?_of_puts hd hf hs hfam hb hh, List.prefix_rfl⟩
    case inr =>
      by_cases hn : ∃ v, f.puts.Has family c.name v
      case pos =>
        obtain ⟨v, hh⟩ := hn
        exact ⟨⟨⟨v, f.time⟩, c.name⟩, getElem?_of_puts hd hf hs hfam hb hh, hp⟩
      case neg =>
        rw [not_exists] at hn
        refine ⟨c, (getElem?_of_not_puts hd hf hs hfam hb hn).mpr ⟨hc, ?_⟩, hp⟩
        intro path' hclear hl' hp'
        exact spared path' hclear (List.prefix_of_prefix_length_le hp'
          ((List.prefix_append ..).trans hp) (hl ▸ hl'))

end Footprint.Describes

end

-- Whole rows have nothing below their cells.
theorem Storage.IsRegular.below_eq_none {s : Storage} {family name : String} {path : CellName}
    (hs : s.IsRegular) (hf : family ∈ Catalog.schema) (hl : path.length = Row.depth family + 1) :
    Stored.below (Stored.cells s family name) path = none := by
  rw [Stored.below, Option.map_eq_none_iff, List.getLast?_eq_none_iff,
    List.eq_nil_iff_forall_not_mem]
  intro c hc
  have ⟨hm, hp, hn⟩ := Stored.mem_below.mp hc
  obtain ⟨path', leaf, he, hl', -, -⟩ := hs.exists_path hf hm
  refine hn (hp.eq_of_length ?_).symm
  simp [he, CellName.child, hl, hl']

-- What is said below the cells of the table is what the cells say.
structure Storage.Spares (s : Storage) (t : Table) : Prop where
  comment   : ∀ v, Stored.below (Stored.cells s Catalog.tables t.keyspace) [t.name, Row.comment] =
    some v → Utf8.lossy v = t.comment
  validator : ∀ (key : String) (c : Column), t.columns[key]? = some c → ∀ v,
    Stored.below (Stored.cells s Catalog.columns t.keyspace) [t.name, c.name, Row.validator] =
      some v → Utf8.lossy v = c.validator
  kind      : ∀ (key : String) (c : Column), t.columns[key]? = some c → ∀ v,
    Stored.below (Stored.cells s Catalog.columns t.keyspace) [t.name, c.name, Row.kind] =
      some v → (Stored.readKind? v).getD .regular = c.kind

theorem Storage.IsRegular.spares {s : Storage} (hs : s.IsRegular) (t : Table) : s.Spares t where
  comment _ hv           := by
    cases hv.symm.trans (hs.below_eq_none Catalog.tables_mem_schema rfl)
  validator _ _ _ _ hv := by
    cases hv.symm.trans (hs.below_eq_none Catalog.columns_mem_schema rfl)
  kind _ _ _ _ hv      := by
    cases hv.symm.trans (hs.below_eq_none Catalog.columns_mem_schema rfl)

namespace Table

def alterationFootprint (old new : Table) (d : DeletionTime) : Footprint where
  keyspace := new.keyspace
  time     := d.markedAt
  puts     := new.HasRow
  clears   := (· ∈ (old.droppedColumns new).map fun c => [old.name, c])
  families := [Catalog.tables, Catalog.columns]
  area     := [new.name]

variable {old new : Table} {d : DeletionTime}

theorem describes_alteration : (alterationFootprint old new d).Describes [old.alteration new d] :=
  .of_rewrites rewrites_alteration

theorem Keyed.isTidy_alteration (hk : new.Keyed) : (alterationFootprint old new d).IsTidy :=
  Footprint.isTidy_of_table hk rfl (fun _ hp => ⟨old, hp⟩) rfl rfl

section

variable {s s' : Storage} (hk : new.Keyed) (hs : s.Writes (batchOn [old.alteration new d]) s')
  (hb : ∀ id, (s.partition id).IsBefore d.markedAt)

include hk hs hb

theorem value?_table_alteration {leaf : String} {v : Bytes} (hv : (leaf, v) ∈ new.cells) :
    Stored.value? (Stored.cells s' Catalog.tables new.keyspace) [new.name, leaf] =
      (Stored.below (Stored.cells s Catalog.tables new.keyspace) [new.name, leaf]).or (some v) :=
  describes_alteration.value?_eq hk.isTidy_alteration hs (by simp [alterationFootprint]) (hb _)
    (HasRow.table (t := new)) rfl hv

theorem value?_column_alteration {c : Column} (hc : new.columns[c.name]? = some c) {leaf : String}
    {v : Bytes} (hv : (leaf, v) ∈ c.cells) :
    Stored.value? (Stored.cells s' Catalog.columns new.keyspace) [new.name, c.name, leaf] =
      (Stored.below (Stored.cells s Catalog.columns new.keyspace) [new.name, c.name, leaf]).or
        (some v) :=
  describes_alteration.value?_eq hk.isTidy_alteration hs (by simp [alterationFootprint]) (hb _)
    (HasRow.column hc) rfl hv

theorem present_table_alteration :
    Stored.present (Stored.cells s' Catalog.tables new.keyspace) [new.name] = true :=
  (describes_alteration.present_iff hk.isTidy_alteration hs (by simp [alterationFootprint]) (hb _)
    rfl).mpr (.inl ⟨_, .table⟩)

theorem column_alteration_eq_iff {c : Column} (hc : new.columns[c.name]? = some c) :
    Stored.column (Stored.cells s' Catalog.columns new.keyspace) new.name c.name = c ↔
      (∀ v, Stored.below (Stored.cells s Catalog.columns new.keyspace)
        [new.name, c.name, Row.validator] = some v → Utf8.lossy v = c.validator) ∧
      ∀ v, Stored.below (Stored.cells s Catalog.columns new.keyspace)
        [new.name, c.name, Row.kind] = some v → (Stored.readKind? v).getD .regular = c.kind := by
  have hv := value?_column_alteration hk hs hb hc
    (show (Row.validator, Utf8.encode c.validator) ∈ c.cells by simp [Column.cells])
  have hkind := value?_column_alteration hk hs hb hc
    (show (Row.kind, Utf8.encode c.kind.toText) ∈ c.cells by simp [Column.cells])
  rw [Stored.column, Stored.text, hv, hkind, Column.ext_iff]
  simp only [true_and]
  refine and_congr ?_ ?_
  · cases Stored.below (Stored.cells s Catalog.columns new.keyspace)
      [new.name, c.name, Row.validator] <;> simp
  · cases Stored.below (Stored.cells s Catalog.columns new.keyspace)
      [new.name, c.name, Row.kind] <;> simp

section

variable (hn : new.name = old.name)
  (hc : old.columns = Stored.columns (Stored.cells s Catalog.columns new.keyspace) old.name)

include hn hc

-- The columns that were there are kept or dropped.
theorem present_column_alteration {column : String} :
    Stored.present (Stored.cells s' Catalog.columns new.keyspace) [new.name, column] = true ↔
      ∃ c, new.columns[column]? = some c := by
  have hdepth : [new.name, column].length = Row.depth Catalog.columns := rfl
  have row {c : Column} (hc : new.columns[column]? = some c) :
      new.HasRow [new.name, column] c.cells := hk.hasRow_column_iff.mpr ⟨rfl, c, hc, rfl⟩
  refine (describes_alteration.present_iff hk.isTidy_alteration hs
    (by simp [alterationFootprint]) (hb _) hdepth).trans ⟨?_, fun ⟨c, hc⟩ => .inl ⟨_, row hc⟩⟩
  rintro (⟨cells, hrow⟩ | ⟨hpresent, spared⟩)
  case inl =>
    obtain ⟨-, c, hc, -⟩ := hk.hasRow_column_iff.mp hrow
    exact ⟨c, hc⟩
  case inr =>
    by_contra hnone
    have hold : old.columns[column]? =
        some (Stored.column (Stored.cells s Catalog.columns new.keyspace) old.name column) := by
      rw [hc]
      exact Stored.getElem?_columns.mpr ⟨hn ▸ hpresent, rfl⟩
    have hdropped : column ∈ old.droppedColumns new :=
      mem_droppedColumns.mpr ⟨⟨_, hold⟩, by simpa [Option.eq_none_iff_forall_ne_some] using hnone⟩
    exact spared [old.name, column] (List.mem_map_of_mem hdropped) (hn ▸ List.prefix_rfl)

theorem columns_alteration_eq_iff :
    Stored.columns (Stored.cells s' Catalog.columns new.keyspace) new.name = new.columns ↔
      ∀ (key : String) (c : Column), new.columns[key]? = some c →
        Stored.column (Stored.cells s' Catalog.columns new.keyspace) new.name c.name = c := by
  constructor
  case mp =>
    intro he key c hkey
    obtain rfl := hk key c hkey
    rw [← he] at hkey
    exact (Stored.getElem?_columns.mp hkey).right
  case mpr =>
    intro reads
    refine Std.ExtTreeMap.ext_getElem? fun column => Option.ext fun c => ?_
    rw [Stored.getElem?_columns, present_column_alteration hk hs hb hn hc]
    constructor
    case mp =>
      rintro ⟨⟨c', hc'⟩, rfl⟩
      obtain rfl := hk column c' hc'
      rwa [reads _ c' hc']
    case mpr =>
      intro hcolumn
      obtain rfl := hk column c hcolumn
      exact ⟨⟨c, hcolumn⟩, reads _ c hcolumn⟩

theorem table_alteration_eq_iff
    (hid : ∀ v, Stored.below (Stored.cells s Catalog.tables new.keyspace) [new.name, Row.id] =
      some v → Stored.readId? v = some new.id) (fresh : Uuid) :
    Stored.table (Stored.cells s' Catalog.tables new.keyspace)
        (Stored.cells s' Catalog.columns new.keyspace) new.keyspace new.name fresh = new ↔
      s.Spares new := by
  have hi := value?_table_alteration hk hs hb
    (show (Row.id, Utf8.encode new.id.toText) ∈ new.cells by simp [Table.cells])
  have hcomment := value?_table_alteration hk hs hb
    (show (Row.comment, Utf8.encode new.comment) ∈ new.cells by simp [Table.cells])
  have same_id : ((Stored.value? (Stored.cells s' Catalog.tables new.keyspace)
      [new.name, Row.id]).bind Stored.readId?).getD fresh = new.id := by
    rw [hi]
    cases hbelow : Stored.below (Stored.cells s Catalog.tables new.keyspace) [new.name, Row.id]
    case none   => simp
    case some v => simp [hid v hbelow]
  have same_comment : Stored.text (Stored.cells s' Catalog.tables new.keyspace)
        [new.name, Row.comment] = new.comment ↔
      ∀ v, Stored.below (Stored.cells s Catalog.tables new.keyspace) [new.name, Row.comment] =
        some v → Utf8.lossy v = new.comment := by
    rw [Stored.text, hcomment]
    cases Stored.below (Stored.cells s Catalog.tables new.keyspace) [new.name, Row.comment] <;>
      simp
  rw [Stored.table, Table.ext_iff]
  simp only [true_and, same_id, same_comment, columns_alteration_eq_iff hk hs hb hn hc]
  constructor
  case mp =>
    rintro ⟨comment, columns⟩
    have column key c hkey := (column_alteration_eq_iff hk hs hb (hk key c hkey ▸ hkey)).mp
      (columns key c hkey)
    exact ⟨comment, fun key c hkey => (column key c hkey).left,
      fun key c hkey => (column key c hkey).right⟩
  case mpr =>
    intro spares
    refine ⟨spares.comment, fun key c hkey => ?_⟩
    exact (column_alteration_eq_iff hk hs hb (hk key c hkey ▸ hkey)).mpr
      ⟨spares.validator key c hkey, spares.kind key c hkey⟩

end

end

end Table

namespace Stored

variable {s : Storage} {keyspace name : String} {v : Bytes} {fresh : Nat → Uuid} {k : Keyspace}
  {t : Table}

theorem readId?_of_below (h : ∀ c ∈ cells s Catalog.tables keyspace, checkId keyspace c = .ok ())
    (hv : below (cells s Catalog.tables keyspace) [name, Row.id] = some v) (cs : List Cell)
    (u : Uuid) :
    readId? v = some (table (cells s Catalog.tables keyspace) cs keyspace name u).id := by
  have hvalue : value? (cells s Catalog.tables keyspace) [name, Row.id] = some v := by
    rw [value?_cells, hv, Option.some_or]
  have ⟨u', hu⟩ := exists_readId?_eq_some h hvalue
  rw [table, hvalue, Option.bind_some, hu, Option.getD_some]

theorem exists_table_eq (hk : Stored.keyspace s keyspace fresh = .ok (some k))
    (ht : k.tables[name]? = some t) :
    ∃ u, t = table (cells s Catalog.tables keyspace) (cells s Catalog.columns keyspace) keyspace
      name u := by
  rw [(reading_eq_some (keyspace_eq_ok_iff.mp hk).right).right] at ht
  obtain ⟨i, -, rfl⟩ := getElem?_tableMap.mp ht
  exact ⟨_, rfl⟩

end Stored

namespace Replica

variable {r r' : Replica} {k : Keyspace} {old new : Table} {d : DeletionTime}
  {name key : String} {fresh : Nat → Uuid}

-- A keyspace that is accepted comes back from an empty store if it is kept under the names inside.
theorem exists_merge_creation_iff (hv : k.validate = .ok ()) (rounds : Nat) (timestamp : Int64) :
    ∃ r, (empty rounds).merge [k.creation timestamp] = .ok r ∧
      (r.schema.keyspace k.name = some k ↔ k.Keyed) := by
  have hreg : Regular (batchOn [k.creation timestamp]) :=
    .batchOn fun m hm => List.mem_singleton.mp hm ▸ k.rewrites_creation.regular k.isWhole
  have ⟨r, hr, hs⟩ := (sound_empty rounds).merge hreg
  refine ⟨r, hr, fun hshown => ?_, fun hk => ?_⟩
  · have ⟨fresh, hread⟩ := hs.inSync.keyspaces k.name
    exact Stored.keyed_reading ((Stored.keyspace_eq_ok_iff.mp hread).right.trans hshown)
  · obtain ⟨r', hr', ht, -⟩ := exists_merge_creation hv hk rounds
      (show ∀ t ∈ [], timestamp < t by simp)
    cases hr.symm.trans hr'
    rw [Schema.keyspace, ht.keyspaces_eq]
    simp

-- An alteration can be merged into whatever is stored, if the keyspace can be read.
theorem exists_merge_alteration (hf : r.storage.failing = false)
    (hl : Stored.Loads r.storage new.keyspace) (hk : new.keyspace = old.keyspace)
    (hn : new.name = old.name) :
    ∃ r', r.merge [old.alteration new d] = .ok r' ∧
      r.storage.Writes (batchOn [old.alteration new d]) r'.storage ∧ r'.Shows new.keyspace := by
  have alters : IsAlteration old new d [old.alteration new d] :=
    ⟨hk, hn, fun _ _ _ => List.flatMap_singleton ..⟩
  have ⟨r', merged⟩ : ∃ r', r.merge [old.alteration new d] = .ok r' := by
    refine exists_merge_eq_ok hf fun s hs name touched => ?_
    obtain ⟨m, hm, -, rfl⟩ := Schema.mem_touched.mp touched
    obtain rfl := List.mem_singleton.mp hm
    have hkey : (old.alteration new d).keyText = new.keyspace := Utf8.lossy_encode _
    rw [hkey]
    exact hl.writes hs (fun family hfam => alters.isTabular.regular.rows family hfam _)
      (alters.isTabular.spares _)
  have took := took_of_merge_eq_ok merged
  have written : .write [new.name, Row.marker] ⟨[], d.markedAt⟩ ∈ batchOn [old.alteration new d]
      ⟨Catalog.system, Catalog.tables, Utf8.encode new.keyspace⟩ := by
    rw [alters.batch _ Catalog.tables_mem_schema]
    refine (Table.rewrites_alteration.write _ Catalog.tables_mem_schema _ _).mpr ⟨rfl, ?_⟩
    exact ⟨_, _, Row.marker, .table, rfl, by simp [Table.cells], rfl⟩
  have touched : Utf8.lossy (Utf8.encode new.keyspace) ∈
      Schema.touchedKeyspaces [old.alteration new d] :=
    Schema.keyText_mem_touched (by decide) (List.ne_nil_of_mem written)
  exact ⟨r', merged, took.writes, took.shows _ (by simpa using touched)⟩

theorem exists_merge_alteration_iff (hf : r.storage.failing = false)
    (hk : Stored.keyspace r.storage name fresh = .ok (some k)) (ht : k.tables[key]? = some old)
    (hc : old.checkReplacement new = .ok ())
    (hb : ∀ id, (r.storage.partition id).IsBefore d.markedAt) :
    ∃ r', r.merge [old.alteration new d] = .ok r' ∧
      (r'.schema.table new.keyspace new.name = some new ↔
        new.Keyed ∧ r.storage.Spares new) := by
  have ⟨hl, hread⟩ := Stored.keyspace_eq_ok_iff.mp hk
  have hpresent : Stored.hasKeyspace r.storage name = true := (Stored.reading_eq_some hread).left
  have ⟨u, hold⟩ := Stored.exists_table_eq hk ht
  obtain ⟨hkeyspace, hname, hid, -⟩ := Table.checkReplacement_eq_ok_iff.mp hc
  obtain rfl : new.keyspace = name := hkeyspace.trans (congrArg Table.keyspace hold)
  obtain rfl : new.name = key := hname.trans (congrArg Table.name hold)
  have ⟨r', merged, writes, shows⟩ := exists_merge_alteration hf hl hkeyspace hname (d := d)
  refine ⟨r', merged, ?_⟩
  have same (keyspace : String) :
      Stored.hasKeyspace r'.storage keyspace = Stored.hasKeyspace r.storage keyspace := by
    refine Table.describes_alteration.hasKeyspace_eq (fun _ _ hr => hr.ne_nil) ?_ writes keyspace
    rintro path hp rfl
    simp [Table.alterationFootprint] at hp
  have ⟨fresh', shown⟩ := shows.exists_table_eq
  rw [shown, same, if_pos hpresent]
  have columns : old.columns =
      Stored.columns (Stored.cells r.storage Catalog.columns new.keyspace) old.name := by
    rw [hold]
    rfl
  have ids (v : Bytes) (hv : Stored.below (Stored.cells r.storage Catalog.tables new.keyspace)
      [new.name, Row.id] = some v) : Stored.readId? v = some new.id := by
    rw [hid, hold]
    exact Stored.readId?_of_below (hl.ids hpresent) hv _ u
  have reads (hkeyed : new.Keyed) (fresh : Uuid) :=
    Table.table_alteration_eq_iff hkeyed writes hb hname columns ids fresh
  constructor
  case mp =>
    intro hnew
    have hkeyed := (Stored.keyed_of_tableMap hnew).right
    have ⟨i, _, htable⟩ := Stored.getElem?_tableMap.mp hnew
    exact ⟨hkeyed, (reads hkeyed _).mp htable⟩
  case mpr =>
    rintro ⟨hkeyed, spares⟩
    have ⟨t, ht⟩ : ∃ t, (Stored.tableMap r'.storage new.keyspace fresh')[new.name]? = some t :=
      Stored.exists_getElem?_tableMap.mpr (Table.present_table_alteration hkeyed writes hb)
    have ⟨i, _, htable⟩ := Stored.getElem?_tableMap.mp ht
    rw [ht, ← htable, (reads hkeyed _).mpr spares]

-- A store in which a keyspace has been created with a table of one column.
theorem exists_store_of_email :
    let users := (Table.new "app" "users" ⟨List.replicate 16 0, rfl⟩).withColumn
      ⟨"email", "UTF8Type", .regular⟩
    let app := (Keyspace.simple "app" 1).withTable users
    users.validate = .ok () ∧ app.validate = .ok () ∧ app.Keyed ∧
      ∃ r fresh, (empty 0).merge [app.creation 1] = .ok r ∧ r.Sound ∧
        r.schema.keyspace "app" = some app ∧
        Stored.keyspace r.storage "app" fresh = .ok (some app) ∧
        ∀ id, (r.storage.partition id).IsBefore 2 := by
  intro users app
  have named (what : String) :
      ∀ name ∈ ["app", "users", "email"], checkName what name = .ok () := by
    simp [checkName, isName, isNameChar, maxNameLength]
    decide
  have happ := named "keyspace" "app" (by simp)
  have husers : users.validate = .ok () :=
    Table.validate_withColumn (Table.validate_new.mpr ⟨happ, named "table" "users" (by simp)⟩)
      (seq_eq_ok_iff.mpr ⟨named "column" "email" (by simp), rfl⟩)
  have hv : app.validate = .ok () :=
    Keyspace.validate_withTable (Keyspace.validate_new.mpr ⟨happ, by decide⟩) husers rfl
  have hk : app.Keyed := Keyspace.keyed_new.withTable (Table.keyed_new.withColumn _)
  obtain ⟨r, merged, tracks, -⟩ := exists_merge_creation hv hk 0 (show ∀ t ∈ [2], (1 : Int64) < t by
    simp)
  obtain ⟨fresh, hread⟩ := tracks.sound.inSync.keyspaces "app"
  obtain ⟨h, reflects, earlier⟩ := tracks.earlier
  have shown : r.schema.keyspace "app" = some app := by
    rw [Schema.keyspace, tracks.keyspaces_eq]
    exact Std.ExtTreeMap.getElem?_insert_self
  refine ⟨husers, hv, hk, r, fresh, merged, tracks.sound, shown, hread.trans ?_, fun id => ?_⟩
  · exact congrArg Except.ok shown
  · exact (reflects id).isBefore fun m hm => earlier id m hm 2 (by simp)

-- An accepted keyspace comes back from an empty store if and only if its maps are keyed by the
-- names inside. An accepted table that a stored one of the keyspace is altered to, after all that
-- is stored, comes back if and only if it is keyed so and nothing else has been said below its
-- cells.
theorem shows_accepted_iff (k : Keyspace) :
    (∀ (rounds : Nat) (timestamp : Int64), k.validate = .ok () →
      ∃ r, (empty rounds).merge [k.creation timestamp] = .ok r ∧
        (r.schema.keyspace k.name = some k ↔ k.Keyed)) ∧
    ∀ (r : Replica) (name key : String) (fresh : Nat → Uuid) (old new : Table) (d : DeletionTime),
      r.storage.failing = false →
      Stored.keyspace r.storage name fresh = .ok (some k) → k.tables[key]? = some old →
      new.validate = .ok () → old.checkReplacement new = .ok () →
      (∀ id, (r.storage.partition id).IsBefore d.markedAt) →
      ∃ r', r.merge [old.alteration new d] = .ok r' ∧
        (r'.schema.table new.keyspace new.name = some new ↔ new.Keyed ∧ r.storage.Spares new) :=
  ⟨fun rounds timestamp hv => exists_merge_creation_iff hv rounds timestamp,
    fun _ _ _ _ _ _ _ hf hk ht _ hc hb => exists_merge_alteration_iff hf hk ht hc hb⟩

theorem shows_accepted_iff_of_users :
    let users := (Table.new "app" "users" ⟨List.replicate 16 0, rfl⟩).withColumn
      ⟨"email", "UTF8Type", .regular⟩
    let app := (Keyspace.simple "app" 1).withTable users
    let kept := (Table.new "app" "users" users.id).withComment "kept"
    ∃ r r', (empty 0).merge [app.creation 1] = .ok r ∧ r.schema.keyspace "app" = some app ∧
      r.merge [users.alteration kept ⟨2, 0⟩] = .ok r' ∧
      r'.schema.table "app" "users" = some kept := by
  intro users app kept
  have ⟨husers, hv, hk, r, fresh, merged, sound, _, hread, before⟩ := exists_store_of_email
  have ⟨hks, hname, _⟩ := Table.validate_eq_ok_iff.mp husers
  have hbase : (Table.new "app" "users" users.id).validate = .ok () :=
    Table.validate_new.mpr ⟨hks, hname⟩
  have hkeyed : kept.Keyed := Table.keyed_new.withComment
  obtain ⟨r₁, merged₁, shown⟩ := (shows_accepted_iff app).left 0 1 hv
  obtain rfl : r = r₁ := Except.ok.inj (merged.symm.trans merged₁)
  have ⟨r', merged', shown'⟩ := (shows_accepted_iff app).right r "app" "users" fresh users kept
    ⟨2, 0⟩ sound.failing hread Std.ExtTreeMap.getElem?_insert_self hbase (by decide +kernel) before
  exact ⟨r, r', merged, shown.mpr hk, merged', shown'.mpr ⟨hkeyed, sound.regular.spares kept⟩⟩

-- The column is kept under another name than its own, so what is written of it is dropped at once.
theorem exists_accepted_not_shown :
    let email : Column := ⟨"email", "UTF8Type", .regular⟩
    let users := (Table.new "app" "users" ⟨List.replicate 16 0, rfl⟩).withColumn email
    let app := (Keyspace.simple "app" 1).withTable users
    let miskeyed := { users with columns := (∅ : SortedMap String Column).insert "mail" email }
    app.validate = .ok () ∧ miskeyed.validate = .ok () ∧
      users.checkReplacement miskeyed = .ok () ∧
      ∃ r r', (empty 0).merge [app.creation 1] = .ok r ∧ r.schema.keyspace "app" = some app ∧
        (∀ id, (r.storage.partition id).IsBefore 2) ∧
        r.merge [users.alteration miskeyed ⟨2, 0⟩] = .ok r' ∧
        r'.schema.table "app" "users" ≠ some miskeyed := by
  intro email users app miskeyed
  have ⟨husers, hv, _, r, fresh, merged, sound, hshown, hread, before⟩ := exists_store_of_email
  have only {key : String} {c : Column} (hc : miskeyed.columns[key]? = some c) :
      key = "mail" ∧ c = email := by
    rw [Std.ExtTreeMap.getElem?_insert] at hc
    split at hc
    case isTrue he => exact ⟨(Std.LawfulEqOrd.eq_of_compare he).symm, (Option.some.inj hc).symm⟩
    case isFalse   => simp at hc
  have ⟨hks, hname, columns⟩ := Table.validate_eq_ok_iff.mp husers
  have hemail := columns "email" email Std.ExtTreeMap.getElem?_insert_self
  have hmiskeyed : miskeyed.validate = .ok () :=
    Table.validate_eq_ok_iff.mpr ⟨hks, hname, fun _ _ hc => (only hc).right ▸ hemail⟩
  have replaces : users.checkReplacement miskeyed = .ok () := by decide +kernel
  have ⟨r', merged', shown⟩ := exists_merge_alteration_iff (d := ⟨2, 0⟩) sound.failing hread
    Std.ExtTreeMap.getElem?_insert_self replaces before
  refine ⟨hv, hmiskeyed, replaces, r, r', merged, hshown, before, merged', fun hsame => ?_⟩
  have hk := (shown.mp hsame).left "mail" email Std.ExtTreeMap.getElem?_insert_self
  exact absurd hk (by decide)

end Replica

end ClusterMetadata
