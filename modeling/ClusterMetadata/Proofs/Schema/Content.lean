import ClusterMetadata.Proofs.Schema.Rows
import Mathlib.Data.List.Nodup

/-!
Partitions of the schema tables by the rows they hold, and batches by the rows they write and remove
at one instant. Such a batch is regular when its rows are whole (`Rewrites.regular`); when it is
later than everything before, it replaces the rows it writes and removes those it deletes
(`Holds.rewrite`).
-/

namespace ClusterMetadata

-- The rows under some paths, each with its cells.
abbrev Rows := CellName → List (String × Bytes) → Prop

namespace Rows

def Has (rows : Rows) (family : String) (n : CellName) (v : Bytes) : Prop :=
  ∃ path cells leaf, rows path cells ∧ path.length = Row.depth family ∧ (leaf, v) ∈ cells ∧
    n = path.child leaf

-- At most one row under a path, with the leaves of its table.
structure IsShaped (rows : Rows) : Prop where
  unique : ∀ path cells cells', rows path cells → rows path cells' → cells = cells'
  leaves : ∀ family ∈ Catalog.schema, ∀ path cells, rows path cells →
    path.length = Row.depth family → cells.map (·.1) = Row.leaves family

-- Rows with the leaves of their tables and with values that are not refused, columns only with
-- their tables.
structure IsWhole (rows : Rows) : Prop where
  leaves : ∀ family ∈ Catalog.schema, ∀ path cells, rows path cells →
    path.length = Row.depth family → cells.map (·.1) = Row.leaves family
  fits   : ∀ path cells, rows path cells → ∀ c ∈ cells, Row.Fits c.1 c.2
  owner  : ∀ t column cells, rows [t, column] cells → ∃ cells', rows [t] cells'

-- The rows that `puts` has, and of the others those that no cleared path leads to.
def rewrite (rows puts : Rows) (clears : CellName → Prop) : Rows := fun path cells =>
  puts path cells ∨
    rows path cells ∧ (∀ cells', ¬puts path cells') ∧ ∀ path', clears path' → ¬path' <+: path

variable {rows : Rows} {family : String} {n path : CellName} {v v' : Bytes}

theorem nodup_leaves (hf : family ∈ Catalog.schema) : (Row.leaves family).Nodup := by
  simp only [Catalog.schema, List.mem_cons, List.not_mem_nil, or_false] at hf
  obtain rfl | rfl | rfl := hf <;> decide

theorem isWhole_empty : IsWhole fun _ _ => False := by
  constructor <;> simp

-- A row has a cell for each leaf.
theorem exists_has {cells : List (String × Bytes)} (hc : cells.map (·.1) = Row.leaves family)
    (hr : rows path cells) (hl : path.length = Row.depth family) {leaf : String}
    (hleaf : leaf ∈ Row.leaves family) : ∃ v, rows.Has family (path.child leaf) v := by
  rw [← hc] at hleaf
  obtain ⟨⟨leaf, v⟩, hv, rfl⟩ := List.mem_map.mp hleaf
  exact ⟨v, path, cells, leaf, hr, hl, hv, rfl⟩

theorem IsWhole.exists_has (hw : rows.IsWhole) (hf : family ∈ Catalog.schema)
    {cells : List (String × Bytes)} (hr : rows path cells) (hl : path.length = Row.depth family)
    {leaf : String} (hleaf : leaf ∈ Row.leaves family) :
    ∃ v, rows.Has family (path.child leaf) v :=
  Rows.exists_has (hw.leaves family hf path cells hr hl) hr hl hleaf

theorem IsShaped.exists_marker (hs : rows.IsShaped) (hf : family ∈ Catalog.schema)
    {cells : List (String × Bytes)} (hr : rows path cells) (hl : path.length = Row.depth family) :
    ∃ v, rows.Has family (path.child Row.marker) v :=
  exists_has (hs.leaves family hf path cells hr hl) hr hl (Row.marker_mem_leaves family)

-- A cell has one value.
theorem IsShaped.value_eq (hs : rows.IsShaped) (hf : family ∈ Catalog.schema)
    (h : rows.Has family n v) (h' : rows.Has family n v') : v = v' := by
  obtain ⟨path, cells, leaf, hr, hd, hm, rfl⟩ := h
  have ⟨path', cells', leaf', hr', hd', hm', he⟩ := h'
  obtain ⟨rfl, rfl⟩ := CellName.child_inj.mp he
  obtain rfl := hs.unique _ _ _ hr hr'
  have hn : (cells.map (·.1)).Nodup := hs.leaves family hf path cells hr hd ▸ nodup_leaves hf
  exact (Prod.mk.inj (List.inj_on_of_nodup_map hn hm hm' rfl)).right

end Rows

-- What a batch does to the schema tables under a key, at one instant.
structure Rewrites (w : PartitionId → List Modification) (key : Bytes) (t : Int64) (puts : Rows)
    (clears : CellName → Prop) : Prop where
  write     : ∀ family ∈ Catalog.schema, ∀ n c,
    .write n c ∈ w ⟨Catalog.system, family, key⟩ ↔ c.timestamp = t ∧ puts.Has family n c.value
  deletion  : ∀ family ∈ Catalog.schema, ∀ path,
    (∃ m ∈ w ⟨Catalog.system, family, key⟩, ∃ d, m.Deletes path d) ↔
      clears path ∧ path.length ≤ Row.depth family
  timestamp : ∀ id, ∀ m ∈ w id, m.timestamp = t
  elsewhere : ∀ family, ∀ key' ≠ key, w ⟨Catalog.system, family, key'⟩ = []

namespace Rewrites

variable {w : PartitionId → List Modification} {key : Bytes} {t : Int64} {puts : Rows}
  {clears : CellName → Prop}

theorem key_eq (hw : Rewrites w key t puts clears) {family : String} {key' : Bytes}
    {m : Modification} (hm : m ∈ w ⟨Catalog.system, family, key'⟩) : key' = key := by
  by_contra hk
  rw [hw.elsewhere family key' hk] at hm
  cases hm

theorem regular (hw : Rewrites w key t puts clears) (hp : puts.IsWhole) : Regular w where
  rows family hf key' := by
    by_cases hk : key' = key
    case neg => exact hw.elsewhere family key' hk ▸ .of_parts (by simp)
    case pos =>
      subst hk
      constructor
      case write =>
        intro n c hm
        obtain ⟨ht, path, cells, leaf, hr, hl, hv, rfl⟩ := (hw.write family hf n c).mp hm
        have hleaf := hp.leaves family hf path cells hr hl ▸ List.mem_map_of_mem hv
        refine ⟨path, leaf, rfl, hl, hleaf, hp.fits path cells hr _ hv, fun leaf' hl' => ?_⟩
        have ⟨v, hh⟩ := hp.exists_has hf hr hl hl'
        exact ⟨⟨v, t⟩, (hw.write family hf _ _).mpr ⟨rfl, hh⟩, Std.le_of_eq ht⟩
      case deletion =>
        exact fun m hm path d hd => ((hw.deletion family hf path).mp ⟨m, hm, d, hd⟩).right
  owner key' t' column leaf c hm := by
    obtain rfl := hw.key_eq hm
    obtain ⟨ht, path, cells, leaf', hr, -, -, he⟩ :=
      (hw.write _ Catalog.columns_mem_schema _ c).mp hm
    obtain ⟨rfl, -⟩ : path = [t', column] ∧ leaf' = leaf := CellName.child_inj.mp he.symm
    have ⟨cells', hr'⟩ := hp.owner t' column cells hr
    have hf := Catalog.tables_mem_schema
    have ⟨v, hh⟩ := hp.exists_has hf hr' rfl (Row.marker_mem_leaves _)
    exact ⟨⟨v, t⟩, (hw.write _ hf _ _).mpr ⟨rfl, hh⟩, Std.le_of_eq ht⟩
  owned key' m hm path d hd := by
    obtain rfl := hw.key_eq hm
    have ⟨hc, hl⟩ := (hw.deletion _ Catalog.tables_mem_schema path).mp ⟨m, hm, d, hd⟩
    have ⟨m', hm', d', hd'⟩ := (hw.deletion _ Catalog.columns_mem_schema path).mpr
      ⟨hc, Nat.le_trans hl (Row.depth_le_two _)⟩
    refine ⟨m', hm', d', hd', Std.le_of_eq ?_⟩
    rw [← hd.timestamp_eq, ← hd'.timestamp_eq, hw.timestamp _ m hm, hw.timestamp _ m' hm']

end Rewrites

namespace Partition

variable {p : Partition} {h mods : List Modification} {n : CellName} {c : Stamped} {t : Int64}

-- Modifications later than all before them, which delete nothing that they write.
theorem Reflects.getElem?_foldl_later (hr : p.Reflects h) (hb : ∀ m ∈ h, m.timestamp < t)
    (ht : ∀ m ∈ mods, m.timestamp = t)
    (hd : ∀ m ∈ mods, ∀ path d, m.Deletes path d → ∀ n c, .write n c ∈ mods → ¬path <+: n)
    (hu : ∀ n c c', .write n c ∈ mods → .write n c' ∈ mods → c = c') :
    (mods.foldl Partition.modify p).cells[n]? = some c ↔
      .write n c ∈ mods ∨ p.cells[n]? = some c ∧ (∀ c', .write n c' ∉ mods) ∧
        ∀ m ∈ mods, ∀ path d, m.Deletes path d → ¬path <+: n := by
  have old {n} {c : Stamped} (hm : .write n c ∈ h) : c.timestamp < t :=
    Modification.timestamp_write n c ▸ hb _ hm
  have new {n} {c : Stamped} (hm : .write n c ∈ mods) : c.timestamp = t :=
    Modification.timestamp_write n c ▸ ht _ hm
  rw [(hr.foldl mods).getElem?_eq_some_iff, hr.getElem?_eq_some_iff]
  constructor
  case mp =>
    intro hl
    refine or_iff_not_imp_left.mpr fun hn => ?_
    have hm : .write n c ∈ h := (List.mem_append.mp hl.greatest.left).resolve_right hn
    refine ⟨⟨⟨hm, fun c' hc' => hl.greatest.right (List.mem_append_left _ hc')⟩,
      fun m hm => hl.later m (List.mem_append_left _ hm)⟩, fun c' hc' => ?_,
      fun m hm' path d hp hpre => ?_⟩
    · have hle := Stamped.timestamp_le (hl.greatest.right (List.mem_append_right _ hc'))
      rw [new hc'] at hle
      exact Std.not_le.mpr (old hm) hle
    · have hlt := hl.later m (List.mem_append_right _ hm') path d hp hpre
      rw [← hp.timestamp_eq, ht m hm'] at hlt
      exact Std.lt_irrefl (Std.lt_trans hlt (old hm))
  case mpr =>
    rintro (hm | ⟨hl, hw, hp⟩)
    case inl =>
      refine ⟨⟨List.mem_append_right _ hm, fun c' hc' => ?_⟩, fun m hm' path d hp hpre => ?_⟩
      · cases List.mem_append.mp hc'
        case inl hc' => exact .inl (by rw [new hm]; exact old hc')
        case inr hc' => exact (hu n c' c hc' hm).le
      · cases List.mem_append.mp hm'
        case inl hm' => rw [new hm, ← hp.timestamp_eq]; exact hb m hm'
        case inr hm' => exact absurd hpre (hd m hm' path d hp n c hm)
    case inr =>
      refine ⟨⟨List.mem_append_left _ hl.greatest.left, fun c' hc' => ?_⟩,
        fun m hm path d hdel hpre => ?_⟩
      · exact hl.greatest.right ((List.mem_append.mp hc').resolve_right (hw c'))
      · cases List.mem_append.mp hm
        case inl hm => exact hl.later m hm path d hdel hpre
        case inr hm => exact absurd hpre (hp m hm path d hdel)

-- The live cells are those of the rows.
def Holds (p : Partition) (family : String) (rows : Rows) : Prop :=
  ∀ n v, (∃ t, p.cells[n]? = some ⟨v, t⟩) ↔ rows.Has family n v

-- The live cells under the path are those of the rows.
def HoldsUnder (p : Partition) (family : String) (area : CellName) (rows : Rows) : Prop :=
  ∀ n v, area <+: n → ((∃ t, p.cells[n]? = some ⟨v, t⟩) ↔ rows.Has family n v)

variable {family : String} {key : Bytes} {rows puts : Rows} {clears : CellName → Prop}
  {w : PartitionId → List Modification}

theorem holdsUnder_nil : p.HoldsUnder family [] rows ↔ p.Holds family rows :=
  ⟨fun h n v => h n v List.nil_prefix, fun h n v _ => h n v⟩

-- Other rows do as well if under the path they are the same.
theorem Holds.under {rows' : Rows} {area : CellName} (hp : p.Holds family rows)
    (hl : area.length ≤ Row.depth family)
    (hr : ∀ path cells, path.length = Row.depth family → area <+: path →
      (rows path cells ↔ rows' path cells)) : p.HoldsUnder family area rows' := by
  intro n v ha
  rw [hp n v]
  constructor
  all_goals
    rintro ⟨path, cells, leaf, hrow, hd, hv, rfl⟩
    have ha := List.prefix_of_prefix_length_le ha (List.prefix_append ..) (hd ▸ hl)
  · exact ⟨path, cells, leaf, (hr path cells hd ha).mp hrow, hd, hv, rfl⟩
  · exact ⟨path, cells, leaf, (hr path cells hd ha).mpr hrow, hd, hv, rfl⟩

-- When nothing is deleted and each name is written with one value, the instants do not matter.
theorem Reflects.holds (hr : p.Reflects h) (hd : ∀ m ∈ h, ∀ path d, ¬m.Deletes path d)
    (hw : ∀ n v, (∃ t, .write n ⟨v, t⟩ ∈ h) ↔ rows.Has family n v) (hs : rows.IsShaped)
    (hf : family ∈ Catalog.schema) : p.Holds family rows := by
  have has_of_live {n} {c : Stamped} (hc : p.cells[n]? = some c) : rows.Has family n c.value :=
    (hw n c.value).mp ⟨c.timestamp, (hr.getElem?_eq_some_iff.mp hc).greatest.left⟩
  intro n v
  constructor
  case mp  => exact fun ⟨t, hc⟩ => has_of_live hc
  case mpr =>
    intro hh
    have ⟨t, hm⟩ := (hw n v).mpr hh
    have hu : ¬Covered h n t := fun ⟨m, hm, path, d, hdel, _⟩ => hd m hm path d hdel
    have ⟨c, hc, _⟩ := hr.exists_live_of_not_covered hm (Std.le_refl _) hu
    obtain rfl : c.value = v := hs.value_eq hf (has_of_live hc) hh
    exact ⟨c.timestamp, hc⟩

theorem Holds.rewrite (hp : p.Holds family rows) (hr : p.Reflects h)
    (hb : ∀ m ∈ h, m.timestamp < t) (hw : Rewrites w key t puts clears)
    (hf : family ∈ Catalog.schema) (hs : rows.IsShaped) (hs' : puts.IsShaped)
    (hd : ∀ path cells path', puts path cells → clears path' → ¬path' <+: path) :
    ((w ⟨Catalog.system, family, key⟩).foldl Partition.modify p).Holds family
      (rows.rewrite puts clears) := by
  -- a deletion reaches a cell only through the cell's row
  have prefix_of {m path d row} {leaf : String} (hm : m ∈ w ⟨Catalog.system, family, key⟩)
      (hdel : m.Deletes path d) (hl : row.length = Row.depth family)
      (hpre : path <+: CellName.child row leaf) : clears path ∧ path <+: row := by
    have ⟨hc, hle⟩ := (hw.deletion family hf path).mp ⟨m, hm, d, hdel⟩
    exact ⟨hc, List.prefix_of_prefix_length_le hpre (List.prefix_append ..) (hl ▸ hle)⟩
  have later (n c) := hr.getElem?_foldl_later (n := n) (c := c) hb (hw.timestamp _)
    (fun m hm path d hdel n c hm' hpre => by
      obtain ⟨-, row, cells, leaf, hrow, hl, -, rfl⟩ := (hw.write family hf n c).mp hm'
      have ⟨hc, hpre⟩ := prefix_of hm hdel hl hpre
      exact hd row cells path hrow hc hpre)
    (fun n c c' hm hm' => by
      have ⟨ht, hh⟩ := (hw.write family hf n c).mp hm
      have ⟨ht', hh'⟩ := (hw.write family hf n c').mp hm'
      exact Stamped.ext (hs'.value_eq hf hh hh') (ht.trans ht'.symm))
  intro n v
  simp only [later]
  constructor
  case mp =>
    rintro ⟨t', hm | ⟨hl, hn, hdel⟩⟩
    case inl =>
      obtain ⟨-, row, cells, leaf, hrow, hl, hv, rfl⟩ := (hw.write family hf n _).mp hm
      exact ⟨row, cells, leaf, .inl hrow, hl, hv, rfl⟩
    case inr =>
      obtain ⟨row, cells, leaf, hrow, hlen, hv, rfl⟩ := (hp n v).mp ⟨t', hl⟩
      refine ⟨row, cells, leaf, .inr ⟨hrow, fun cells' hputs => ?_, fun path hc hpre => ?_⟩, hlen,
        hv, rfl⟩
      · have hleaf : leaf ∈ cells'.map (·.1) := by
          rw [hs'.leaves family hf row cells' hputs hlen, ← hs.leaves family hf row cells hrow hlen]
          exact List.mem_map_of_mem hv
        obtain ⟨⟨leaf, v'⟩, hv', rfl⟩ := List.mem_map.mp hleaf
        have hh : puts.Has family (row.child leaf) v' := ⟨row, cells', leaf, hputs, hlen, hv', rfl⟩
        exact hn ⟨v', t⟩ ((hw.write family hf _ _).mpr ⟨rfl, hh⟩)
      · have ⟨m, hm, d, hmd⟩ := (hw.deletion family hf path).mpr ⟨hc, hlen ▸ hpre.length_le⟩
        exact hdel m hm path d hmd (hpre.trans (List.prefix_append ..))
  case mpr =>
    rintro ⟨row, cells, leaf, hrow | ⟨hrow, hn, hclear⟩, hlen, hv, rfl⟩
    case inl =>
      exact ⟨t, .inl ((hw.write family hf _ _).mpr ⟨rfl, row, cells, leaf, hrow, hlen, hv, rfl⟩)⟩
    case inr =>
      have ⟨t', hl⟩ := (hp _ v).mpr ⟨row, cells, leaf, hrow, hlen, hv, rfl⟩
      refine ⟨t', .inr ⟨hl, fun c' hm => ?_, fun m hm path d hmd hpre => ?_⟩⟩
      · obtain ⟨-, row', cells', leaf', hputs, -, -, he⟩ := (hw.write family hf _ _).mp hm
        obtain ⟨rfl, -⟩ := CellName.child_inj.mp he
        exact hn cells' hputs
      · have ⟨hc, hpre⟩ := prefix_of hm hmd hlen hpre
        exact hclear path hc hpre

end Partition

-- The partitions of the schema tables under a key hold the rows.
def Storage.Defines (s : Storage) (key : Bytes) (rows : Rows) : Prop :=
  ∀ family ∈ Catalog.schema, (s.partition ⟨Catalog.system, family, key⟩).Holds family rows

end ClusterMetadata
