import ClusterMetadata.Proofs.Schema.Definition
import ClusterMetadata.Proofs.Storage.Writes
import ClusterMetadata.Schema.Stored

/-!
What reading a keyspace depends on. Only the live cells of its three partitions count, a reading
succeeds when their values can be read (`keyspace_of_readable`), and a fresh id does not show when
the table has a stored one (`table_eq_of_isSome`).
-/

namespace ClusterMetadata

theorem nodup_eraseDups {α : Type} [BEq α] [LawfulBEq α] : (as : List α) → as.eraseDups.Nodup
  | []      => by simp
  | a :: as => by
    rw [List.eraseDups_cons, List.nodup_cons]
    exact ⟨by simp [List.mem_eraseDups], nodup_eraseDups _⟩
termination_by as => as.length
decreasing_by exact Nat.lt_add_one_of_le (List.length_filter_le ..)

namespace Catalog

theorem keyspaces_mem_schema : keyspaces ∈ schema := by simp [schema]

theorem tables_mem_schema : tables ∈ schema := by simp [schema]

theorem columns_mem_schema : columns ∈ schema := by simp [schema]

end Catalog

namespace Stored

variable {s s' : Storage} {cs : List Cell} {c : Cell} {path : CellName} {v : Bytes}
  {family name keyspace : String} {fresh fresh' : Nat → Uuid}

theorem mem_cells : c ∈ cells s family keyspace ↔
    (s.partition ⟨Catalog.system, family, Utf8.encode keyspace⟩).cells[c.name]? =
      some c.toStamped := by
  simp [cells, Storage.read, Partition.mem_read, CellRange.contains]

theorem mem_under : c ∈ under cs path ↔ c ∈ cs ∧ path <+: c.name := by
  simp [under]

theorem present_iff : present cs path = true ↔ ∃ c ∈ cs, path.child Row.marker <+: c.name := by
  simp only [present, Bool.not_eq_true', ← Bool.not_eq_true, List.isEmpty_iff, ← ne_eq,
    List.ne_nil_iff_exists_cons, ← mem_under]
  constructor
  case mp  => exact fun ⟨c, cs', h⟩ => ⟨c, h ▸ List.mem_cons_self⟩
  case mpr => exact fun ⟨c, h⟩ => List.ne_nil_iff_exists_cons.mp (List.ne_nil_of_mem h)

theorem mem_rowNames : name ∈ rowNames cs path ↔ present cs (path.child name) = true := by
  simp only [rowNames, List.mem_filter, List.mem_eraseDups, List.mem_filterMap,
    and_iff_right_iff_imp]
  intro h
  have ⟨c, hc, rest, hn⟩ := present_iff.mp h
  refine ⟨c, mem_under.mpr ⟨hc, ?_⟩, ?_⟩
  · exact ⟨[name, Row.marker] ++ rest, by simp [← hn, CellName.child]⟩
  · simp [← hn, CellName.child]

theorem nodup_rowNames : (rowNames cs path).Nodup :=
  (nodup_eraseDups _).filter _

theorem value?_eq_none_iff : value? cs path = none ↔ ∀ c ∈ cs, ¬path <+: c.name := by
  simp [value?, under]

theorem exists_of_value?_eq_some (h : value? cs path = some v) :
    ∃ c ∈ cs, path <+: c.name ∧ c.value = v := by
  have ⟨c, hl, hv⟩ := Option.map_eq_some_iff.mp h
  have ⟨hc, hp⟩ := mem_under.mp (List.mem_of_getLast? hl)
  exact ⟨c, hc, hp, hv⟩

-- What every cell under the path says is said.
theorem value?_eq_some (hc : c ∈ cs) (hp : path <+: c.name)
    (hv : ∀ c ∈ cs, path <+: c.name → c.value = v) : value? cs path = some v := by
  cases h : value? cs path
  case none => exact absurd hp (value?_eq_none_iff.mp h c hc)
  case some v' =>
    have ⟨c', hc', hp', hv'⟩ := exists_of_value?_eq_some h
    rw [← hv', hv c' hc' hp']

-- All that is read for a keyspace can be read.
structure Readable (s : Storage) (keyspace : String) : Prop where
  options : ∀ c ∈ cells s Catalog.keyspaces keyspace, [Row.strategyOptions] <+: c.name →
    (readOptions? c.value).isSome
  ids : ∀ c ∈ cells s Catalog.tables keyspace, checkId keyspace c = .ok ()
  kinds : ∀ c ∈ cells s Catalog.columns keyspace, checkKind keyspace c = .ok ()

theorem options_eq_ok
    (h : ∀ c ∈ cs, [Row.strategyOptions] <+: c.name → (readOptions? c.value).isSome) :
    options keyspace cs =
      .ok (((value? cs [Row.strategyOptions]).bind readOptions?).getD ∅) := by
  have hr (c) (hc : c ∈ under cs [Row.strategyOptions]) : ∃ o, readOptions? c.value = some o :=
    have ⟨hm, hp⟩ := mem_under.mp hc
    Option.isSome_iff_exists.mp (h c hm hp)
  rw [options, mapM_eq_ok (g := fun c => (readOptions? c.value).getD ∅) fun c hc => by
    have ⟨o, ho⟩ := hr c hc
    rw [ho]
    rfl]
  refine congrArg Except.ok ?_
  rw [List.getLast?_map, value?]
  cases hl : (under cs [Row.strategyOptions]).getLast?
  case none => rfl
  case some c =>
    have ⟨o, ho⟩ := hr c (List.mem_of_getLast? hl)
    simp [ho]

theorem getElem?_columns {t : String} {d : Column} :
    (columns cs t)[name]? = some d ↔ present cs [t, name] = true ∧ column cs t name = d := by
  rw [columns, SortedMap.getElem?_ofList]
  case h =>
    rw [List.map_map]
    change (List.map id _).Nodup
    rw [List.map_id]
    exact nodup_rowNames
  simp only [List.mem_map, Prod.mk.injEq, mem_rowNames]
  constructor
  case mp  => rintro ⟨_, hp, rfl, hd⟩; exact ⟨hp, hd⟩
  case mpr => rintro ⟨hp, hd⟩; exact ⟨name, hp, rfl, hd⟩

-- The tables that exist, if what is read for them can be read.
def tableMap (s : Storage) (keyspace : String) (fresh : Nat → Uuid) : SortedMap String Table :=
  .ofList ((rowNames (cells s Catalog.tables keyspace) []).zipIdx.map fun (t, i) =>
    (t, table (cells s Catalog.tables keyspace) (cells s Catalog.columns keyspace) keyspace t
      (fresh i)))

-- The keyspace, if it exists and what is read for it can be read.
def reading (s : Storage) (name : String) (fresh : Nat → Uuid) : Option Keyspace :=
  let attributes := cells s Catalog.keyspaces name
  if present attributes [] then some {
    name
    strategyClass := text attributes [Row.strategyClass]
    strategyOptions := ((value? attributes [Row.strategyOptions]).bind readOptions?).getD ∅
    durableWrites := (value? attributes [Row.durableWrites]).all (· == Utf8.encode "true")
    tables := tableMap s name fresh }
  else none

theorem keyspace_of_readable (h : Readable s name) (fresh : Nat → Uuid) :
    Stored.keyspace s name fresh = .ok (reading s name fresh) := by
  have ht : tables s name fresh = .ok (tableMap s name fresh) := by
    rw [tables, forM_eq_ok_iff.mpr h.ids, forM_eq_ok_iff.mpr h.kinds]
    rfl
  simp only [Stored.keyspace, options_eq_ok h.options, ht, reading]
  cases present (cells s Catalog.keyspaces name) [] <;> rfl

theorem getElem?_tableMap {t : String} {d : Table} :
    (tableMap s keyspace fresh)[t]? = some d ↔
      ∃ i, (t, i) ∈ (rowNames (cells s Catalog.tables keyspace) []).zipIdx ∧
        table (cells s Catalog.tables keyspace) (cells s Catalog.columns keyspace) keyspace t
          (fresh i) = d := by
  rw [tableMap, SortedMap.getElem?_ofList]
  case h =>
    rw [List.map_map]
    change (List.map Prod.fst _).Nodup
    rw [List.zipIdx_map_fst]
    exact nodup_rowNames
  simp only [List.mem_map, Prod.exists, Prod.mk.injEq]
  constructor
  case mp  => rintro ⟨t', i, hm, rfl, hd⟩; exact ⟨i, hm, hd⟩
  case mpr => rintro ⟨i, hm, hd⟩; exact ⟨t, i, hm, rfl, hd⟩

theorem exists_getElem?_tableMap {t : String} :
    (∃ d, (tableMap s keyspace fresh)[t]? = some d) ↔
      present (cells s Catalog.tables keyspace) [t] = true := by
  simp only [getElem?_tableMap]
  rw [← List.nil_append [t], ← CellName.child, ← mem_rowNames]
  constructor
  case mp  => rintro ⟨_, i, hm, -⟩; exact List.fst_mem_of_mem_zipIdx hm
  case mpr =>
    intro hm
    obtain ⟨i, hi, rfl⟩ := List.mem_iff_getElem.mp hm
    exact ⟨_, i, List.mk_mem_zipIdx_iff_getElem?.mpr (List.getElem?_eq_getElem hi), rfl⟩

theorem reading_eq_some {k : Keyspace} (h : reading s name fresh = some k) :
    present (cells s Catalog.keyspaces name) [] = true ∧ k.tables = tableMap s name fresh := by
  rw [reading, Option.ite_none_right_eq_some] at h
  have ⟨hp, hk⟩ := h
  cases hk
  exact ⟨hp, rfl⟩

theorem isSome_reading_iff :
    (reading s name fresh).isSome ↔ present (cells s Catalog.keyspaces name) [] = true := by
  rw [reading]
  split <;> simp_all

-- No table takes a fresh id.
def Identified (s : Storage) (keyspace : String) : Prop :=
  ∀ t, present (cells s Catalog.tables keyspace) [t] = true →
    (value? (cells s Catalog.tables keyspace) [t, Row.id]).isSome

theorem exists_readId?_eq_some
    (h : ∀ c ∈ cells s Catalog.tables keyspace, checkId keyspace c = .ok ()) {t : String}
    (hv : value? (cells s Catalog.tables keyspace) [t, Row.id] = some v) :
    ∃ u, readId? v = some u := by
  obtain ⟨c, hc, ⟨rest, hp⟩, rfl⟩ := exists_of_value?_eq_some hv
  have hr := h c hc
  simp only [checkId, ← hp, List.cons_append, true_and] at hr
  cases ho : readId? c.value
  case none   => simp [ho] at hr
  case some u => exact ⟨u, rfl⟩

theorem table_eq_of_isSome (h : ∀ c ∈ cells s Catalog.tables keyspace, checkId keyspace c = .ok ())
    {t : String} (hi : (value? (cells s Catalog.tables keyspace) [t, Row.id]).isSome)
    {u u' : Uuid} : table (cells s Catalog.tables keyspace) cs keyspace t u =
      table (cells s Catalog.tables keyspace) cs keyspace t u' := by
  have ⟨v, hv⟩ := Option.isSome_iff_exists.mp hi
  have ⟨u, hu⟩ := exists_readId?_eq_some h hv
  simp only [table, hv, Option.bind_some, hu, Option.getD_some]

-- Storages with the same cells for a keyspace read the same.
theorem keyspace_congr (h : ∀ family ∈ Catalog.schema, cells s family name = cells s' family name) :
    Stored.keyspace s name fresh = Stored.keyspace s' name fresh := by
  have hk := h _ Catalog.keyspaces_mem_schema
  have ht := h _ Catalog.tables_mem_schema
  have hc := h _ Catalog.columns_mem_schema
  simp only [Stored.keyspace, tables, hk, ht, hc]

end Stored
end ClusterMetadata
