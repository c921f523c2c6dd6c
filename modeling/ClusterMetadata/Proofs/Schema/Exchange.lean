import ClusterMetadata.Proofs.Schema.Rows
import ClusterMetadata.Schema.Store

/-!
Partitions that take the live cells of each other and none of the deletions. Two that have done so
hold the same cells unless one has deleted something that only the other still holds
(`getElem?_exchange_eq`). What a store sends of its schema tables is such cells.
-/

namespace ClusterMetadata

namespace Partition

variable {p q : Partition} {h h' w w' : List Modification} {n : CellName} {c : Stamped}

-- Exactly the writes of what the partition holds.
def IsSnapshot (p : Partition) (w : List Modification) : Prop :=
  ∀ m, m ∈ w ↔ ∃ n c, m = .write n c ∧ p.cells[n]? = some c

theorem IsSnapshot.isDeletion (hw : p.IsSnapshot w) : ∀ m ∈ w, m.isDeletion = false := by
  intro m hm
  obtain ⟨n, c, rfl, -⟩ := (hw m).mp hm
  rfl

theorem IsSnapshot.write_mem_iff (hw : p.IsSnapshot w) : .write n c ∈ w ↔ p.cells[n]? = some c := by
  rw [hw]
  constructor
  case mp  => rintro ⟨_, _, he, h⟩; cases he; exact h
  case mpr => exact fun h => ⟨n, c, rfl, h⟩

-- What one partition takes from the snapshot of another.
theorem Reflects.getElem?_foldl_snapshot (hr : p.Reflects h) (hw : q.IsSnapshot w) :
    (w.foldl Partition.modify p).cells[n]? =
      match q.cells[n]? with
      | none   => p.cells[n]?
      | some c =>
        if p.shadowed n c.timestamp then p.cells[n]? else some ((p.cells[n]?).elim c (max c)) := by
  have hf := (hr.foldl w).wins n
  rw [survivors_append_writes hw.isDeletion] at hf
  simp only [hw.write_mem_iff] at hf
  have hp := hr.wins n
  cases hq : q.cells[n]?
  case none => exact hf.unique (by simpa [hq] using hp)
  case some c =>
    simp only [hq, Option.some.injEq] at hf
    by_cases hs : p.shadowed n c.timestamp = true
    case pos =>
      have hc := (hr.shadowed_iff n _).mp hs
      have he : {c' | c = c' ∧ ¬Covered h n c'.timestamp} = ∅ := by
        refine Set.eq_empty_of_forall_notMem fun c' hc' => hc'.right (hc'.left ▸ hc)
      rw [he, Set.union_empty] at hf
      exact hf.unique (by simpa [hs] using hp)
    case neg =>
      have hc : ¬Covered h n c.timestamp := fun hc => hs ((hr.shadowed_iff n _).mpr hc)
      have he : {c' | c = c' ∧ ¬Covered h n c'.timestamp} = {c} := by
        ext c'
        exact ⟨fun hc' => hc'.left.symm, fun he => ⟨he.symm, he ▸ hc⟩⟩
      rw [he, Set.union_singleton] at hf
      exact hf.unique (by simpa [hs] using hp.insert c)

-- A partition that held nothing holds what it is sent.
theorem IsSnapshot.cells_foldl_empty (hw : q.IsSnapshot w) :
    (w.foldl Partition.modify ∅).cells = q.cells := by
  refine Std.ExtTreeMap.ext_getElem? fun n => ?_
  rw [reflects_empty.getElem?_foldl_snapshot hw]
  cases q.cells[n]? <;> simp

-- The partition has deleted what only the other still holds under the name.
def Hides (p q : Partition) (n : CellName) : Prop :=
  p.cells[n]? = none ∧ ∃ c, q.cells[n]? = some c ∧ p.shadowed n c.timestamp = true

-- A deletion later than all writes of the name here, and than what is live there.
theorem Reflects.hides_of_deletion (hr : p.Reflects h) {m : Modification} {path : CellName}
    {d : DeletionTime} (hm : m ∈ h) (hd : m.Deletes path d) (hp : path <+: n)
    (hw : ∀ c, .write n c ∈ h → c.timestamp ≤ d.markedAt) (hq : q.cells[n]? = some c)
    (hc : c.timestamp ≤ d.markedAt) : p.Hides q n := by
  refine ⟨?_, c, hq, (hr.shadowed_iff n _).mpr ⟨m, hm, path, d, hd, hp, hc⟩⟩
  cases hn : p.cells[n]?
  case none => rfl
  case some c' =>
    have hl := hr.getElem?_eq_some_iff.mp hn
    exact absurd (hw c' hl.greatest.left) (Std.not_le.mpr (hl.later m hm path d hd hp))

theorem Reflects.getElem?_foldl_snapshot_of_some (hr : p.Reflects h) (hw : q.IsSnapshot w)
    {old new : Stamped} (hp : p.cells[n]? = some old) (hq : q.cells[n]? = some new) :
    (w.foldl Partition.modify p).cells[n]? = some (max new old) := by
  rw [hr.getElem?_foldl_snapshot hw, hp, hq]
  have hg := (isLive_iff.mp (hr.getElem?_eq_some_iff.mp hp)).left
  by_cases hs : p.shadowed n new.timestamp = true
  case neg => simp [hs]
  case pos =>
    have hlt := lt_of_covered ((hr.shadowed_iff n _).mp hs) hg.right
    simp [hs, max_eq_right hlt.le]

section

-- `q` takes the snapshot of `p`, and then `p` that of `q`.
variable (hp : p.Reflects h) (hq : q.Reflects h') (hw : p.IsSnapshot w)
  (hw' : (w.foldl modify q).IsSnapshot w')

include hp hq hw hw'

theorem Hides.exchange_left (hh : p.Hides q n) :
    (w'.foldl Partition.modify p).cells[n]? = none ∧
      ∃ c, (w.foldl Partition.modify q).cells[n]? = some c := by
  have ⟨hn, c, hc, hs⟩ := hh
  have hq' : (w.foldl Partition.modify q).cells[n]? = some c := by
    rw [hq.getElem?_foldl_snapshot hw, hn, hc]
  refine ⟨?_, c, hq'⟩
  rw [hp.getElem?_foldl_snapshot hw', hq', hn]
  simp [hs]

theorem Hides.exchange_right (hh : q.Hides p n) :
    (w.foldl Partition.modify q).cells[n]? = none ∧
      ∃ c, (w'.foldl Partition.modify p).cells[n]? = some c := by
  have ⟨hn, c, hc, hs⟩ := hh
  have hq' : (w.foldl Partition.modify q).cells[n]? = none := by
    rw [hq.getElem?_foldl_snapshot hw, hn, hc]
    simp [hs]
  refine ⟨hq', c, ?_⟩
  rw [hp.getElem?_foldl_snapshot hw', hq', hc]

theorem getElem?_exchange_eq (hl : ¬p.Hides q n) (hr : ¬q.Hides p n) :
    (w'.foldl modify p).cells[n]? = (w.foldl modify q).cells[n]? := by
  have hq' := hq.getElem?_foldl_snapshot (n := n) hw
  cases hpn : p.cells[n]? <;> cases hqn : q.cells[n]?
  case none.none =>
    rw [hpn, hqn] at hq'
    rw [hp.getElem?_foldl_snapshot hw', hq', hpn]
  case none.some c =>
    have hs : ¬p.shadowed n c.timestamp = true := fun hs => hl ⟨hpn, c, hqn, hs⟩
    rw [hpn, hqn] at hq'
    rw [hp.getElem?_foldl_snapshot hw', hq', hpn]
    exact if_neg hs
  case some.none c =>
    have hs : ¬q.shadowed n c.timestamp = true := fun hs => hr ⟨hqn, c, hpn, hs⟩
    rw [hpn, hqn] at hq'
    have hq'' := hq'.trans (if_neg hs)
    rw [hp.getElem?_foldl_snapshot_of_some hw' hpn hq'', hq'']
    exact congrArg some (max_self c)
  case some.some c d =>
    have hq'' := hq.getElem?_foldl_snapshot_of_some hw hqn hpn
    rw [hp.getElem?_foldl_snapshot_of_some hw' hpn hq'', hq'', max_right_comm, max_self]

end

end Partition

namespace Schema

variable {s : Storage} {family : String} {key : Bytes}

theorem mem_snapshot {m : Modification} (hf : family ∈ Catalog.schema) :
    m ∈ (snapshot s key).on ⟨Catalog.system, family, key⟩ ↔
      ∃ n c, m = .write n c ∧ (s.partition ⟨Catalog.system, family, key⟩).cells[n]? = some c := by
  have hr : m ∈ cellWrites (s.read ⟨Catalog.system, family, key⟩ .all) ↔
      ∃ n c, m = .write n c ∧ (s.partition ⟨Catalog.system, family, key⟩).cells[n]? = some c := by
    simp only [cellWrites, List.mem_map, Storage.read, Partition.mem_read, CellRange.contains,
      true_and]
    constructor
    case mp  => rintro ⟨c, hc, rfl⟩; exact ⟨c.name, c.toStamped, rfl, hc⟩
    case mpr => rintro ⟨n, c, rfl, hc⟩; exact ⟨⟨c, n⟩, hc, rfl⟩
  rw [← hr, snapshot, Mutation.mem_on_ofFamilies]
  simp only [true_and, List.mem_filterMap]
  constructor
  case mp =>
    rintro ⟨mods, ⟨table, -, ht⟩, hm⟩
    split at ht
    case h_1 => cases ht
    case h_2 => cases ht; exact hm
  case mpr =>
    intro hm
    refine ⟨_, ⟨family, hf, ?_⟩, hm⟩
    split
    case h_1 he => simp [he, cellWrites] at hm
    case h_2    => rfl

-- Each partition of the schema tables is sent as it is.
theorem isSnapshot_serialize (s : Storage) (key : Bytes) (hf : family ∈ Catalog.schema) :
    (s.partition ⟨Catalog.system, family, key⟩).IsSnapshot
      (batchOn (serialize s) ⟨Catalog.system, family, key⟩) := by
  intro m
  rw [← mem_snapshot hf, mem_batchOn]
  simp only [serialize, List.mem_map, mem_distinct, List.mem_flatMap, exists_exists_and_eq_and]
  constructor
  case mp =>
    rintro ⟨key', -, hm⟩
    obtain ⟨-, rfl, -⟩ := Mutation.mem_on_ofFamilies.mp hm
    exact hm
  case mpr =>
    intro hm
    obtain ⟨n, c, -, hc⟩ := (mem_snapshot hf).mp hm
    exact ⟨key, ⟨family, hf, Storage.mem_keys.mpr ⟨n, c, hc⟩⟩, hm⟩

theorem regular_serialize (hs : s.IsRegular) : Regular (batchOn (serialize s)) := by
  have ⟨h, hp, hr⟩ := hs
  have hk {family key} (hf : family ∈ Catalog.schema) :=
    isSnapshot_serialize s key hf
  have live {family key n c} (hf : family ∈ Catalog.schema)
      (hm : .write n c ∈ batchOn (serialize s) ⟨Catalog.system, family, key⟩) :=
    (hk hf).write_mem_iff.mp hm
  constructor
  case rows =>
    refine fun family hf key => ⟨fun n c hm => ?_, fun m hm path d hd => ?_⟩
    · have hc := live hf hm
      obtain ⟨path, leaf, rfl, hd, hl, hv⟩ := (hr.rows family hf key).exists_path (hp _) hc
      refine ⟨path, leaf, rfl, hd, hl, hv, fun leaf' hl' => ?_⟩
      have ⟨c', hc', ht⟩ := (hr.rows family hf key).exists_live (hp _) hc hl'
      exact ⟨c', (hk hf).write_mem_iff.mpr hc', ht⟩
    · have hi := (hk hf).isDeletion m hm
      cases hd <;> cases hi
  case owner =>
    intro key t column leaf c hm
    have hc := live Catalog.columns_mem_schema hm
    have ⟨c', hc', ht⟩ := hr.exists_live_owner (hp _) (hp _) hc
    exact ⟨c', (hk Catalog.tables_mem_schema).write_mem_iff.mpr hc', ht⟩
  case owned =>
    intro key m hm path d hd
    have hi := (hk Catalog.tables_mem_schema).isDeletion m hm
    cases hd <;> cases hi

end Schema

end ClusterMetadata
