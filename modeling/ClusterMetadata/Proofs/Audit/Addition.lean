import ClusterMetadata.Proofs.Audit.Entries
import ClusterMetadata.Proofs.Storage.Prevailing

/-!
An addition to the registry on any storage, with cells and deletions of any instant. The registry
answers the tag that was added; the storage answers it exactly when the partition admits the
write or the tag was its answer already (`query_add_iff`).
-/

namespace ClusterMetadata

namespace Partition

variable {p : Partition} {n : CellName} {c : Stamped}

-- Nothing that is there hides the write or outdoes it.
structure Admits (p : Partition) (n : CellName) (c : Stamped) : Prop where
  shows : p.shadowed n c.timestamp = false
  le    : ∀ old, p.cells[n]? = some old → old ≤ c

theorem getElem?_write_of_admits (h : p.Admits n c) : (p.write n c).cells[n]? = some c := by
  rw [getElem?_write_self h.shows]
  cases ho : p.cells[n]?
  case none     => rfl
  case some old => simp [max_eq_left (h.le old ho)]

theorem write_of_not_admits (h : ¬p.Admits n c) : p.write n c = p := by
  cases hs : p.shadowed n c.timestamp
  case true => exact write_of_shadowed hs
  case false =>
    have ⟨old, ho, hl⟩ : ∃ old, p.cells[n]? = some old ∧ c < old := by
      by_contra hn
      exact h ⟨hs, fun old ho => not_lt.mp fun hl => hn ⟨old, ho, hl⟩⟩
    have hn : ¬c.supersedes old := fun hc => lt_asymm hl (Stamped.supersedes_iff.mp hc)
    simp [write, hs, ho, hn]

theorem SameAt.admits_iff {p' : Partition} (h : SameAt n p p') : p'.Admits n c ↔ p.Admits n c := by
  constructor
  case mp  => exact fun ha => ⟨h.shadowed _ ▸ ha.shows, h.cell ▸ ha.le⟩
  case mpr => exact fun ha => ⟨(h.shadowed _).trans ha.shows, h.cell.symm ▸ ha.le⟩

end Partition

namespace Registry

variable {r r' : Registry} {s s' : Storage} {target : String} {kind : AuditKind} {tag : String}
  {timestamp : Int64} {m : Mutation}

-- Only cells that are entries count for the answer.
theorem stored_eq_of_entries (h : ∀ n : CellName, n[1]? = some adminTag →
    (s.partition (partition target)).cells[n]? = (s'.partition (partition target)).cells[n]?) :
    stored s target kind = stored s' target kind := by
  have he : (s.read (partition target) (.under [kind.code])).filter isEntry =
      (s'.read (partition target) (.under [kind.code])).filter isEntry := by
    refine eq_of_ascending_map (f := Cell.name) ?_ ?_ fun c => ?_
    · exact Partition.ascending_read.sublist (List.filter_sublist.map _)
    · exact Partition.ascending_read.sublist (List.filter_sublist.map _)
    · simp only [List.mem_filter, Storage.read, Partition.mem_read, isEntry, beq_iff_eq]
      exact and_congr_left fun hc => by rw [h _ hc]
  rw [stored, stored, ← List.head?_filter, he, List.head?_filter]

theorem exists_of_isEntry {c : Cell} (he : isEntry c = true)
    (hc : (CellRange.under [kind.code]).contains c.name = true) :
    ∃ rest, c.name = [kind.code, adminTag] ++ rest := by
  have ⟨rest, hn⟩ : [kind.code] <+: c.name := by simpa [CellRange.contains] using hc
  cases rest
  case nil => simp [isEntry, ← hn] at he
  case cons leaf rest =>
    have hl : leaf = adminTag := by simpa [isEntry, ← hn] using he
    exact ⟨rest, by rw [← hn, hl]; rfl⟩

-- Whatever else is stored under the kind, the cell of an entry comes first.
theorem stored_of_tagCell? {c : Stamped} (h : tagCell? s target kind = some c) :
    stored s target kind = some (Utf8.lossy c.value) := by
  let cell : Cell := ⟨c, [kind.code, adminTag]⟩
  have hm : cell ∈ s.read (partition target) (.under [kind.code]) :=
    Partition.mem_read.mpr ⟨by simp [cell, CellRange.contains], h⟩
  cases hf : (s.read (partition target) (.under [kind.code])).find? isEntry
  case none => exact absurd rfl (List.find?_eq_none.mp hf _ hm)
  case some first =>
    obtain ⟨he, before, after, hr, hb⟩ := List.find?_eq_some_iff_append.mp hf
    have hp := (Partition.mem_read.mp (List.mem_of_find?_eq_some hf)).left
    have hc : first = cell := by
      rw [hr, List.mem_append, List.mem_cons] at hm
      rcases hm with hm | rfl | hm
      case inl => exact absurd (hb _ hm) (by simp [isEntry, cell])
      case inr.inl => rfl
      case inr.inr =>
        -- What comes before the cell does not extend its name, and an entry of the kind does.
        have ha : Ascending ((s.read (partition target) (.under [kind.code])).map (·.name)) :=
          Partition.ascending_read
        rw [hr, List.map_append, List.map_cons, Ascending, List.pairwise_append,
          List.pairwise_cons] at ha
        have hlt := ha.right.left.left _ (List.mem_map_of_mem hm)
        obtain ⟨rest, hn⟩ := exists_of_isEntry he hp
        have hle := CellName.isLE_compare_append cell.name rest
        rw [← hn, Std.OrientedOrd.eq_swap, hlt] at hle
        cases hle
    rw [stored, hf, hc]
    rfl

-- The marker is written first, which is nothing to the tag.
theorem exists_marked_of_add (h : s.apply (addition target kind tag timestamp) = .ok s') :
    ∃ marked : Partition,
      (∀ n : CellName, n[1]? = some adminTag →
        Partition.SameAt n (s.partition (partition target)) marked) ∧
      s'.partition (partition target) =
        marked.write [kind.code, adminTag] ⟨Utf8.encode tag, timestamp⟩ := by
  let marked := (s.partition (partition target)).write [kind.code, Row.marker] ⟨[], timestamp⟩
  refine ⟨marked, fun n hn => ?_, ?_⟩
  case refine_1 =>
    refine Partition.SameAt.write_of_ne ?_
    rintro rfl
    simp [Row.marker, adminTag] at hn
  case refine_2 =>
    rw [(Storage.writes_apply h).partition, addition_on, if_pos rfl]
    rfl

theorem stored_add_of_admits (h : s.apply (addition target kind tag timestamp) = .ok s')
    (ha : (s.partition (partition target)).Admits [kind.code, adminTag]
      ⟨Utf8.encode tag, timestamp⟩) : stored s' target kind = some tag := by
  have ⟨marked, same, hp⟩ := exists_marked_of_add h
  have hc : tagCell? s' target kind = some ⟨Utf8.encode tag, timestamp⟩ := by
    rw [tagCell?, hp]
    exact Partition.getElem?_write_of_admits ((same [kind.code, adminTag] rfl).admits_iff.mpr ha)
  rw [stored_of_tagCell? hc, Utf8.lossy_encode]

theorem stored_add_of_not_admits (h : s.apply (addition target kind tag timestamp) = .ok s')
    (ha : ¬(s.partition (partition target)).Admits [kind.code, adminTag]
      ⟨Utf8.encode tag, timestamp⟩) : stored s' target kind = stored s target kind := by
  have ⟨marked, same, hp⟩ := exists_marked_of_add h
  refine stored_eq_of_entries fun n hn => ?_
  rw [hp, Partition.write_of_not_admits (mt (same [kind.code, adminTag] rfl).admits_iff.mp ha)]
  exact (same n hn).cell

-- The answer right after an addition is its tag. A registry that has seen nothing agrees exactly
-- when the partition admits the tag, or the tag was what was stored before.
theorem query_add_iff (h : r.add s target kind tag timestamp = .ok (m, r', s')) :
    (r'.query s' target kind).1 = some tag ∧
    ((r'.query s' target kind).1 = ((∅ : Registry).query s' target kind).1 ↔
      (s.partition (partition target)).Admits [kind.code, adminTag]
          ⟨Utf8.encode tag, timestamp⟩ ∨
        stored s target kind = some tag) := by
  obtain ⟨hs, rfl⟩ := add_eq_ok h
  have hc : (r.learn target kind.code tag).cached target kind.code = some tag := by
    rw [cached_learn, if_pos ⟨rfl, rfl⟩]
  have hq : ((r.learn target kind.code tag).query s' target kind).1 = some tag := by
    simp only [query, hc]
  refine ⟨hq, ?_⟩
  rw [hq, agrees_empty.query_fst, eq_comm]
  by_cases ha : (s.partition (partition target)).Admits [kind.code, adminTag]
      ⟨Utf8.encode tag, timestamp⟩
  case pos => simp only [stored_add_of_admits hs ha, ha, true_or]
  case neg => rw [stored_add_of_not_admits hs ha, or_iff_right ha]

-- An entry is added on a storage that holds an earlier entry of the kind.
theorem query_add_iff_of_earlier_entry :
    let added := (∅ : Registry).add ∅ "app.users" .tableAltered "off" 1000
    ∃ m r s m' r' s', added = .ok (m, r, s) ∧
      r.add s "app.users" .tableAltered "on" 2000 = .ok (m', r', s') ∧
      (r'.query s' "app.users" .tableAltered).1 = some "on" ∧
      ((r'.query s' "app.users" .tableAltered).1 =
          ((∅ : Registry).query s' "app.users" .tableAltered).1 ↔
        (s.partition (partition "app.users")).Admits [AuditKind.tableAltered.code, adminTag]
            ⟨Utf8.encode "on", 2000⟩ ∨
          stored s "app.users" .tableAltered = some "on") :=
  ⟨_, _, _, _, _, _, rfl, rfl, query_add_iff rfl⟩

-- All entries of the target are removed by a node whose clock is ahead. What is added here before
-- that instant is not stored, and the registry answers it nevertheless.
theorem query_ne_of_later_removal :
    ∃ s m r' s', (∅ : Storage).apply (removal "app.users" ⟨2000, 0⟩) = .ok s ∧
      (∅ : Registry).add s "app.users" .tableAltered "on" 1000 = .ok (m, r', s') ∧
      (r'.query s' "app.users" .tableAltered).1 = some "on" ∧
      ((∅ : Registry).query s' "app.users" .tableAltered).1 = none :=
  ⟨_, _, _, _, rfl, rfl, by decide +kernel, by decide +kernel⟩

end Registry
end ClusterMetadata
