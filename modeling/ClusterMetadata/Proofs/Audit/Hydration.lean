import ClusterMetadata.Proofs.Audit.Addition

/-!
Hydration against asking. Both look at the cells that extend the name of an entry: a question takes
the first of them that it finds, hydration keeps the last that it comes upon. So a hydrated registry
answers as one that has seen nothing exactly while the two hold the same tag (`query_hydrate_iff`).
-/

namespace ClusterMetadata

theorem Partition.filter_read_all {p : Partition} {range : CellRange} :
    (p.read .all).filter (range.contains ·.name) = p.read range := by
  refine eq_of_ascending_map (f := Cell.name) ?_ ascending_read fun c => ?_
  · exact ascending_read.sublist (List.filter_sublist.map _)
  · simp only [List.mem_filter, mem_read]
    exact ⟨fun h => ⟨h.right, h.left.right⟩, fun h => ⟨⟨rfl, h.right⟩, h.left⟩⟩

namespace Registry

variable {r : Registry} {s : Storage} {target target' : String} {kind : AuditKind} {code : String}
  {targets : List String} {c : Cell}

-- The tags stored for the kind, in the order of their cells. A registry writes a single one, but
-- others may have put cells below it.
def tags (s : Storage) (target : String) (kind : AuditKind) : List String :=
  (s.read (partition target) (.under [kind.code, adminTag])).map (Utf8.lossy ·.value)

theorem under_and_isEntry_iff :
    (CellRange.under [code]).contains c.name = true ∧ isEntry c = true ↔
      (CellRange.under [code, adminTag]).contains c.name = true := by
  rcases c with ⟨_, _ | ⟨first, _ | ⟨second, rest⟩⟩⟩ <;>
    simp [CellRange.contains, isEntry, eq_comm (a := adminTag)]

-- A question stops at the first tag.
theorem stored_eq_head? : stored s target kind = (tags s target kind).head? := by
  have he : (s.read (partition target) (.under [kind.code])).filter isEntry =
      s.read (partition target) (.under [kind.code, adminTag]) := by
    refine eq_of_ascending_map (f := Cell.name) ?_ Partition.ascending_read fun c => ?_
    · exact Partition.ascending_read.sublist (List.filter_sublist.map _)
    · simp only [List.mem_filter, Storage.read, Partition.mem_read, ← under_and_isEntry_iff,
        and_right_comm]
  rw [stored, ← List.head?_filter, he, tags, List.head?_map]

-- Hydration comes upon all of them.
theorem map_filter_entries (target : String) (kind : AuditKind) :
    ((entries s target).filter (·.1 == kind.code)).map (·.2) = tags s target kind := by
  rw [tags, Storage.read, ← Partition.filter_read_all, entries, Storage.read, List.filter_filterMap,
    List.map_filterMap, ← List.filterMap_eq_map, List.filterMap_filter]
  refine List.filterMap_congr fun c _ => ?_
  rcases c with ⟨_, _ | ⟨first, _ | ⟨second, rest⟩⟩⟩
  case nil    => rfl
  case cons.nil => simp [CellRange.contains]
  case cons.cons =>
    by_cases hl : second = adminTag <;> by_cases hf : first = kind.code <;>
      simp [CellRange.contains, hl, hf, eq_comm (a := kind.code), eq_comm (a := adminTag)]

-- Of the tags that are learned for one code the last one stays.
theorem cached_foldl_learn {es : List (String × String)} :
    (es.foldl (fun r e => r.learn target e.1 e.2) r).cached target' code =
      if target = target' then
        ((es.filter (·.1 == code)).map (·.2)).getLast?.or (r.cached target' code)
      else r.cached target' code := by
  induction es generalizing r
  case nil => simp
  case cons e es hi =>
    rw [List.foldl_cons, hi, cached_learn]
    by_cases ht : target = target' <;> by_cases he : e.1 = code
    case pos => simp [ht, he, List.getLast?_cons]
    all_goals simp [ht, he]

theorem cached_learnAll : (r.learnAll s target).cached target' kind.code =
    if target = target' then (tags s target' kind).getLast?.or (r.cached target' kind.code)
    else r.cached target' kind.code := by
  refine cached_foldl_learn.trans ?_
  split
  case isTrue ht => rw [ht, map_filter_entries]
  case isFalse   => rfl

theorem cached_hydrate : (r.hydrate s targets).2.cached target kind.code =
    if target ∈ targets then (tags s target kind).getLast?.or (r.cached target kind.code)
    else r.cached target kind.code := by
  unfold hydrate
  generalize 0 = found
  induction targets generalizing r found
  case nil => simp
  case cons t targets hi =>
    rw [List.foldl_cons, hi, cached_learnAll]
    by_cases ht : t = target <;> by_cases hm : target ∈ targets <;>
      simp [ht, hm, ← Option.or_assoc, eq_comm (a := target)]

-- A registry that has seen nothing hydrates. Of the tags of a hydrated target it answers the last
-- one, and of all others the first; this changes an answer exactly when the target is hydrated and
-- the two are not the same.
theorem query_hydrate_iff (s : Storage) (targets : List String) (target : String)
    (kind : AuditKind) :
    let hydrated := ((∅ : Registry).hydrate s targets).2
    (hydrated.query s target kind).1 =
      (if target ∈ targets then (tags s target kind).getLast? else (tags s target kind).head?) ∧
    ((∅ : Registry).query s target kind).1 = (tags s target kind).head? ∧
    ((hydrated.query s target kind).1 = ((∅ : Registry).query s target kind).1 ↔
      (target ∈ targets → (tags s target kind).getLast? = (tags s target kind).head?)) := by
  intro hydrated
  have hn : ((∅ : Registry).query s target kind).1 = (tags s target kind).head? := by
    rw [agrees_empty.query_fst, stored_eq_head?]
  have hh : (hydrated.query s target kind).1 =
      if target ∈ targets then (tags s target kind).getLast? else (tags s target kind).head? := by
    have hc : hydrated.cached target kind.code =
        if target ∈ targets then (tags s target kind).getLast? else none := by
      rw [cached_hydrate, cached_empty, Option.or_none]
    cases hl : (tags s target kind).getLast?
    case none =>
      have ht : tags s target kind = [] := List.getLast?_eq_none_iff.mp hl
      rw [hl, ite_self] at hc
      simp [query, hc, stored_eq_head?, ht]
    case some tag =>
      by_cases hm : target ∈ targets
      case pos => simp [query, hc, hl, hm]
      case neg =>
        rw [if_neg hm] at hc
        rw [if_neg hm, ← hn, query_eq_iff, hc]
        intro tag h
        cases h
  refine ⟨hh, hn, ?_⟩
  rw [hh, hn]
  split
  case isTrue hm  => simp only [hm, true_implies]
  case isFalse hm => simp only [hm, false_implies]

-- A mutation puts another tag below an entry. Who asks is answered by the entry, who has hydrated
-- by what is below it.
theorem query_hydrate_ne_of_deeper_cell :
    let m : Mutation := .ofFamilies Catalog.system (Utf8.encode "app.users") [(Catalog.registry,
      [.write [AuditKind.tableAltered.code, adminTag] ⟨Utf8.encode "on", 1000⟩,
       .write [AuditKind.tableAltered.code, adminTag, "x"] ⟨Utf8.encode "off", 1000⟩])]
    ∃ s, (∅ : Storage).apply m = .ok s ∧
      ((∅ : Registry).query s "app.users" .tableAltered).1 = some "on" ∧
      (((∅ : Registry).hydrate s ["app.users"]).2.query s "app.users" .tableAltered).1 =
        some "off" :=
  ⟨_, rfl, by decide +kernel, by decide +kernel⟩

end Registry
end ClusterMetadata
