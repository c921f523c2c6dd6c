import ClusterMetadata.Proofs.Storage.Writes

/-!
Mutations of one partition that are merged. Of each table the modifications of the first come before
those of the second, so that making them all at once leaves what making them in turn leaves, down to
the deletions that later writes will meet. Several mutations can be merged in any grouping
(`merged_is_sequential`).
-/

namespace ClusterMetadata

namespace Mutation

variable {a b c m : Mutation} {id : PartitionId}

-- Tables do not change what partition is meant.
theorem partition_extendAll (m : Mutation) (families : List (String × List Modification)) :
    (m.extendAll families).keyspace = m.keyspace ∧ (m.extendAll families).key = m.key := by
  induction families generalizing m
  case nil                => exact ⟨rfl, rfl⟩
  case cons f families hi => exact hi (m.extend f.1 f.2)

-- What a table has, and then what is given for it, one after the other.
theorem getElem?_families_extendAll (m : Mutation) (families : List (String × List Modification))
    (table : String) : (m.extendAll families).families[table]? =
      (families.filter (·.1 = table)).foldl (fun old f => some (old.getD [] ++ f.2))
        m.families[table]? := by
  induction families generalizing m
  case nil => rfl
  case cons f families hi =>
    have hf : (m.extend f.1 f.2).families[table]? =
        if f.1 = table then some (m.families[table]?.getD [] ++ f.2) else m.families[table]? := by
      rw [extend, Std.ExtTreeMap.getElem?_alter]
      by_cases ht : f.1 = table
      case pos => subst ht; simp
      case neg => simp [ht]
    rw [show m.extendAll (f :: families) = (m.extend f.1 f.2).extendAll families from rfl, hi, hf]
    by_cases ht : f.1 = table <;> simp [ht]

theorem getElem?_families_extendAll_toList (m : Mutation) (t : SortedMap String (List Modification))
    (table : String) : (m.extendAll t.toList).families[table]? =
      t[table]?.elim m.families[table]? fun mods => some (m.families[table]?.getD [] ++ mods) := by
  rw [getElem?_families_extendAll, SortedMap.filter_toList]
  cases t[table]? <;> rfl

-- A mutation is made from its own tables.
theorem ofFamilies_toList (m : Mutation) :
    ofFamilies m.keyspace m.key m.families.toList = m := by
  have ⟨hk, hb⟩ := (empty m.keyspace m.key).partition_extendAll m.families.toList
  refine Mutation.ext hk hb (Std.ExtTreeMap.ext_getElem? fun table => ?_)
  rw [ofFamilies, getElem?_families_extendAll_toList]
  cases m.families[table]? <;> simp [empty]

theorem on_eq (m : Mutation) (id : PartitionId) : m.on id =
    if m.keyspace = id.keyspace ∧ m.key = id.key then m.families[id.table]?.getD [] else [] := by
  split
  case isFalse hk =>
    refine List.eq_nil_iff_forall_not_mem.mpr fun mod hm => hk ?_
    have ⟨hk, hb, _⟩ := mem_on.mp hm
    exact ⟨hk, hb⟩
  case isTrue hk =>
    have filters (families : List (String × List Modification)) :
        (families.flatMap fun f => if ⟨m.keyspace, f.1, m.key⟩ = id then f.2 else []) =
          (families.filter (·.1 = id.table)).flatMap (·.2) := by
      induction families
      case nil => rfl
      case cons f families hi =>
        rw [List.flatMap_cons, hi]
        by_cases ht : f.1 = id.table <;> simp [PartitionId.ext_iff, hk, ht]
    rw [on, filters, SortedMap.filter_toList]
    cases m.families[id.table]? <;> simp

theorem merge?_eq_some_iff : a.merge? b = some m ↔
    (b.keyspace = a.keyspace ∧ b.key = a.key) ∧ a.extendAll b.families.toList = m := by
  rw [merge?, Option.ite_none_right_eq_some, Option.some.injEq]

-- What a merged mutation does to a partition is what the first does, and then what the second does.
theorem on_of_merge? (h : a.merge? b = some m) (id : PartitionId) :
    m.on id = a.on id ++ b.on id := by
  obtain ⟨⟨hk, hb⟩, rfl⟩ := merge?_eq_some_iff.mp h
  have ⟨hk', hb'⟩ := a.partition_extendAll b.families.toList
  rw [on_eq, on_eq, on_eq, hk', hb', hk, hb, getElem?_families_extendAll_toList]
  split
  case isFalse => rfl
  case isTrue  => cases b.families[id.table]? <;> simp

theorem extendAll_toList_assoc (a b : Mutation) (t : SortedMap String (List Modification)) :
    (a.extendAll b.families.toList).extendAll t.toList =
      a.extendAll (b.extendAll t.toList).families.toList := by
  have ⟨hk, hb⟩ := (a.extendAll b.families.toList).partition_extendAll t.toList
  have ⟨hk', hb'⟩ := a.partition_extendAll b.families.toList
  have ⟨hk'', hb''⟩ := a.partition_extendAll (b.extendAll t.toList).families.toList
  refine Mutation.ext ((hk.trans hk').trans hk''.symm) ((hb.trans hb').trans hb''.symm) ?_
  refine Std.ExtTreeMap.ext_getElem? fun table => ?_
  simp only [getElem?_families_extendAll_toList]
  cases b.families[table]? <;> cases t[table]? <;> simp

-- In whatever order three mutations are brought together, they are refused or come to the same.
theorem merge?_assoc (a b c : Mutation) :
    (a.merge? b).bind (·.merge? c) = (b.merge? c).bind (a.merge? ·) := by
  refine Option.ext fun m => ?_
  simp only [Option.bind_eq_some_iff, merge?_eq_some_iff]
  have ⟨hk, hb⟩ := a.partition_extendAll b.families.toList
  have ⟨hk', hb'⟩ := b.partition_extendAll c.families.toList
  constructor
  case mp =>
    rintro ⟨_, ⟨⟨hab, hab'⟩, rfl⟩, ⟨hc, hc'⟩, rfl⟩
    rw [hk] at hc
    rw [hb] at hc'
    exact ⟨_, ⟨⟨hc.trans hab.symm, hc'.trans hab'.symm⟩, rfl⟩,
      ⟨hk'.trans hab, hb'.trans hab'⟩, (extendAll_toList_assoc ..).symm⟩
  case mpr =>
    rintro ⟨_, ⟨⟨hc, hc'⟩, rfl⟩, ⟨ha, ha'⟩, rfl⟩
    rw [hk'] at ha
    rw [hb'] at ha'
    exact ⟨_, ⟨⟨ha, ha'⟩, rfl⟩, ⟨(hc.trans ha).trans hk.symm, (hc'.trans ha').trans hb.symm⟩,
      extendAll_toList_assoc ..⟩

end Mutation

namespace Storage

variable {s s' s'' : Storage} {w : PartitionId → List Modification}

-- The modifications determine what is stored.
theorem Stores.unique (h : Stores s w s') (h' : Stores s w s'') : s' = s'' := by
  refine Storage.ext (Std.ExtTreeMap.ext_getElem? fun id => ?_) (h.failing.trans h'.failing.symm)
  rw [h.stored, h'.stored]

theorem exists_apply_of_merge? {a b m : Mutation} (h : a.merge? b = some m)
    (hf : s.failing = false) : ∃ s₁ s₂, s.apply a = .ok s₁ ∧ s₁.apply b = .ok s₂ ∧
      s.apply m = .ok s₂ := by
  obtain ⟨s₁, h₁⟩ := exists_apply_eq_ok hf a
  have stores₁ := stores_apply h₁
  obtain ⟨s₂, h₂⟩ := exists_apply_eq_ok (stores₁.failing.trans hf) b
  obtain ⟨s', h'⟩ := exists_apply_eq_ok hf m
  have merged : Stores s (fun id => a.on id ++ b.on id) s' := by
    simpa only [funext (Mutation.on_of_merge? h)] using stores_apply h'
  refine ⟨s₁, s₂, h₁, h₂, ?_⟩
  rw [h', merged.unique (stores₁.trans (stores_apply h₂))]

end Storage

-- A mutation takes up another of the same partition, and stays as it is when asked to take up one of
-- another partition. What it has taken up is applied as if it came after it.
theorem merged_is_sequential (a b : Mutation) :
    let merged := (a.merge? b).getD a
    ((a.merge? b).isSome ↔ b.keyspace = a.keyspace ∧ b.key = a.key) ∧
    ((a.merge? b).isSome → ∀ s : Storage, s.failing = false → ∃ s₁ s₂,
      s.apply a = .ok s₁ ∧ s₁.apply b = .ok s₂ ∧ s.apply merged = .ok s₂) ∧
    (a.merge? b = none → merged = a) ∧
    ∀ c, (a.merge? b).bind (·.merge? c) = (b.merge? c).bind (a.merge? ·) := by
  intro merged
  refine ⟨?_, fun h s hf => ?_, fun h => ?_, Mutation.merge?_assoc a b⟩
  · simp [Mutation.merge?]
  · obtain ⟨m, hm⟩ := Option.isSome_iff_exists.mp h
    have merged_eq : merged = m := by rw [show merged = (a.merge? b).getD a from rfl, hm]; rfl
    rw [merged_eq]
    exact Storage.exists_apply_of_merge? hm hf
  · rw [show merged = (a.merge? b).getD a from rfl, h]
    rfl

-- The second deletes what the first writes in one table, and writes what it deletes in another.
theorem merged_is_sequential_of_deletions :
    let a := Mutation.ofFamilies "ks" [107]
      [("t", [.write ["x"] ⟨[1], 5⟩]), ("u", [.rangeTombstone [] ⟨7, 0⟩])]
    let b := Mutation.ofFamilies "ks" [107]
      [("u", [.write ["y"] ⟨[2], 6⟩]), ("t", [.tombstone ["x"] ⟨9, 0⟩])]
    let other := Mutation.ofFamilies "ks" [108] [("t", [.write ["x"] ⟨[3], 9⟩])]
    ((a.merge? b).isSome ∧ (∅ : Storage).failing = false ∧ ∃ s₁ s₂,
      (∅ : Storage).apply a = .ok s₁ ∧ s₁.apply b = .ok s₂ ∧
        (∅ : Storage).apply ((a.merge? b).getD a) = .ok s₂) ∧
    a.merge? other = none ∧ (a.merge? other).getD a = a := by
  intro a b other
  have taken : (a.merge? b).isSome := (merged_is_sequential a b).left.mpr ⟨rfl, rfl⟩
  have refused : a.merge? other = none := by
    rw [← Option.not_isSome_iff_eq_none, (merged_is_sequential a other).left]
    decide +kernel
  exact ⟨⟨taken, rfl, (merged_is_sequential a b).right.left taken ∅ rfl⟩, refused,
    (merged_is_sequential a other).right.right.left refused⟩

end ClusterMetadata
