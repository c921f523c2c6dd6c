import ClusterMetadata.Proofs.Except
import ClusterMetadata.Proofs.Storage.Live

/-!
What writing does to each partition of a storage: the modifications that are meant for it are made
in order, and nothing else happens. Reading then gives the live cells of the partition's history.
-/

namespace ClusterMetadata

-- The part of a mutation that is meant for one partition.
def Mutation.on (m : Mutation) (id : PartitionId) : List Modification :=
  m.families.toList.flatMap fun (table, mods) => if ⟨m.keyspace, table, m.key⟩ = id then mods else []

theorem Mutation.mem_on {m : Mutation} {id : PartitionId} {mod : Modification} :
    mod ∈ m.on id ↔ m.keyspace = id.keyspace ∧ m.key = id.key ∧
      ∃ mods, m.families[id.table]? = some mods ∧ mod ∈ mods := by
  simp only [on, List.mem_flatMap, Prod.exists, Std.ExtTreeMap.mem_toList_iff_getElem?_eq_some,
    List.mem_ite_nil_right, PartitionId.ext_iff]
  constructor
  case mp =>
    rintro ⟨table, mods, hf, ⟨hk, rfl, hb⟩, hm⟩
    exact ⟨hk, hb, mods, hf, hm⟩
  case mpr =>
    rintro ⟨hk, hb, mods, hf, hm⟩
    exact ⟨id.table, mods, hf, ⟨hk, rfl, hb⟩, hm⟩

theorem Mutation.mem_on_extend {m : Mutation} {id : PartitionId} {mod : Modification}
    {table : String} {mods : List Modification} : mod ∈ (m.extend table mods).on id ↔
      mod ∈ m.on id ∨
        m.keyspace = id.keyspace ∧ m.key = id.key ∧ table = id.table ∧ mod ∈ mods := by
  by_cases ht : table = id.table
  case neg => simp [mem_on, extend, Std.ExtTreeMap.getElem?_alter, ht]
  case pos =>
    subst ht
    simp only [mem_on, extend, Std.ExtTreeMap.getElem?_alter_self, Option.some.injEq,
      exists_eq_left', List.mem_append]
    cases m.families[id.table]? <;> simp [and_or_left]

theorem Mutation.mem_on_extendAll {m : Mutation} {id : PartitionId} {mod : Modification}
    {families : List (String × List Modification)} : mod ∈ (m.extendAll families).on id ↔
      mod ∈ m.on id ∨ m.keyspace = id.keyspace ∧ m.key = id.key ∧
        ∃ mods, (id.table, mods) ∈ families ∧ mod ∈ mods := by
  induction families generalizing m
  case nil => simp [extendAll]
  case cons f families hi =>
    have hf := hi (m := m.extend f.1 f.2)
    have he (mods) : (id.table, mods) = f ↔ f.1 = id.table ∧ mods = f.2 := by
      rw [Prod.ext_iff, eq_comm (a := id.table)]
    simp only [extendAll, List.foldl_cons] at hf ⊢
    rw [hf, mem_on_extend]
    simp only [extend, List.mem_cons, he, or_and_right, exists_or, and_assoc, exists_and_left,
      exists_eq_left, and_or_left, or_assoc]

theorem Mutation.mem_on_ofFamilies {keyspace : String} {key : Bytes} {id : PartitionId}
    {mod : Modification} {families : List (String × List Modification)} :
    mod ∈ (ofFamilies keyspace key families).on id ↔ keyspace = id.keyspace ∧ key = id.key ∧
      ∃ mods, (id.table, mods) ∈ families ∧ mod ∈ mods := by
  have he : mod ∉ (empty keyspace key).on id := by simp [mem_on, empty]
  rw [ofFamilies, mem_on_extendAll, or_iff_right he]
  rfl

theorem Mutation.on_ofFamilies_eq_nil {keyspace : String} {key : Bytes} {id : PartitionId}
    {families : List (String × List Modification)} (h : ∀ f ∈ families, f.1 ≠ id.table) :
    (ofFamilies keyspace key families).on id = [] := by
  refine List.eq_nil_iff_forall_not_mem.mpr fun mod hm => ?_
  have ⟨_, _, mods, hf, _⟩ := mem_on_ofFamilies.mp hm
  exact h _ hf rfl

theorem Mutation.toList_families_singleton (keyspace table : String) (key : Bytes)
    (mods : List Modification) :
    (ofFamilies keyspace key [(table, mods)]).families.toList = [(table, mods)] := by
  refine eq_of_ascending_map (f := Prod.fst) ?_ (by simp [Ascending]) fun e => ?_
  · rw [Std.ExtTreeMap.map_fst_toList_eq_keys]
    exact Std.ExtTreeMap.ordered_keys
  · rw [Std.ExtTreeMap.mem_toList_iff_getElem?_eq_some]
    simp only [ofFamilies, extendAll, extend, empty, List.foldl_cons, List.foldl_nil,
      Std.ExtTreeMap.getElem?_alter, Std.ExtTreeMap.getElem?_empty]
    grind

theorem Mutation.on_ofFamilies_singleton (keyspace table : String) (key : Bytes)
    (mods : List Modification) (id : PartitionId) :
    (ofFamilies keyspace key [(table, mods)]).on id =
      if ⟨keyspace, table, key⟩ = id then mods else [] := by
  rw [on, toList_families_singleton, List.flatMap_singleton]
  rfl

theorem Mutation.extendAll_ofFamilies (keyspace : String) (key : Bytes)
    (families families' : List (String × List Modification)) :
    (ofFamilies keyspace key families).extendAll families' =
      ofFamilies keyspace key (families ++ families') :=
  List.foldl_append.symm

theorem Mutation.extend_ofFamilies (keyspace table : String) (key : Bytes)
    (families : List (String × List Modification)) (mods : List Modification) :
    (ofFamilies keyspace key families).extend table mods =
      ofFamilies keyspace key (families ++ [(table, mods)]) :=
  extendAll_ofFamilies keyspace key families [(table, mods)]

-- The part of a batch that is meant for one partition.
def batchOn (batch : List Mutation) (id : PartitionId) : List Modification :=
  batch.flatMap (·.on id)

theorem batchOn_append (batch batch' : List Mutation) :
    batchOn (batch ++ batch') = fun id => batchOn batch id ++ batchOn batch' id := by
  funext id
  exact List.flatMap_append

theorem mem_batchOn {batch : List Mutation} {id : PartitionId} {mod : Modification} :
    mod ∈ batchOn batch id ↔ ∃ m ∈ batch, mod ∈ m.on id :=
  List.mem_flatMap

namespace Storage

-- `s'` is `s` after modifications by partition.
structure Writes (s : Storage) (w : PartitionId → List Modification) (s' : Storage) : Prop where
  partition : ∀ id, s'.partition id = (w id).foldl Partition.modify (s.partition id)
  failing   : s'.failing = s.failing

-- The same of what is stored: only a partition that is modified comes to be there.
structure Stores (s : Storage) (w : PartitionId → List Modification) (s' : Storage) : Prop where
  stored : ∀ id, s'.partitions[id]? =
    if w id = [] then s.partitions[id]? else some ((w id).foldl Partition.modify (s.partition id))
  failing : s'.failing = s.failing

variable {s s' s'' : Storage} {w w' : PartitionId → List Modification}

theorem Writes.refl : Writes s (fun _ => []) s := ⟨fun _ => rfl, rfl⟩

theorem Writes.trans (h : Writes s w s') (h' : Writes s' w' s'') :
    Writes s (fun id => w id ++ w' id) s'' where
  partition id := by rw [h'.partition, h.partition, List.foldl_append]
  failing      := h'.failing.trans h.failing

theorem Stores.writes (h : Stores s w s') : Writes s w s' where
  failing      := h.failing
  partition id := by
    rw [partition, h.stored]
    split
    case isTrue hw => rw [hw]; rfl
    case isFalse   => rfl

theorem Stores.refl : Stores s (fun _ => []) s := ⟨fun _ => (if_pos rfl).symm, rfl⟩

theorem Stores.trans (h : Stores s w s') (h' : Stores s' w' s'') :
    Stores s (fun id => w id ++ w' id) s'' where
  failing   := h'.failing.trans h.failing
  stored id := by
    rw [h'.stored, h.writes.partition, List.foldl_append]
    by_cases hw : w' id = []
    case neg => simp [hw]
    case pos => simp [hw, h.stored]

@[simp]
theorem partition_empty (id : PartitionId) : (∅ : Storage).partition id = ∅ := by
  have h : (∅ : Storage).partitions[id]? = none := Std.ExtTreeMap.getElem?_empty
  rw [partition, h, Option.getD_none]

theorem stores_modify {id : PartitionId} {mods : List Modification}
    (h : s.modify id mods = .ok s') : Stores s (fun id' => if id = id' then mods else []) s' := by
  simp only [modify] at h
  split at h
  case isTrue he =>
    cases h
    simp only [List.isEmpty_iff] at he
    exact ⟨fun id' => by simp [he], rfl⟩
  case isFalse he =>
    split at h
    case isTrue => cases h
    case isFalse =>
      cases h
      refine ⟨fun id' => ?_, rfl⟩
      have hm : mods ≠ [] := fun hm => he (List.isEmpty_iff.mpr hm)
      by_cases hi : id = id'
      case pos => simp [hi, hm]
      case neg => simp [Std.ExtTreeMap.getElem?_insert, hi]

theorem writes_modify {id : PartitionId} {mods : List Modification}
    (h : s.modify id mods = .ok s') : Writes s (fun id' => if id = id' then mods else []) s' :=
  (stores_modify h).writes

theorem writes_write {id : PartitionId} {n : CellName} {c : Stamped} (h : s.write id n c = .ok s') :
    Writes s (fun id' => if id = id' then [.write n c] else []) s' :=
  writes_modify h

theorem writes_delete {id : PartitionId} {path : CellName} {d : DeletionTime}
    (h : s.delete id path d = .ok s') :
    Writes s (fun id' => if id = id' then [.rangeTombstone path d] else []) s' :=
  writes_modify h

theorem exists_modify_eq_ok (hf : s.failing = false) (id : PartitionId)
    (mods : List Modification) : ∃ s', s.modify id mods = .ok s' := by
  simp only [modify, hf]
  split <;> exact ⟨_, rfl⟩

theorem modify_of_failing (hf : s.failing = true) (id : PartitionId) {mods : List Modification}
    (hm : mods ≠ []) : s.modify id mods = .error .writeFailure := by
  simp [modify, hf, hm]

theorem truncate_of_failing (hf : s.failing = true) (keyspace table : String) :
    s.truncate keyspace table = .error .writeFailure :=
  if_pos hf

section

variable {α : Type} {step : Storage → α → Except StorageError Storage}
  {effect : α → PartitionId → List Modification}

theorem stores_foldlM (hs : ∀ s a s', step s a = .ok s' → Stores s (effect a) s') {as : List α}
    (h : as.foldlM step s = .ok s') : Stores s (fun id => as.flatMap (effect · id)) s' := by
  induction as generalizing s
  case nil => cases h; exact .refl
  case cons a as hi =>
    rw [List.foldlM_cons] at h
    cases ha : step s a
    case error e => rw [ha] at h; cases h
    case ok s₁ =>
      rw [ha] at h
      exact (hs _ _ _ ha).trans (hi h)

theorem exists_foldlM_eq_ok (hs : ∀ s a s', step s a = .ok s' → Stores s (effect a) s')
    (ht : ∀ s, s.failing = false → ∀ a, ∃ s', step s a = .ok s') (hf : s.failing = false)
    (as : List α) : ∃ s', as.foldlM step s = .ok s' := by
  induction as generalizing s
  case nil => exact ⟨s, rfl⟩
  case cons a as hi =>
    have ⟨s₁, h₁⟩ := ht s hf a
    rw [List.foldlM_cons, h₁]
    exact hi ((hs _ _ _ h₁).failing.trans hf)

end

theorem stores_apply {m : Mutation} (h : s.apply m = .ok s') : Stores s m.on s' := by
  have hs (s : Storage) (f : String × List Modification) (s' : Storage)
      (h : s.modify ⟨m.keyspace, f.1, m.key⟩ f.2 = .ok s') := stores_modify h
  exact stores_foldlM hs h

theorem writes_apply {m : Mutation} (h : s.apply m = .ok s') : Writes s m.on s' :=
  (stores_apply h).writes

theorem exists_apply_eq_ok (hf : s.failing = false) (m : Mutation) : ∃ s', s.apply m = .ok s' :=
  exists_foldlM_eq_ok (fun _ _ _ h => stores_modify h)
    (fun _ hf _ => exists_modify_eq_ok hf ..) hf _

theorem writes_applyAll {batch : List Mutation} (h : s.applyAll batch = .ok s') :
    Writes s (batchOn batch) s' :=
  (stores_foldlM (fun _ _ _ h => stores_apply h) h).writes

theorem exists_applyAll_eq_ok (hf : s.failing = false) (batch : List Mutation) :
    ∃ s', s.applyAll batch = .ok s' :=
  exists_foldlM_eq_ok (fun _ _ _ h => stores_apply h) (fun _ hf m => exists_apply_eq_ok hf m) hf _

theorem applyAll_eq_error {batch : List Mutation} {e : StorageError}
    (h : s.applyAll batch = .error e) : e = .writeFailure := by
  have ⟨m, _, s₁, h⟩ := exists_of_foldlM_eq_error h
  have ⟨_, _, s₂, h⟩ := exists_of_foldlM_eq_error h
  simp only [modify] at h
  repeat' split at h
  all_goals cases h
  rfl

theorem partition_truncate {keyspace table : String} (h : s.truncate keyspace table = .ok s')
    (id : PartitionId) :
    s'.partition id = if id.keyspace = keyspace ∧ id.table = table then ∅ else s.partition id := by
  simp only [truncate] at h
  split at h
  case isTrue => cases h
  case isFalse =>
    cases h
    by_cases hi : id.keyspace = keyspace ∧ id.table = table
    case pos => simp [partition, hi]
    case neg =>
      have hk : (!(id.keyspace == keyspace && id.table == table)) = true := by
        simpa [imp_iff_not_or] using hi
      simp only [partition, Std.ExtTreeMap.getElem?_filter', hi, if_false, hk]
      cases s.partitions[id]? <;> rfl

theorem failing_truncate {keyspace table : String} (h : s.truncate keyspace table = .ok s') :
    s.failing = false ∧ s'.failing = false := by
  simp only [truncate] at h
  split at h
  case isTrue     => cases h
  case isFalse hf =>
    cases h
    exact ⟨eq_false_of_ne_true hf, eq_false_of_ne_true hf⟩

-- Truncation shows that the storage does not fail.
theorem failing_truncateAll {keyspace : String} {tables : List String}
    (h : tables.foldlM (·.truncate keyspace ·) s = .ok s') (hn : tables ≠ []) :
    s'.failing = false := by
  induction tables generalizing s
  case nil => exact absurd rfl hn
  case cons table tables hi =>
    rw [List.foldlM_cons, bind_eq_ok_iff] at h
    have ⟨s₁, ht, h⟩ := h
    cases tables
    case nil  => cases h; exact (failing_truncate ht).right
    case cons => exact hi h (by simp)

theorem partition_truncateAll {keyspace : String} {tables : List String}
    (h : tables.foldlM (·.truncate keyspace ·) s = .ok s') (id : PartitionId) :
    s'.partition id =
      if id.keyspace = keyspace ∧ id.table ∈ tables then ∅ else s.partition id := by
  induction tables generalizing s
  case nil => cases h; simp
  case cons table tables hi =>
    rw [List.foldlM_cons, bind_eq_ok_iff] at h
    have ⟨s₁, ht, h⟩ := h
    rw [hi h, partition_truncate ht]
    grind

-- Each partition holds what is live in its history.
def Reflects (s : Storage) (h : PartitionId → List Modification) : Prop :=
  ∀ id, (s.partition id).Reflects (h id)

variable {h h' : PartitionId → List Modification}

theorem reflects_empty : Reflects ∅ fun _ => [] :=
  fun id => partition_empty id ▸ Partition.reflects_empty

theorem Reflects.writes (hr : s.Reflects h) (hw : Writes s w s') :
    s'.Reflects fun id => h id ++ w id :=
  fun id => hw.partition id ▸ (hr id).foldl _

-- Both hold the same cells under the id, whatever they have deleted.
def Agree (s s' : Storage) (id : PartitionId) : Prop :=
  (s.partition id).cells = (s'.partition id).cells

theorem Reflects.agree (hr : s.Reflects h) (hr' : s'.Reflects h') {id : PartitionId}
    (hm : ∀ m, m ∈ h id ↔ m ∈ h' id) : Agree s s' id :=
  (hr id).cells_eq (hr' id) hm

theorem Agree.read_eq {id : PartitionId} (ha : Agree s s' id) (range : CellRange) :
    s.read id range = s'.read id range := by
  simp only [read, Partition.read, show (s.partition id).cells = (s'.partition id).cells from ha]

theorem mem_keys {keyspace table : String} {key : Bytes} :
    key ∈ s.keys keyspace table ↔
      ∃ (n : CellName) (c : Stamped), (s.partition ⟨keyspace, table, key⟩).cells[n]? = some c := by
  rw [← SortedMap.not_isEmpty_iff]
  simp only [keys, List.mem_filterMap, Prod.exists, Std.ExtTreeMap.mem_toList_iff_getElem?_eq_some,
    Option.ite_none_right_eq_some, Option.some.injEq]
  constructor
  case mp =>
    rintro ⟨id, p, hp, ⟨rfl, rfl, hc⟩, rfl⟩
    simpa [partition, hp] using hc
  case mpr =>
    intro hc
    cases hp : s.partitions[(⟨keyspace, table, key⟩ : PartitionId)]?
    case none =>
      have hn : s.partition ⟨keyspace, table, key⟩ = ∅ := by simp [partition, hp]
      exact absurd rfl (hn ▸ hc)
    case some p => exact ⟨_, p, hp, ⟨rfl, rfl, by simpa [partition, hp] using hc⟩, rfl⟩

theorem compare_mk {keyspace table : String} {key key' : Bytes} :
    compare (⟨keyspace, table, key⟩ : PartitionId) ⟨keyspace, table, key'⟩ = compare key key' := by
  change (compare keyspace keyspace).then ((compare table table).then (compare key key')) = _
  simp [Std.ReflOrd.compare_self]

theorem ascending_keys (keyspace table : String) : Ascending (s.keys keyspace table) := by
  refine List.Pairwise.filterMap _ ?_ Std.ExtTreeMap.ordered_keys_toList
  rintro ⟨⟨ks, t, key⟩, p⟩ ⟨⟨ks', t', key'⟩, p'⟩ hlt k hk k' hk'
  simp only [Option.ite_none_right_eq_some, Option.some.injEq] at hk hk'
  obtain ⟨⟨rfl, rfl, -⟩, rfl⟩ := hk
  obtain ⟨⟨rfl, rfl, -⟩, rfl⟩ := hk'
  exact compare_mk.symm.trans hlt

theorem keys_eq_of_agree {keyspace table : String}
    (ha : ∀ key, Agree s s' ⟨keyspace, table, key⟩) :
    s.keys keyspace table = s'.keys keyspace table := by
  refine (ascending_keys ..).eq_of_mem_iff (ascending_keys ..) fun key => ?_
  simp only [mem_keys, show (s.partition ⟨keyspace, table, key⟩).cells = _ from ha key]

end Storage
end ClusterMetadata
