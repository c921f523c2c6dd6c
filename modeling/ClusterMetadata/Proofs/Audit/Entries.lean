import ClusterMetadata.Proofs.Audit.Registry

/-!
The entries of the registry as cells. Additions and removals write markers and admin tags and
nothing else, so the answer to a question is the admin tag stored for the kind (`stored_eq`), and an
addition that comes after all there was is the answer from then on (`stored_add`).
-/

namespace ClusterMetadata.Registry

-- What a registry makes to be replicated.
inductive IsChange : Mutation → Prop
  | addition (target : String) (kind : AuditKind) (tag : String) (timestamp : Int64) :
      IsChange (addition target kind tag timestamp)
  | removal (target : String) (d : DeletionTime) : IsChange (removal target d)

-- A batch whose mutations of registry entries have been made by registries.
def IsRegular (batch : List Mutation) : Prop :=
  ∀ m ∈ batch, m.keyspace = Catalog.system → Catalog.registry ∈ m.tables → IsChange m

-- The cells of an entry.
def IsEntryName (n : CellName) : Prop :=
  ∃ code, n = [code, Row.marker] ∨ n = [code, adminTag]

def IsTidy (s : Storage) : Prop :=
  ∀ target n c, (s.partition (partition target)).cells[n]? = some c → IsEntryName n

variable {r : Registry} {s s' : Storage} {target target' : String} {kind kind' : AuditKind}
  {tag : String} {timestamp : Int64} {d : DeletionTime} {batch : List Mutation}

theorem partition_inj : partition target = partition target' ↔ target = target' := by
  simp only [partition, PartitionId.mk.injEq, true_and]
  exact Utf8.encode_inj

theorem addition_on (id : PartitionId) : (addition target kind tag timestamp).on id =
    if partition target = id then
      [.write [kind.code, Row.marker] ⟨[], timestamp⟩,
       .write [kind.code, adminTag] ⟨Utf8.encode tag, timestamp⟩]
    else [] :=
  Mutation.on_ofFamilies_singleton ..

theorem removal_on (id : PartitionId) : (removal target d).on id =
    if partition target = id then [.rangeTombstone [] d] else [] :=
  Mutation.on_ofFamilies_singleton ..

theorem IsChange.entryName {m : Mutation} {id : PartitionId} {n : CellName} {c : Stamped}
    (hm : IsChange m) (h : .write n c ∈ m.on id) : IsEntryName n := by
  cases hm
  case removal target d => simp [removal_on] at h
  case addition target kind tag timestamp =>
    simp only [addition_on, List.mem_ite_nil_right, List.mem_cons, List.not_mem_nil, or_false,
      Modification.write.injEq] at h
    exact ⟨kind.code, h.right.imp And.left And.left⟩

theorem IsChange.on_eq_nil {m : Mutation} {id : PartitionId} (hm : IsChange m)
    (h : id.table ≠ Catalog.registry) : m.on id = [] := by
  have other (target : String) : partition target ≠ id := fun he => h (he ▸ rfl)
  cases hm
  case addition => rw [addition_on, if_neg (other _)]
  case removal  => rw [removal_on, if_neg (other _)]

theorem IsTidy.writes {w : PartitionId → List Modification} (h : IsTidy s) (hw : s.Writes w s')
    (hn : ∀ target n c, .write n c ∈ w (partition target) → IsEntryName n) : IsTidy s' := by
  intro target n c hc
  rw [hw.partition] at hc
  rcases Partition.live_or_write_of_foldl hc with hc | hc
  · exact h target n c hc
  · exact hn target n c hc

theorem IsTidy.apply {m : Mutation} (h : IsTidy s) (hm : IsChange m) (ha : s.apply m = .ok s') :
    IsTidy s' :=
  h.writes (Storage.writes_apply ha) fun _ _ _ hw => hm.entryName hw

theorem IsTidy.merge (h : IsTidy s) (hb : IsRegular batch) (hw : s.Writes (batchOn batch) s') :
    IsTidy s' := by
  refine h.writes hw fun target n c hc => ?_
  have ⟨m, hm, hc⟩ := mem_batchOn.mp hc
  have ⟨hk, _, mods, hf, _⟩ := Mutation.mem_on.mp hc
  exact (hb m hm hk (SortedMap.mem_keys_iff.mpr ⟨mods, hf⟩)).entryName hc

-- The cell that holds the answer.
def tagCell? (s : Storage) (target : String) (kind : AuditKind) : Option Stamped :=
  (s.partition (partition target)).cells[[kind.code, adminTag]]?

theorem isEntry_iff {c : Cell} (hn : IsEntryName c.name) :
    isEntry c = true ↔ ∃ code, c.name = [code, adminTag] := by
  rcases hn with ⟨code, hn | hn⟩ <;> simp [isEntry, hn, Row.marker, adminTag]

theorem stored_eq (h : IsTidy s) :
    stored s target kind = (tagCell? s target kind).map (Utf8.lossy ·.value) := by
  rw [stored]
  cases hf : (s.read (partition target) (.under [kind.code])).find? isEntry
  case none =>
    cases he : tagCell? s target kind
    case none   => rfl
    case some c =>
      have hm : ⟨c, [kind.code, adminTag]⟩ ∈ s.read (partition target) (.under [kind.code]) :=
        Partition.mem_read.mpr ⟨by simp [CellRange.contains], he⟩
      exact absurd rfl (List.find?_eq_none.mp hf _ hm)
  case some c =>
    obtain ⟨hp, hc⟩ := Partition.mem_read.mp (List.mem_of_find?_eq_some hf)
    obtain ⟨code, hn⟩ := (isEntry_iff (h _ _ _ hc)).mp (List.find?_some hf)
    have hk : kind.code = code := by simpa [CellRange.contains, hn] using hp
    rw [hn, ← hk] at hc
    rw [tagCell?, hc]
    rfl

theorem stored_of_mem_entries (h : IsTidy s) {code : String}
    (he : (code, tag) ∈ entries s target) : stored s target (.custom code) = some tag := by
  obtain ⟨c, hc, he⟩ := List.mem_filterMap.mp he
  have ⟨_, hc⟩ := Partition.mem_read.mp hc
  rcases h _ _ _ hc with ⟨code', hn | hn⟩
  case inl => simp [hn, Row.marker, adminTag] at he
  case inr =>
    simp only [hn, if_true, Option.some.injEq, Prod.mk.injEq] at he
    rw [stored_eq h, tagCell?, AuditKind.code, ← he.left, ← hn, hc, ← he.right]
    rfl

-- Adding and removing entries.

theorem add_eq_ok {m : Mutation} {r' : Registry}
    (h : r.add s target kind tag timestamp = .ok (m, r', s')) :
    s.apply (addition target kind tag timestamp) = .ok s' ∧ r' = r.learn target kind.code tag := by
  have ⟨_, ha, h⟩ := bind_eq_ok_iff.mp h
  cases h
  exact ⟨ha, rfl⟩

theorem drop_eq_ok {m : Mutation} {r' : Registry} (h : r.drop s target d = .ok (m, r', s')) :
    s.apply (removal target d) = .ok s' ∧ r' = r.invalidate target := by
  have ⟨_, ha, h⟩ := bind_eq_ok_iff.mp h
  cases h
  exact ⟨ha, rfl⟩

theorem agree_of_add (h : s.apply (addition target kind tag timestamp) = .ok s')
    (ht : target ≠ target') : s.Agree s' (partition target') := by
  rw [Storage.Agree, (Storage.writes_apply h).partition, addition_on,
    if_neg (mt partition_inj.mp ht)]
  rfl

theorem agree_of_drop (h : s.apply (removal target d) = .ok s') (ht : target ≠ target') :
    s.Agree s' (partition target') := by
  rw [Storage.Agree, (Storage.writes_apply h).partition, removal_on,
    if_neg (mt partition_inj.mp ht)]
  rfl

-- An entry that comes after all that is stored for its target replaces the one of its kind.
theorem tagCell?_add (h : s.apply (addition target kind tag timestamp) = .ok s')
    (hb : (s.partition (partition target)).IsBefore timestamp) :
    tagCell? s' target' kind' =
      if target = target' ∧ kind.code = kind'.code then some ⟨Utf8.encode tag, timestamp⟩
      else tagCell? s target' kind' := by
  by_cases ht : target = target'
  case neg => rw [tagCell?, tagCell?, ← agree_of_add h ht, if_neg fun h => ht h.left]
  case pos =>
    subst ht
    let marked := (s.partition (partition target)).write [kind.code, Row.marker] ⟨[], timestamp⟩
    have hm (kind : AuditKind) : marked.cells[[kind.code, adminTag]]? = tagCell? s target kind :=
      Partition.getElem?_write_of_ne (by simp [adminTag, Row.marker])
    have hp : s'.partition (partition target) =
        marked.write [kind.code, adminTag] ⟨Utf8.encode tag, timestamp⟩ := by
      rw [(Storage.writes_apply h).partition, addition_on, if_pos rfl]
      rfl
    rw [tagCell?, hp]
    by_cases hk : kind.code = kind'.code
    case neg =>
      rw [Partition.getElem?_write_of_ne (by simpa [eq_comm] using hk), hm,
        if_neg fun h => hk h.right]
    case pos =>
      rw [← hk, if_pos ⟨rfl, rfl⟩]
      refine Partition.getElem?_write_of_later ?_ fun old ho => ?_
      · exact Partition.shadowed_write.trans hb.not_shadowed
      · exact hb.cells _ old (hm kind ▸ ho)

theorem Agrees.add (ha : r.Agrees s) (ht : IsTidy s)
    (h : s.apply (addition target kind tag timestamp) = .ok s')
    (hb : (s.partition (partition target)).IsBefore timestamp) :
    (r.learn target kind.code tag).Agrees s' := by
  have ht' : IsTidy s' := ht.apply (.addition ..) h
  intro target' kind' tag' hc
  rw [cached_learn] at hc
  rw [stored_eq ht', tagCell?_add h hb]
  split at hc
  case isTrue he =>
    cases hc
    rw [if_pos he, Option.map_some, Utf8.lossy_encode]
  case isFalse he =>
    rw [if_neg he, ← stored_eq ht]
    exact ha target' kind' tag' hc

theorem Agrees.drop (ha : r.Agrees s) (h : s.apply (removal target d) = .ok s') :
    (r.invalidate target).Agrees s' := by
  intro target' kind' tag' hc
  rw [cached_invalidate] at hc
  split at hc
  case isTrue     => cases hc
  case isFalse ht => exact stored_congr (agree_of_drop h ht) ▸ ha target' kind' tag' hc

theorem Agrees.invalidate (ha : r.Agrees s) : (r.invalidate target).Agrees s := by
  intro target' kind' tag' hc
  rw [cached_invalidate] at hc
  split at hc
  case isTrue  => cases hc
  case isFalse => exact ha target' kind' tag' hc

theorem Agrees.learnAll (ha : r.Agrees s) (ht : IsTidy s) : (r.learnAll s target).Agrees s := by
  unfold Registry.learnAll
  refine List.foldlRecOn (motive := fun r : Registry => r.Agrees s) _ _ ha fun r hr e he => ?_
  have hl := hr.learn (stored_of_mem_entries ht he)
  exact hl

theorem Agrees.hydrate {targets : List String} (ha : r.Agrees s) (ht : IsTidy s) :
    (r.hydrate s targets).2.Agrees s := by
  unfold Registry.hydrate
  refine List.foldlRecOn (motive := fun found : Nat × Registry => found.2.Agrees s) _ _ ha ?_
  exact fun _ hr _ _ => hr.learnAll ht

end ClusterMetadata.Registry
