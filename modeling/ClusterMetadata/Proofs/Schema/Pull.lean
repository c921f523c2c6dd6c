import ClusterMetadata.Proofs.Schema.Convergence
import ClusterMetadata.Proofs.Schema.Exchange

/-!
Stores that pull each other's schema. Afterwards they agree unless one has deleted something that
only the other still holds (`pulls_agree_iff`): deletions do not travel with a pull.
-/

namespace ClusterMetadata

namespace Replica

variable {a a' b b' r r' source : Replica} {name family : String} {key : Bytes} {n : CellName}

-- The rows that the schema in memory shows are those whose markers are live.
theorem Sound.exists_hasRow_iff {k : Keyspace} {path : CellName} (hs : Sound r)
    (hk : r.schema.keyspaces[name]? = some k) (hf : family ∈ Catalog.schema)
    (hl : path.length = Row.depth family) : (∃ cells, k.HasRow path cells) ↔
      ∃ c, (r.storage.partition ⟨Catalog.system, family, Utf8.encode name⟩).cells[
        path.child Row.marker]? = some c := by
  obtain ⟨fresh, hr⟩ := hs.exists_reading name
  obtain ⟨hp, ht⟩ := Stored.reading_eq_some (hr.symm.trans hk)
  have tables_iff (t : String) : (∃ d, k.tables[t]? = some d) ↔
      Stored.present (Stored.cells r.storage Catalog.tables name) [t] = true :=
    ht ▸ Stored.exists_getElem?_tableMap
  have name_eq {t} {d : Table} (hd : k.tables[t]? = some d) : d.name = t := by
    obtain ⟨i, -, rfl⟩ := Stored.getElem?_tableMap.mp (ht ▸ hd)
    rfl
  rw [← hs.regular.present_iff hf hl]
  simp only [Catalog.schema, List.mem_cons, List.not_mem_nil, or_false] at hf
  obtain rfl | rfl | rfl := hf
  · cases List.eq_nil_of_length_eq_zero hl
    exact iff_of_true ⟨_, .keyspace⟩ hp
  · obtain ⟨t, rfl⟩ := List.length_eq_one_iff.mp hl
    rw [← tables_iff]
    constructor
    case mp =>
      rintro ⟨_, h⟩
      cases h with | table hd hr => cases hr with | table => exact ⟨_, name_eq hd ▸ hd⟩
    case mpr =>
      rintro ⟨d, hd⟩
      have hr : d.HasRow [t] d.cells := name_eq hd ▸ Table.HasRow.table
      exact ⟨_, .table hd hr⟩
  · obtain ⟨t, c, rfl⟩ := List.length_eq_two.mp hl
    have columns_iff {t} {d : Table} (hd : k.tables[t]? = some d) {c e} : d.columns[c]? = some e ↔
        Stored.present (Stored.cells r.storage Catalog.columns name) [t, c] = true ∧
          Stored.column (Stored.cells r.storage Catalog.columns name) t c = e := by
      obtain ⟨i, -, rfl⟩ := Stored.getElem?_tableMap.mp (ht ▸ hd)
      exact Stored.getElem?_columns
    constructor
    case mp =>
      rintro ⟨_, h⟩
      cases h with | table hd hr => cases hr with | column he =>
      obtain ⟨hp, rfl⟩ := (columns_iff hd).mp he
      exact name_eq hd ▸ hp
    case mpr =>
      intro h
      obtain ⟨_, hm⟩ := (hs.regular.present_iff Catalog.columns_mem_schema hl).mp h
      obtain ⟨_, hp, hr⟩ := hs.regular
      obtain ⟨_, ho, -⟩ := hr.exists_live_owner (hp _) (hp _) hm
      have ht' : Stored.present (Stored.cells r.storage Catalog.tables name) [t] = true :=
        (hs.regular.present_iff Catalog.tables_mem_schema rfl).mpr ⟨_, ho⟩
      obtain ⟨d, hd⟩ := (tables_iff t).mpr ht'
      have he := (columns_iff hd).mpr ⟨h, rfl⟩
      have hr : d.HasRow [d.name, c] _ := .column he
      exact ⟨_, .table hd (name_eq hd ▸ hr)⟩

theorem Sound.mem_keyspaces_iff (hs : Sound r) : name ∈ r.schema.keyspaces ↔
    ∃ c, (r.storage.partition ⟨Catalog.system, Catalog.keyspaces, Utf8.encode name⟩).cells[
      [Row.marker]]? = some c := by
  have ⟨fresh, hr⟩ := hs.exists_reading name
  rw [Std.ExtTreeMap.mem_iff_isSome_getElem?, hr, Stored.isSome_reading_iff]
  exact hs.regular.present_iff Catalog.keyspaces_mem_schema rfl

-- Stores that show a keyspace alike hold the same cells of it alive.
theorem Sound.exists_live_of_keyspaces_eq {k : Keyspace} (hs : Sound r) (hs' : Sound r')
    (hk : r.schema.keyspaces[name]? = some k) (hk' : r'.schema.keyspaces[name]? = some k)
    (hf : family ∈ Catalog.schema)
    (hl : ∃ c,
      (r.storage.partition ⟨Catalog.system, family, Utf8.encode name⟩).cells[n]? = some c) :
    ∃ c, (r'.storage.partition ⟨Catalog.system, family, Utf8.encode name⟩).cells[n]? = some c := by
  have ⟨c, hc⟩ := hl
  have hm : (⟨c, n⟩ : Cell) ∈ Stored.cells r.storage family name := Stored.mem_cells.mpr hc
  obtain ⟨path, leaf, rfl, hd, hleaf, -⟩ := hs.regular.exists_path hf hm
  have hr := hs.regular.exists_live hf (Row.marker_mem_leaves family) ⟨c, hc⟩
  have hr' := (hs'.exists_hasRow_iff hk' hf hd).mp ((hs.exists_hasRow_iff hk hf hd).mpr hr)
  exact hs'.regular.exists_live hf hleaf hr'

-- Merges all that the other store sends.
def pull (r source : Replica) : Except StorageError Replica :=
  r.merge (Schema.serialize source.storage)

theorem Sound.pull (hs : Sound r) (hs' : Sound source) :
    ∃ r', r.pull source = .ok r' ∧ Sound r' :=
  hs.merge (Schema.regular_serialize hs'.regular)

theorem partition_pull (h : r.pull source = .ok r') (id : PartitionId) :
    r'.storage.partition id = (batchOn (Schema.serialize source.storage) id).foldl Partition.modify
      (r.storage.partition id) :=
  (writes_merge h).partition id

-- What is live before a pull, here or there, and what is live after it.
theorem Sound.live_of_pull (hs : Sound r) (h : r.pull source = .ok r')
    (hf : family ∈ Catalog.schema) :
    let live (r : Replica) :=
      ∃ c, (r.storage.partition ⟨Catalog.system, family, key⟩).cells[n]? = some c
    (live r → live r') ∧ (live r' → live r ∨ live source) := by
  have ⟨_, hp, _⟩ := hs.regular
  have hk := Schema.isSnapshot_serialize source.storage key hf
  simp only [partition_pull h, (hp _).getElem?_foldl_snapshot hk]
  cases (source.storage.partition ⟨Catalog.system, family, key⟩).cells[n]?
  case none => simp
  case some c =>
    cases (r.storage.partition ⟨Catalog.system, family, key⟩).cells[n]?
    all_goals
      simp only [Option.elim_none, Option.elim_some]
      split <;> simp

theorem Sound.mem_keyspaces_pull (hs : Sound r) (hs' : Sound source) (h : r.pull source = .ok r')
    (hr : Sound r') (name : String) :
    (name ∈ r.schema.keyspaces → name ∈ r'.schema.keyspaces) ∧
    (name ∈ r'.schema.keyspaces → name ∈ r.schema.keyspaces ∨ name ∈ source.schema.keyspaces) := by
  simp only [hs.mem_keyspaces_iff, hs'.mem_keyspaces_iff, hr.mem_keyspaces_iff]
  exact hs.live_of_pull h Catalog.keyspaces_mem_schema

-- The store has deleted something under the key that only the other still holds.
def Hides (r r' : Replica) (key : Bytes) : Prop :=
  ∃ family ∈ Catalog.schema, ∃ n, (r.storage.partition ⟨Catalog.system, family, key⟩).Hides
    (r'.storage.partition ⟨Catalog.system, family, key⟩) n

section

variable (ha : Sound a) (hb : Sound b) (hba : b.pull a = .ok b') (hab : a.pull b' = .ok a')

include ha hb hba hab

theorem Hides.exchange_left (hh : a.Hides b key) : ∃ family ∈ Catalog.schema, ∃ n : CellName,
    (a'.storage.partition ⟨Catalog.system, family, key⟩).cells[n]? = none ∧
      ∃ c, (b'.storage.partition ⟨Catalog.system, family, key⟩).cells[n]? = some c := by
  have ⟨_, hpa, _⟩ := ha.regular
  have ⟨_, hpb, _⟩ := hb.regular
  have ⟨family, hf, n, hh⟩ := hh
  refine ⟨family, hf, n, ?_⟩
  rw [partition_pull hab, partition_pull hba]
  exact hh.exchange_left (hpa _) (hpb _) (Schema.isSnapshot_serialize _ _ hf)
    (partition_pull hba _ ▸ Schema.isSnapshot_serialize _ _ hf)

theorem Hides.exchange_right (hh : b.Hides a key) : ∃ family ∈ Catalog.schema, ∃ n : CellName,
    (b'.storage.partition ⟨Catalog.system, family, key⟩).cells[n]? = none ∧
      ∃ c, (a'.storage.partition ⟨Catalog.system, family, key⟩).cells[n]? = some c := by
  have ⟨_, hpa, _⟩ := ha.regular
  have ⟨_, hpb, _⟩ := hb.regular
  have ⟨family, hf, n, hh⟩ := hh
  refine ⟨family, hf, n, ?_⟩
  rw [partition_pull hab, partition_pull hba]
  exact hh.exchange_right (hpa _) (hpb _) (Schema.isSnapshot_serialize _ _ hf)
    (partition_pull hba _ ▸ Schema.isSnapshot_serialize _ _ hf)

theorem agree_iff_not_hides :
    (∀ family ∈ Catalog.schema, a'.storage.Agree b'.storage ⟨Catalog.system, family, key⟩) ↔
      ¬a.Hides b key ∧ ¬b.Hides a key := by
  constructor
  case mp =>
    intro he
    refine ⟨fun hh => ?_, fun hh => ?_⟩
    · have ⟨family, hf, n, hn, c, hc⟩ := hh.exchange_left ha hb hba hab
      rw [show (a'.storage.partition _).cells = _ from he family hf, hc] at hn
      cases hn
    · have ⟨family, hf, n, hn, c, hc⟩ := hh.exchange_right ha hb hba hab
      rw [show (a'.storage.partition _).cells = _ from he family hf, hn] at hc
      cases hc
  case mpr =>
    intro ⟨hl, hr⟩ family hf
    have ⟨_, hpa, _⟩ := ha.regular
    have ⟨_, hpb, _⟩ := hb.regular
    refine Std.ExtTreeMap.ext_getElem? fun n => ?_
    rw [partition_pull hab, partition_pull hba]
    refine Partition.getElem?_exchange_eq (hpa _) (hpb _) (Schema.isSnapshot_serialize _ _ hf)
      (partition_pull hba _ ▸ Schema.isSnapshot_serialize _ _ hf) (fun hh => ?_) fun hh => ?_
    · exact hl ⟨family, hf, n, hh⟩
    · exact hr ⟨family, hf, n, hh⟩

theorem keyspaces_eq_iff_not_hides : a'.schema.keyspaces = b'.schema.keyspaces ↔
    ∀ name, name ∈ a.schema.keyspaces ∨ name ∈ b.schema.keyspaces →
      ¬a.Hides b (Utf8.encode name) ∧ ¬b.Hides a (Utf8.encode name) := by
  have ⟨b₁, hb₁, hsb⟩ := hb.pull ha
  obtain rfl := Except.ok.inj (hb₁.symm.trans hba)
  have ⟨a₁, ha₁, hsa⟩ := ha.pull hsb
  obtain rfl := Except.ok.inj (ha₁.symm.trans hab)
  have hpb := hb.mem_keyspaces_pull ha hba hsb
  have hpa := ha.mem_keyspaces_pull hsb hab hsa
  constructor
  case mpr =>
    intro hh
    refine Std.ExtTreeMap.ext_getElem? fun name => ?_
    by_cases hm : name ∈ a.schema.keyspaces ∨ name ∈ b.schema.keyspaces
    case pos =>
      refine hsa.getElem?_keyspaces_eq hsb fun family hf => ?_
      have hag := (agree_iff_not_hides ha hb hba hab).mpr (hh name hm)
      exact (hag family hf).read_eq .all
    case neg =>
      have hnb : name ∉ b₁.schema.keyspaces := fun hb' => hm ((hpb name).right hb').symm
      have hna : name ∉ a₁.schema.keyspaces := fun ha' =>
        ((hpa name).right ha').elim (hm ∘ .inl) hnb
      rw [Std.ExtTreeMap.getElem?_eq_none hna, Std.ExtTreeMap.getElem?_eq_none hnb]
  case mp =>
    intro he name hm
    have hmb : name ∈ b₁.schema.keyspaces := by
      cases hm
      case inl hm => exact he ▸ (hpa name).left hm
      case inr hm => exact (hpb name).left hm
    have ⟨k, hk⟩ := Option.isSome_iff_exists.mp (Std.ExtTreeMap.mem_iff_isSome_getElem?.mp hmb)
    refine ⟨fun hh => ?_, fun hh => ?_⟩
    · have ⟨family, hf, n, hn, hl⟩ := hh.exchange_left ha hb hba hab
      have ⟨c, hc⟩ := hsb.exists_live_of_keyspaces_eq hsa hk (he ▸ hk) hf hl
      simp [hn] at hc
    · have ⟨family, hf, n, hn, hl⟩ := hh.exchange_right ha hb hba hab
      have ⟨c, hc⟩ := hsa.exists_live_of_keyspaces_eq hsb (he ▸ hk) hk hf hl
      simp [hn] at hc

end

theorem Sound.mergeAll_changes (hs : Sound r) (changes : List (List SchemaChange)) :
    ∃ r', r.mergeAll (changes.map (·.map SchemaChange.mutation)) = .ok r' ∧ Sound r' := by
  have hb : ∀ m ∈ (changes.map (·.map SchemaChange.mutation)).flatten, Regular m.on := by
    simp only [List.mem_flatten, List.mem_map]
    rintro _ ⟨_, ⟨_, -, rfl⟩, hm⟩
    obtain ⟨c, -, rfl⟩ := List.mem_map.mp hm
    exact c.regular_mutation
  have ⟨r', hr, hs', _⟩ := hs.mergeAll hb
  exact ⟨r', hr, hs'⟩

-- Pulls succeed. The schemas in memory agree afterwards exactly when neither store has deleted part
-- of a keyspace, shown by one of them, that only the other still holds; the cells, and with them
-- the versions, when neither has deleted anything that only the other still holds.
theorem pulls_agree_iff (changes changes' : List (List SchemaChange)) (rounds rounds' : Nat) :
    ∃ a b a' b',
      (empty rounds).mergeAll (changes.map (·.map SchemaChange.mutation)) = .ok a ∧
      (empty rounds').mergeAll (changes'.map (·.map SchemaChange.mutation)) = .ok b ∧
      b.pull a = .ok b' ∧ a.pull b' = .ok a' ∧
      (a'.schema.keyspaces = b'.schema.keyspaces ↔
        ∀ name, name ∈ a.schema.keyspaces ∨ name ∈ b.schema.keyspaces →
          ¬a.Hides b (Utf8.encode name) ∧ ¬b.Hides a (Utf8.encode name)) ∧
      ((∀ family ∈ Catalog.schema, ∀ key,
          a'.storage.Agree b'.storage ⟨Catalog.system, family, key⟩) ↔
        ∀ key, ¬a.Hides b key ∧ ¬b.Hides a key) ∧
      ((∀ key, ¬a.Hides b key ∧ ¬b.Hides a key) → a'.schema.version = b'.schema.version) := by
  have ⟨a, ha, hsa⟩ := (sound_empty rounds).mergeAll_changes changes
  have ⟨b, hb, hsb⟩ := (sound_empty rounds').mergeAll_changes changes'
  have ⟨b', hb', hsb'⟩ := hsb.pull hsa
  have ⟨a', ha', hsa'⟩ := hsa.pull hsb'
  have agree_iff : (∀ family ∈ Catalog.schema, ∀ key,
      a'.storage.Agree b'.storage ⟨Catalog.system, family, key⟩) ↔
      ∀ key, ¬a.Hides b key ∧ ¬b.Hides a key := by
    simp only [← agree_iff_not_hides hsa hsb hb' ha']
    exact ⟨fun h key family hf => h family hf key, fun h family hf key => h key family hf⟩
  refine ⟨a, b, a', b', ha, hb, hb', ha', keyspaces_eq_iff_not_hides hsa hsb hb' ha', agree_iff,
    fun hh => ?_⟩
  exact (hsa'.schema_eq_of_agree hsb' (agree_iff.mpr hh)).right

theorem hides_of_removal {k : Keyspace} {t : Int64} {d : DeletionTime} {p q : Partition}
    {id : PartitionId} (hid : id = ⟨Catalog.system, Catalog.keyspaces, Utf8.encode k.name⟩)
    (hp : p.Reflects ((k.creation t).on id ++ (k.removal d).on id))
    (hq : q.Reflects ((k.creation t).on id)) (hd : t ≤ d.markedAt) : p.Hides q [Row.marker] := by
  subst hid
  have hf : Catalog.keyspaces ∈ Catalog.schema := Catalog.keyspaces_mem_schema
  have hc : Rewrites (k.creation t).on _ t _ _ := k.rewrites_creation
  have hr : Rewrites (k.removal d).on _ d.markedAt _ _ := k.rewrites_removal
  have written {c} : .write [Row.marker] c ∈ (k.creation t).on _ → c.timestamp = t := fun hm =>
    ((hc.write _ hf _ _).mp hm).left
  have ⟨m, hm, d', hdel⟩ := (hr.deletion _ hf []).mpr ⟨by simp, Nat.le_refl _⟩
  have hd' : d'.markedAt = d.markedAt := hdel.timestamp_eq.symm.trans (hr.timestamp _ m hm)
  have hmark : .write [Row.marker] ⟨[], t⟩ ∈ (k.creation t).on _ := (hc.write _ hf _ _).mpr
    ⟨rfl, [], k.cells, Row.marker, .keyspace, rfl, List.mem_cons_self, rfl⟩
  obtain ⟨c, hl, -⟩ := hq.exists_live_of_not_covered hmark (Std.le_refl _)
    fun ⟨m, hm, path, d, hdel, _⟩ => ((hc.deletion _ hf path).mp ⟨m, hm, d, hdel⟩).left
  have hct := written (hq.getElem?_eq_some_iff.mp hl).greatest.left
  refine hp.hides_of_deletion (List.mem_append_right _ hm) hdel List.nil_prefix (fun c hm => ?_) hl
    (hct ▸ hd' ▸ hd)
  cases List.mem_append.mp hm
  case inl hm => exact written hm ▸ hd' ▸ hd
  case inr hm =>
    obtain ⟨-, _, _, _, hf, -⟩ := (hr.write _ hf _ _).mp hm
    exact hf.elim

-- A keyspace is created and dropped in one store and only created in the other. The pulls neither
-- drop it there nor bring it back here.
theorem pulls_keep_removed (k : Keyspace) {t : Int64} {d : DeletionTime} (hd : t ≤ d.markedAt)
    (rounds rounds' : Nat) :
    ∃ a b a' b', (empty rounds).mergeAll [[k.creation t], [k.removal d]] = .ok a ∧
      (empty rounds').mergeAll [[k.creation t]] = .ok b ∧ b.pull a = .ok b' ∧ a.pull b' = .ok a' ∧
      k.name ∉ a'.schema.keyspaces ∧ k.name ∈ b'.schema.keyspaces := by
  have hf : Catalog.keyspaces ∈ Catalog.schema := Catalog.keyspaces_mem_schema
  have hc : Regular (k.creation t).on := SchemaChange.regular_mutation (.keyspaceCreation k t)
  have hr : Regular (k.removal d).on := SchemaChange.regular_mutation (.keyspaceRemoval k d)
  have ⟨a, ha, hsa, hwa⟩ := (sound_empty rounds).mergeAll
    (show ∀ m ∈ [[k.creation t], [k.removal d]].flatten, Regular m.on by simp [hc, hr])
  have ⟨b, hb, hsb, hwb⟩ := (sound_empty rounds').mergeAll
    (show ∀ m ∈ [[k.creation t]].flatten, Regular m.on by simp [hc])
  have ⟨b', hb', hsb'⟩ := hsb.pull hsa
  have ⟨a', ha', hsa'⟩ := hsa.pull hsb'
  let id : PartitionId := ⟨Catalog.system, Catalog.keyspaces, Utf8.encode k.name⟩
  have hra := Storage.reflects_empty.writes hwa id
  have hrb := Storage.reflects_empty.writes hwb id
  simp only [List.flatten_cons, List.flatten_nil, List.append_nil, List.singleton_append, batchOn,
    List.flatMap_cons, List.flatMap_nil, List.nil_append] at hra hrb
  have hh := hides_of_removal rfl hra hrb hd
  have hw := Schema.isSnapshot_serialize a.storage (Utf8.encode k.name) hf
  have hw' := Schema.isSnapshot_serialize b'.storage (Utf8.encode k.name) hf
  rw [partition_pull hb'] at hw'
  have ⟨hn, hl⟩ := hh.exchange_left hra hrb hw hw'
  refine ⟨a, b, a', b', ha, hb, hb', ha', ?_⟩
  rw [hsa'.mem_keyspaces_iff, hsb'.mem_keyspaces_iff, partition_pull ha', partition_pull hb']
  refine ⟨?_, hl⟩
  rintro ⟨c, hc⟩
  cases hn.symm.trans hc

theorem keyspaces_ne_of_removal :
    let k := Keyspace.new "app" "SimpleStrategy" ∅ true
    ∃ a b a' b', (empty 0).mergeAll [[k.creation 1], [k.removal ⟨2, 0⟩]] = .ok a ∧
      (empty 0).mergeAll [[k.creation 1]] = .ok b ∧ b.pull a = .ok b' ∧ a.pull b' = .ok a' ∧
      a'.schema.keyspaces ≠ b'.schema.keyspaces := by
  intro k
  have ⟨a, b, a', b', ha, hb, hb', ha', hn, hm⟩ := pulls_keep_removed k (d := ⟨2, 0⟩)
    (show (1 : Int64) ≤ 2 by decide) 0 0
  exact ⟨a, b, a', b', ha, hb, hb', ha', fun he => hn (he ▸ hm)⟩

end Replica
end ClusterMetadata
