import ClusterMetadata.Proofs.Schema.Loading
import ClusterMetadata.Schema.Store

/-!
A store of definitions: the cells and the schema in memory. A merge keeps the schema the view of the
cells (`InSync.merge`), whatever the batch holds, though it reads only the keyspaces that the batch
touches.
-/

namespace ClusterMetadata

namespace SchemaVersion

variable {s s' : Storage}

theorem image_eq_of_agree
    (h : ∀ family ∈ Catalog.schema, ∀ key, s.Agree s' ⟨Catalog.system, family, key⟩) :
    image s = image s' := by
  refine List.flatMap_congr fun family hf => ?_
  rw [Storage.keys_eq_of_agree (h family hf)]
  refine List.flatMap_congr fun key _ => ?_
  simp only [partitionImage, (h family hf key).read_eq]

theorem ofStorage_empty : ofStorage ∅ = empty := by
  have hk (family : String) : (∅ : Storage).keys Catalog.system family = [] := by
    refine List.eq_nil_iff_forall_not_mem.mpr fun key hm => ?_
    simp [Storage.mem_keys] at hm
  simp [ofStorage, image, hk, empty, Catalog.schema]

end SchemaVersion

namespace Schema

variable {s s' : Schema} {storage : Storage} {name : String} {names reached : List String}

theorem mem_touched {concerns : String → Bool} {batch : List Mutation} :
    name ∈ touched concerns batch ↔
      ∃ m ∈ batch,
        (m.keyspace = Catalog.system ∧ m.tables.any concerns = true) ∧ m.keyText = name := by
  simp only [touched, mem_distinct, List.mem_map, List.mem_filter, decide_eq_true_eq, and_assoc]

-- A partition of a table that counts changes only with its key touched.
theorem keyText_mem_touched {concerns : String → Bool} {batch : List Mutation} {family : String}
    {key : Bytes} (hf : concerns family = true)
    (h : batchOn batch ⟨Catalog.system, family, key⟩ ≠ []) :
    Utf8.lossy key ∈ touched concerns batch := by
  have ⟨mod, hm⟩ := List.exists_mem_of_ne_nil _ h
  have ⟨m, hb, hm⟩ := mem_batchOn.mp hm
  obtain ⟨hk, rfl, mods, hs, -⟩ := Mutation.mem_on.mp hm
  refine mem_touched.mpr ⟨m, hb, ⟨hk, ?_⟩, rfl⟩
  rw [List.any_eq_true]
  exact ⟨family, SortedMap.mem_keys_iff.mpr ⟨mods, hs⟩, hf⟩

-- A merge leaves alone the partitions of the keyspaces that it does not touch.
theorem agree_of_not_mem_touched {storage' : Storage} {batch : List Mutation} {family : String}
    {key : Bytes} (hw : storage.Writes (batchOn batch) storage') (hf : family ∈ Catalog.schema)
    (hn : Utf8.lossy key ∉ touchedKeyspaces batch) :
    storage.Agree storage' ⟨Catalog.system, family, key⟩ := by
  have hb : batchOn batch ⟨Catalog.system, family, key⟩ = [] := by
    by_contra hb
    exact hn (keyText_mem_touched (by simpa [Catalog.isSchema] using hf) hb)
  rw [Storage.Agree, hw.partition, hb]
  rfl

theorem keyspace_eq_of_not_mem_touched {storage' : Storage} {batch : List Mutation}
    (hw : storage.Writes (batchOn batch) storage') (hn : name ∉ touchedKeyspaces batch)
    (fresh : Nat → Uuid) :
    Stored.keyspace storage name fresh = Stored.keyspace storage' name fresh := by
  refine Stored.keyspace_congr fun family hf => ?_
  exact (agree_of_not_mem_touched hw hf (by simpa using hn)).read_eq .all

theorem getElem?_put {name' : String} {k : Option Keyspace} :
    (s.put name k).keyspaces[name']? = if name = name' then k else s.keyspaces[name']? := by
  simp [put, Std.ExtTreeMap.getElem?_alter]

-- The keyspaces of the list have been read, and no others.
structure Refreshed (s : Schema) (storage : Storage) (reached : List String) (s' : Schema) :
    Prop where
  read    : ∀ name ∈ reached, ∃ fresh, Stored.keyspace storage name fresh = .ok s'.keyspaces[name]?
  kept    : ∀ name ∉ reached, s'.keyspaces[name]? = s.keyspaces[name]?
  version : s'.version = s.version

theorem Refreshed.cons {k : Option Keyspace} {fresh : Nat → Uuid} {rounds : Nat}
    (hk : Stored.keyspace storage name fresh = .ok k)
    (h : Refreshed ({ s with rounds }.put name k) storage reached s') :
    Refreshed s storage (name :: reached) s' where
  version := h.version
  kept name' hn := by
    rw [List.mem_cons, not_or] at hn
    rw [h.kept name' hn.right, getElem?_put, if_neg (Ne.symm hn.left)]
  read name' hm := by
    by_cases hr : name' ∈ reached
    case pos => exact h.read name' hr
    case neg =>
      obtain rfl := (List.mem_cons.mp hm).resolve_right hr
      refine ⟨fresh, hk.trans ?_⟩
      rw [h.kept name' hr, getElem?_put, if_pos rfl]

-- What changed in the keyspaces of the list, in their order.
def changes (s s' : Schema) (names : List String) : List SchemaEvent :=
  names.flatMap fun name => SchemaEvent.diff s.keyspaces[name]? s'.keyspaces[name]?

-- A reading got through the list, or to a keyspace that cannot be read.
def Ends (s : Schema) (storage : Storage) (names reached : List String) (s' : Schema) :
    Except StorageError (List SchemaEvent) → Prop
  | .ok events => reached = names ∧ (names.Nodup → events = changes s s' names)
  | .error e   => ∃ family value rest, e = .malformed family value ∧
    names = reached ++ value.keyspace :: rest ∧ ¬Stored.Loads storage value.keyspace

theorem changes_put {k : Option Keyspace} {rounds : Nat} (h : name ∉ names) :
    changes ({ s with rounds }.put name k) s' names = changes s s' names := by
  refine List.flatMap_congr fun name' hm => ?_
  rw [getElem?_put, if_neg (ne_of_mem_of_not_mem hm h).symm]

theorem exists_reached {result : Except StorageError (List SchemaEvent)}
    (h : s.refreshAll storage names = (s', result)) :
    ∃ reached, Refreshed s storage reached s' ∧ Ends s storage names reached s' result := by
  induction names generalizing s s' result
  case nil =>
    cases h
    exact ⟨[], ⟨by simp, fun _ _ => rfl, rfl⟩, rfl, fun _ => rfl⟩
  case cons n names hi =>
    simp only [refreshAll, refresh] at h
    cases hk : Stored.keyspace storage n (Uuid.random s.rounds)
    case error e =>
      simp only [hk, Prod.mk.injEq] at h
      obtain ⟨rfl, rfl⟩ := h
      obtain ⟨family, value, rfl, rfl⟩ := Stored.exists_malformed_of_keyspace_eq_error hk
      refine ⟨[], ⟨by simp, fun _ _ => rfl, rfl⟩, family, value, names, rfl, rfl, fun hl => ?_⟩
      cases (hl.keyspace_eq _).symm.trans hk
    case ok k =>
      simp only [hk] at h
      cases ht : refreshAll (put { s with rounds := s.rounds + 1 } n k) storage names
      case mk s₁ rest =>
        have ⟨reached, hr, he⟩ := hi ht
        simp only [ht, Prod.mk.injEq] at h
        obtain ⟨rfl, rfl⟩ := h
        refine ⟨n :: reached, hr.cons hk, ?_⟩
        cases rest
        case error e =>
          obtain ⟨family, value, rest, rfl, rfl, hl⟩ := he
          exact ⟨family, value, rest, rfl, rfl, hl⟩
        case ok rest =>
          obtain ⟨rfl, hc⟩ := he
          refine ⟨rfl, fun hn => ?_⟩
          have ⟨hn, hd⟩ := List.nodup_cons.mp hn
          have hkept := hr.kept n hn
          rw [getElem?_put, if_pos rfl] at hkept
          rw [hc hd, changes_put hn, changes, changes, List.flatMap_cons, hkept]
          rfl

end Schema

@[ext]
structure Replica where
  storage : Storage
  schema  : Schema

namespace Replica

-- A store that holds nothing and has read `rounds` keyspaces so far.
def empty (rounds : Nat) : Replica where
  storage := ∅
  schema  := { Schema.empty with rounds }

-- The store after the merge, if the merge succeeds.
def merge (r : Replica) (batch : List Mutation) : Except StorageError Replica :=
  match r.schema.merge r.storage batch with
  | (storage, schema, .ok _) => .ok ⟨storage, schema⟩
  | (_, _, .error e)         => .error e

-- The store after the batches, if all merges succeed.
def mergeAll (r : Replica) (batches : List (List Mutation)) : Except StorageError Replica :=
  batches.foldlM merge r

-- The schema in memory is what reading the cells gives.
structure InSync (r : Replica) : Prop where
  keyspaces : ∀ name, ∃ fresh, Stored.keyspace r.storage name fresh = .ok r.schema.keyspaces[name]?
  version   : r.schema.version = SchemaVersion.ofStorage r.storage

variable {r r' : Replica} {batch : List Mutation}

theorem merge_eq_ok (h : r.merge batch = .ok r') :
    r.storage.applyAll batch = .ok r'.storage ∧
    ∃ events, r.schema.refreshTouched r'.storage (Schema.touchedKeyspaces batch) =
      (r'.schema, .ok events) := by
  simp only [merge, Schema.merge] at h
  cases ha : r.storage.applyAll batch
  case error e => simp [ha] at h
  case ok s =>
    simp only [ha] at h
    cases hr : r.schema.refreshTouched s (Schema.touchedKeyspaces batch)
    case mk schema events =>
      cases events
      case error e   => simp [hr, Except.map] at h
      case ok events =>
        simp only [hr, Except.map, Except.ok.injEq] at h
        subst h
        exact ⟨rfl, events, hr⟩

theorem writes_merge (h : r.merge batch = .ok r') :
    r.storage.Writes (batchOn batch) r'.storage :=
  Storage.writes_applyAll (merge_eq_ok h).left

theorem inSync_empty (rounds : Nat) : InSync (empty rounds) where
  version := SchemaVersion.ofStorage_empty.symm
  keyspaces name := by
    have hc (family) : Stored.cells (empty rounds).storage family name = [] := by
      refine List.eq_nil_iff_forall_not_mem.mpr fun c hm => ?_
      simp [Stored.mem_cells, empty] at hm
    have hr : Stored.Readable (empty rounds).storage name := by constructor <;> simp [hc]
    refine ⟨fun _ => SchemaVersion.empty, (Stored.keyspace_of_readable hr _).trans ?_⟩
    rw [Stored.reading, hc]
    simp [Stored.present, Stored.under, empty, Schema.empty]

theorem InSync.merge (hs : InSync r) (h : r.merge batch = .ok r') : InSync r' := by
  have hw := writes_merge h
  obtain ⟨-, events, hr⟩ := merge_eq_ok h
  simp only [Schema.refreshTouched] at hr
  split at hr
  case h_1 => cases hr
  case h_2 s events' ha =>
    obtain ⟨_, hread, rfl, -⟩ := Schema.exists_reached ha
    simp only [Prod.mk.injEq] at hr
    obtain ⟨hr, -⟩ := hr
    have hk : r'.schema.keyspaces = s.keyspaces := by
      rw [← hr]
      split <;> rfl
    constructor
    case keyspaces =>
      intro name
      rw [hk]
      by_cases ht : name ∈ Schema.touchedKeyspaces batch
      case pos => exact hread.read name ht
      case neg =>
        have ⟨fresh, hf⟩ := hs.keyspaces name
        refine ⟨fresh, ?_⟩
        rw [hread.kept name ht, ← hf, Schema.keyspace_eq_of_not_mem_touched hw ht]
    case version =>
      rw [← hr]
      split
      case isFalse => rfl
      case isTrue he =>
        rw [hread.version, hs.version]
        refine congrArg Uuid.ofDigest (SchemaVersion.image_eq_of_agree fun family hm key => ?_)
        exact Schema.agree_of_not_mem_touched hw hm (by simp [List.isEmpty_iff.mp he])

theorem InSync.mergeAll {batches : List (List Mutation)} (hs : InSync r)
    (h : r.mergeAll batches = .ok r') : InSync r' := by
  induction batches generalizing r
  case nil => cases h; exact hs
  case cons batch batches hi =>
    rw [Replica.mergeAll, List.foldlM_cons, bind_eq_ok_iff] at h
    have ⟨_, hm, h⟩ := h
    exact hi (hs.merge hm) h

theorem InSync.loads (hs : InSync r) (name : String) : Stored.Loads r.storage name :=
  have ⟨_, hk⟩ := hs.keyspaces name
  (Stored.keyspace_eq_ok_iff.mp hk).left

-- The schema in memory is a function of the live cells of the schema tables.
theorem InSync.getElem?_keyspaces_eq {name : String} (hs : InSync r) (hs' : InSync r')
    (hi : Stored.Identified r'.storage name)
    (hc : ∀ family ∈ Catalog.schema,
      Stored.cells r.storage family name = Stored.cells r'.storage family name) :
    r.schema.keyspaces[name]? = r'.schema.keyspaces[name]? := by
  have ⟨fresh, hk⟩ := hs.keyspaces name
  have ⟨fresh', hk'⟩ := hs'.keyspaces name
  rw [Stored.keyspace_congr hc] at hk
  rw [← (Stored.keyspace_eq_ok_iff.mp hk).right, ← (Stored.keyspace_eq_ok_iff.mp hk').right]
  exact (hs'.loads name).reading_eq_of_identified hi

theorem InSync.schema_eq_of_agree (hs : InSync r) (hs' : InSync r')
    (hi : ∀ name, Stored.Identified r'.storage name)
    (ha : ∀ family ∈ Catalog.schema, ∀ key,
      r.storage.Agree r'.storage ⟨Catalog.system, family, key⟩) :
    r.schema.keyspaces = r'.schema.keyspaces ∧ r.schema.version = r'.schema.version := by
  constructor
  case left =>
    refine Std.ExtTreeMap.ext_getElem? fun name => ?_
    exact hs.getElem?_keyspaces_eq hs' (hi name) fun family hf => (ha family hf _).read_eq .all
  case right =>
    rw [hs.version, hs'.version]
    exact congrArg Uuid.ofDigest (SchemaVersion.image_eq_of_agree ha)

-- A merge fails only when writing fails or a keyspace that it touches cannot be read.
theorem exists_merge_eq_ok (hf : r.storage.failing = false)
    (hl : ∀ s, r.storage.Writes (batchOn batch) s →
      ∀ name ∈ Schema.touchedKeyspaces batch, Stored.Loads s name) :
    ∃ r', r.merge batch = .ok r' := by
  have ⟨s, hs⟩ := Storage.exists_applyAll_eq_ok hf batch
  cases ha : r.schema.refreshAll s (Schema.touchedKeyspaces batch)
  case mk schema result =>
    have ⟨_, _, he⟩ := Schema.exists_reached ha
    cases result
    case ok events =>
      simp only [merge, Schema.merge, hs, Schema.refreshTouched, ha, Except.map]
      exact ⟨_, rfl⟩
    case error e =>
      have ⟨_, _, _, _, ht, hn⟩ := he
      exact absurd (hl s (Storage.writes_applyAll hs) _ (ht ▸ List.mem_append_cons_self)) hn

end Replica
end ClusterMetadata
