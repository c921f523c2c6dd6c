import ClusterMetadata.Proofs.Schema.Replica

/-!
A schema that is kept up to date and one that is read anew from the same cells are the same
(`runAll_shows_load`): merges read what they touch, a reload reads everything, clearing leaves
nothing to read.
-/

namespace ClusterMetadata

namespace Schema

variable {s s' : Schema} {storage : Storage}

-- A reload reads everything or fails.
theorem reload_eq_ok (h : s.reload storage = (s', .ok ())) : Replica.InSync ⟨storage, s'⟩ := by
  simp only [reload] at h
  cases he : ({ s with keyspaces := ∅ } : Schema).refreshAll storage
    ((storage.keys Catalog.system Catalog.keyspaces).map Utf8.lossy)
  case mk s₁ events =>
    have ⟨reached, hr, hm⟩ := exists_reached he
    cases events
    case error e => simp [he] at h
    case ok events =>
      simp only [he, Prod.mk.injEq, and_true] at h
      have ⟨hm, _⟩ := hm
      subst h hm
      refine ⟨fun name => ?_, rfl⟩
      by_cases hn : name ∈ (storage.keys Catalog.system Catalog.keyspaces).map Utf8.lossy
      case pos => exact hr.read name hn
      case neg =>
        have hk : Utf8.encode name ∉ storage.keys Catalog.system Catalog.keyspaces := fun hk =>
          hn (List.mem_map.mpr ⟨_, hk, Utf8.lossy_encode name⟩)
        have ⟨hl, ho⟩ := Stored.loads_and_reading_eq_none hk fun _ => SchemaVersion.empty
        refine ⟨_, Stored.keyspace_eq_ok_iff.mpr ⟨hl, ho.trans ?_⟩⟩
        simpa using (hr.kept name hn).symm

theorem exists_reload_eq_ok (s : Schema) (h : ∀ name, Stored.Loads storage name) :
    ∃ s', s.reload storage = (s', .ok ()) := by
  simp only [reload]
  cases he : ({ s with keyspaces := ∅ } : Schema).refreshAll storage
    ((storage.keys Catalog.system Catalog.keyspaces).map Utf8.lossy)
  case mk s₁ events =>
    have ⟨_, _, hm⟩ := exists_reached he
    cases events
    case ok events => exact ⟨_, rfl⟩
    case error e =>
      have ⟨_, _, _, _, _, hl⟩ := hm
      exact absurd (h _) hl

theorem load_eq_ok (h : load storage = .ok s) : Replica.InSync ⟨storage, s⟩ := by
  simp only [load] at h
  split at h
  case h_1    => cases h
  case h_2 he => cases h; exact reload_eq_ok he

-- A keyspace that does not load keeps the whole schema from loading.
theorem exists_load_eq_ok_iff :
    (∃ s, load storage = .ok s) ↔ ∀ name, Stored.Loads storage name := by
  constructor
  case mp => exact fun ⟨s, h⟩ => (load_eq_ok h).loads
  case mpr =>
    intro h
    have ⟨s, hs⟩ := exists_reload_eq_ok empty h
    exact ⟨s, by rw [load, hs]⟩

end Schema

namespace Replica

-- The store over cells that are there already.
def load (storage : Storage) : Except StorageError Replica :=
  (⟨storage, ·⟩) <$> Schema.load storage

def reload (r : Replica) : Except StorageError Replica :=
  match r.schema.reload r.storage with
  | (schema, .ok ())  => .ok { r with schema }
  | (_,      .error e) => .error e

def clear (r : Replica) : Except StorageError Replica :=
  (fun (storage, schema) => ⟨storage, schema⟩) <$> r.schema.clear r.storage

inductive Call where
  | merge (batch : List Mutation)
  | reload
  | clear

def run (r : Replica) : Call → Except StorageError Replica
  | .merge batch => r.merge batch
  | .reload      => r.reload
  | .clear       => r.clear

-- The store after the calls, if all of them succeed.
def runAll (r : Replica) (calls : List Call) : Except StorageError Replica :=
  calls.foldlM run r

-- How a store comes to be.
inductive Opened : Replica → Prop
  | new (rounds : Nat) : Opened (empty rounds)
  | loaded {storage : Storage} {r : Replica} (h : load storage = .ok r) : Opened r

variable {r r' : Replica} {storage : Storage} {call : Call} {calls done : List Call}

theorem Opened.inSync (h : Opened r) : InSync r := by
  cases h
  case new rounds => exact inSync_empty rounds
  case loaded storage h =>
    cases hl : Schema.load storage
    case error e => simp [load, hl] at h
    case ok s    => simp only [load, hl] at h; cases h; exact Schema.load_eq_ok hl

-- No schema table has a live cell, and nothing is shown.
theorem inSync_of_keys_eq_nil (rounds : Nat)
    (h : ∀ family ∈ Catalog.schema, storage.keys Catalog.system family = []) :
    InSync ⟨storage, { Schema.empty with rounds }⟩ where
  version := by
    have hi : SchemaVersion.image storage = [] := by
      simp +contextual [SchemaVersion.image, List.flatMap_eq_nil_iff, h]
    simp [SchemaVersion.ofStorage, hi, Schema.empty, SchemaVersion.empty]
  keyspaces name := by
    have hk : Utf8.encode name ∉ storage.keys Catalog.system Catalog.keyspaces := by
      simp [h _ Catalog.keyspaces_mem_schema]
    have ⟨hl, ho⟩ := Stored.loads_and_reading_eq_none hk fun _ => SchemaVersion.empty
    exact ⟨_, Stored.keyspace_eq_ok_iff.mpr ⟨hl, ho.trans (by simp [Schema.empty])⟩⟩

-- What no one looks at may change.
theorem InSync.congr {storage' : Storage} {schema : Schema} (hs : InSync ⟨storage, schema⟩)
    (ha : ∀ family ∈ Catalog.schema, ∀ key,
      storage.Agree storage' ⟨Catalog.system, family, key⟩) : InSync ⟨storage', schema⟩ where
  version :=
    hs.version.trans (congrArg Uuid.ofDigest (SchemaVersion.image_eq_of_agree ha))
  keyspaces name := by
    have ⟨fresh, hk⟩ := hs.keyspaces name
    refine ⟨fresh, hk ▸ (Stored.keyspace_congr fun family hf => ?_).symm⟩
    exact (ha family hf _).read_eq .all

theorem InSync.of_reload (h : r.reload = .ok r') : InSync r' := by
  simp only [reload] at h
  split at h
  case h_1 he => cases h; exact Schema.reload_eq_ok he
  case h_2    => cases h

-- What was held is gone, deletions too, and writing does not fail.
theorem clear_eq_ok (h : r.clear = .ok r') : r'.storage.failing = false ∧
    (∃ rounds, r'.schema = { Schema.empty with rounds }) ∧
    ∀ family ∈ Catalog.schema, ∀ key,
      r'.storage.partition ⟨Catalog.system, family, key⟩ = ∅ := by
  cases hc : r.schema.clear r.storage
  case error e => simp [clear, hc] at h
  case ok cleared =>
    simp only [clear, hc] at h
    cases h
    have ⟨storage, ht, h⟩ := bind_eq_ok_iff.mp hc
    cases h
    refine ⟨Storage.failing_truncateAll ht (by simp [Catalog.schema]), ⟨_, rfl⟩, ?_⟩
    intro family hf key
    simp [Storage.partition_truncateAll ht, hf]

theorem exists_clear_eq_ok (hf : r.storage.failing = false) : ∃ r', r.clear = .ok r' := by
  simp only [clear, Schema.clear, Catalog.schema, List.foldlM_cons, List.foldlM_nil,
    Storage.truncate, hf, Bool.false_eq_true, if_false]
  exact ⟨_, rfl⟩

theorem InSync.of_clear (h : r.clear = .ok r') : InSync r' := by
  obtain ⟨-, ⟨rounds, hs⟩, hp⟩ := clear_eq_ok h
  rw [show r' = ⟨r'.storage, { Schema.empty with rounds }⟩ from Replica.ext rfl hs]
  refine inSync_of_keys_eq_nil rounds fun family hf => ?_
  refine List.eq_nil_iff_forall_not_mem.mpr fun key hm => ?_
  have ⟨n, c, hc⟩ := Storage.mem_keys.mp hm
  simp [hp family hf] at hc

theorem InSync.run (hs : InSync r) (h : r.run call = .ok r') : InSync r' := by
  cases call
  case merge batch => exact hs.merge h
  case reload      => exact .of_reload h
  case clear       => exact .of_clear h

theorem InSync.runAll (hs : InSync r) (h : r.runAll calls = .ok r') : InSync r' := by
  induction calls generalizing r
  case nil => cases h; exact hs
  case cons call calls hi =>
    rw [Replica.runAll, List.foldlM_cons, bind_eq_ok_iff] at h
    have ⟨_, hr, h⟩ := h
    exact hi (hs.run hr) h

-- The cells of a store in sync can be read anew, and this gives what the store shows.
theorem InSync.exists_load_eq_ok (hs : InSync r) :
    ∃ loaded, Schema.load r.storage = .ok loaded ∧
      Stored.Alike r.storage r.schema.keyspaces loaded.keyspaces ∧
      r.schema.version = loaded.version := by
  have ⟨loaded, hl⟩ := Schema.exists_load_eq_ok_iff.mpr hs.loads
  have hs' := Schema.load_eq_ok hl
  exact ⟨loaded, hl, .of_readings hs.keyspaces hs'.keyspaces, hs.version.trans hs'.version.symm⟩

-- After each of the calls, the schema is the one that is loaded from the cells.
theorem runAll_shows_load (ho : Opened r) (h : r.runAll calls = .ok r') (hd : done <+: calls) :
    ∃ r₁, r.runAll done = .ok r₁ ∧
      (∃ loaded, Schema.load r₁.storage = .ok loaded ∧
        Stored.Alike r₁.storage r₁.schema.keyspaces loaded.keyspaces) ∧
      r₁.schema.version = SchemaVersion.ofStorage r₁.storage ∧
      ((∀ family ∈ Catalog.schema, r₁.storage.keys Catalog.system family = []) →
        r₁.schema.version = SchemaVersion.empty) := by
  have ⟨rest, hd⟩ := hd
  rw [← hd, runAll, List.foldlM_append, bind_eq_ok_iff] at h
  have ⟨r₁, hr, _⟩ := h
  have hs := ho.inSync.runAll hr
  have ⟨loaded, hl, ha, _⟩ := hs.exists_load_eq_ok
  refine ⟨r₁, hr, ⟨loaded, hl, ha⟩, hs.version, fun hk => ?_⟩
  exact hs.version.trans (inSync_of_keys_eq_nil 0 hk).version.symm

-- A table without an id, a key that is no text, and a reload that reads both.
theorem runAll_shows_load_of_reload :
    let bare := Mutation.ofFamilies Catalog.system (Utf8.encode "app")
      [(Catalog.keyspaces, Row.write [] 1 [(Row.marker, [])]),
       (Catalog.tables, Row.write ["t"] 1 [(Row.marker, [])])]
    let nameless := Mutation.ofFamilies Catalog.system [0xff]
      [(Catalog.keyspaces, Row.write [] 1 [(Row.marker, [])])]
    let calls := [.merge [bare, nameless], .reload, .clear, .merge [bare]]
    (∃ r', (empty 0).runAll calls = .ok r') ∧
      ∃ r₁, (empty 0).runAll (calls.take 2) = .ok r₁ ∧
        (∃ loaded, Schema.load r₁.storage = .ok loaded ∧
          Stored.Alike r₁.storage r₁.schema.keyspaces loaded.keyspaces) ∧
        r₁.schema.version = SchemaVersion.ofStorage r₁.storage ∧
        ((∀ family ∈ Catalog.schema, r₁.storage.keys Catalog.system family = []) →
          r₁.schema.version = SchemaVersion.empty) := by
  intro bare nameless calls
  have hr : ((empty 0).runAll calls).isOk = true := by decide +kernel
  have ⟨r', h⟩ := isOk_iff.mp hr
  exact ⟨⟨r', h⟩, runAll_shows_load (.new 0) h (List.take_prefix 2 calls)⟩

end Replica
end ClusterMetadata
