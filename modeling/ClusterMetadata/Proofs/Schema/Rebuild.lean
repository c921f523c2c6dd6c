import ClusterMetadata.Proofs.Schema.Coherence
import ClusterMetadata.Proofs.Schema.Convergence
import ClusterMetadata.Proofs.Schema.Exchange
import ClusterMetadata.Proofs.Wire.Mutation
import ClusterMetadata.Wire.Protocol

/-!
A store that is cleared and then merges what another sends holds what the other holds
(`cleared_pull_rebuilds`), whatever it held before.
-/

namespace ClusterMetadata.Replica

variable {source target cleared : Replica} {batches : List (List Mutation)} {b : Bytes}
  {rounds : Nat} {s : Storage}

-- After the truncation nothing stands in the way of the cells that are sent.
theorem agree_of_clear (hc : target.clear = .ok cleared)
    (hw : cleared.storage.Writes (batchOn (Schema.serialize source.storage)) s) :
    ∀ family ∈ Catalog.schema, ∀ key, s.Agree source.storage ⟨Catalog.system, family, key⟩ := by
  intro family hf key
  obtain ⟨-, -, hp⟩ := clear_eq_ok hc
  rw [Storage.Agree, hw.partition, hp family hf]
  exact (Schema.isSnapshot_serialize source.storage key hf).cells_foldl_empty

theorem cleared_pull_rebuilds (hm : (empty rounds).mergeAll batches = .ok source)
    (hi : ∀ name, Stored.Identified source.storage name) (hc : target.clear = .ok cleared)
    (hl : (Schema.serialize source.storage).length < Wire.countLimit)
    (hb : ∀ m ∈ Schema.serialize source.storage, m.Bounded)
    (hw : Wire.writeBatch Protocol.current (Schema.serialize source.storage) = .ok b) :
    ∃ batch r, Wire.run (Wire.readBatch Protocol.current) b = .ok batch ∧
      cleared.merge batch = .ok r ∧ r.schema.keyspaces = source.schema.keyspaces ∧
      r.schema.version = source.schema.version ∧
      ∀ family ∈ Catalog.schema, ∀ key,
        r.storage.read ⟨Catalog.system, family, key⟩ .all =
          source.storage.read ⟨Catalog.system, family, key⟩ .all := by
  have hs := (inSync_empty rounds).mergeAll hm
  have hread := (Wire.reads_readBatch hl hb hw).run_eq []
  rw [List.append_nil] at hread
  have loads {s} (hw : cleared.storage.Writes (batchOn (Schema.serialize source.storage)) s) name :
      Stored.Loads s name := by
    have hag := agree_of_clear hc hw
    have hk := (hs.loads name).keyspace_eq fun _ => SchemaVersion.empty
    refine Stored.loads_of_keyspace_eq_ok ((Stored.keyspace_congr fun family hf => ?_).trans hk)
    exact (hag family hf _).read_eq .all
  have ⟨r, hr⟩ := exists_merge_eq_ok (clear_eq_ok hc).left fun s hw name _ => loads hw name
  have hag := agree_of_clear hc (writes_merge hr)
  have ⟨hk, hv⟩ := ((InSync.of_clear hc).merge hr).schema_eq_of_agree hs hi hag
  exact ⟨_, r, hread, hr, hk, hv, fun family hf key => (hag family hf key).read_eq .all⟩

-- The target had deleted, at a later instant, what it is sent. It shows the keyspace and its table.
theorem cleared_pull_rebuilds_of_removed :
    let t := Table.new "app" "t" (Uuid.random 0 0)
    let k := (Keyspace.simple "app" 1).withTable t
    ∃ source target cleared b, (empty 0).mergeAll [[k.creation 4]] = .ok source ∧
      (empty 2).merge [k.removal ⟨9, 9⟩, (Keyspace.simple "other" 1).creation 9] = .ok target ∧
      (∀ name, Stored.Identified source.storage name) ∧ target.clear = .ok cleared ∧
      (Schema.serialize source.storage).length < Wire.countLimit ∧
      (∀ m ∈ Schema.serialize source.storage, m.Bounded) ∧
      Wire.writeBatch Protocol.current (Schema.serialize source.storage) = .ok b ∧
      ∃ batch r, Wire.run (Wire.readBatch Protocol.current) b = .ok batch ∧
        cleared.merge batch = .ok r ∧ r.schema.keyspaces = source.schema.keyspaces ∧
        r.schema.version = source.schema.version ∧
        (∀ family ∈ Catalog.schema, ∀ key,
          r.storage.read ⟨Catalog.system, family, key⟩ .all =
            source.storage.read ⟨Catalog.system, family, key⟩ .all) ∧
        r.schema.keyspace "app" = some k ∧ r.schema.table "app" "t" = some t := by
  intro t k
  have hr : ∀ m ∈ [[k.creation 4]].flatten, Regular m.on := by
    intro m hm
    obtain rfl : m = k.creation 4 := by simpa using hm
    exact (SchemaChange.keyspaceCreation k 4).regular_mutation
  have hr' : ∀ m ∈ [k.removal ⟨9, 9⟩, (Keyspace.simple "other" 1).creation 9], Regular m.on := by
    intro m hm
    simp only [List.mem_cons, List.not_mem_nil, or_false] at hm
    obtain rfl | rfl := hm
    · exact (SchemaChange.keyspaceRemoval k ⟨9, 9⟩).regular_mutation
    · exact (SchemaChange.keyspaceCreation (.simple "other" 1) 9).regular_mutation
  have ⟨source, hm, hs, _⟩ := (sound_empty 0).mergeAll hr
  have ⟨target, ht, hst⟩ := (sound_empty 2).merge (.batchOn hr')
  have ⟨cleared, hc⟩ := exists_clear_eq_ok hst.failing
  have hsent : ((empty 0).mergeAll [[k.creation 4]]).toOption.all (fun (source : Replica) =>
    decide ((Schema.serialize source.storage).length < Wire.countLimit ∧
      (∀ m ∈ Schema.serialize source.storage, m.Bounded) ∧
      (Wire.writeBatch Protocol.current (Schema.serialize source.storage)).isOk ∧
      source.schema.keyspaces["app"]? = some k)) = true := by
    decide +kernel
  simp only [hm, Except.toOption, Option.all_some, decide_eq_true_eq] at hsent
  obtain ⟨hl, hb, hw, hk⟩ := hsent
  have ⟨b, hw⟩ := isOk_iff.mp hw
  have hi := hs.regular.identified
  have ⟨batch, r, hread, hr, same, hv, hcells⟩ := cleared_pull_rebuilds hm hi hc hl hb hw
  rw [← same] at hk
  have held : k.tables["t"]? = some t := by decide +kernel
  have shown : r.schema.table "app" "t" = some t := by
    simp only [Schema.table, hk, Option.bind_eq_bind, Option.bind_some, held]
  exact ⟨source, target, cleared, b, hm, ht, hi, hc, hl, hb, hw, batch, r, hread, hr, same, hv,
    hcells, hk, shown⟩

end ClusterMetadata.Replica
