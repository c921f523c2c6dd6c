import ClusterMetadata.Proofs.Schema.Announcement
import ClusterMetadata.Proofs.Schema.Replica

/-!
The changes of definitions that can be announced, and the modifications they stand for. Those are
regular (`SchemaChange.regular_mutation`), so a store that merges changes can always read what it
holds (`Sound.mergeAll`).
-/

namespace ClusterMetadata

inductive SchemaChange where
  | keyspaceCreation (k : Keyspace) (timestamp : Int64)
  | keyspaceAlteration (k : Keyspace) (timestamp : Int64)
  | keyspaceRemoval (k : Keyspace) (d : DeletionTime)
  | tableCreation (t : Table) (timestamp : Int64)
  | tableAlteration (old new : Table) (d : DeletionTime)
  | tableRemoval (t : Table) (d : DeletionTime)

def SchemaChange.mutation : SchemaChange → Mutation
  | keyspaceCreation k timestamp   => k.creation timestamp
  | keyspaceAlteration k timestamp => k.alteration timestamp
  | keyspaceRemoval k d            => k.removal d
  | tableCreation t timestamp      => t.creation timestamp
  | tableAlteration old new d      => old.alteration new d
  | tableRemoval t d               => t.removal d

theorem SchemaChange.regular_mutation (change : SchemaChange) : Regular change.mutation.on := by
  cases change
  case keyspaceCreation k _    => exact k.rewrites_creation.regular k.isWhole
  case keyspaceAlteration k _  => exact k.rewrites_alteration.regular k.isWhole_cells
  case keyspaceRemoval k _     => exact k.rewrites_removal.regular Rows.isWhole_empty
  case tableCreation t _       => exact t.rewrites_creation.regular t.isWhole
  case tableAlteration _ new _ => exact Table.rewrites_alteration.regular new.isWhole
  case tableRemoval t _        => exact t.rewrites_removal.regular Rows.isWhole_empty

namespace Replica

variable {r r' : Replica} {batch : List Mutation} {batches : List (List Mutation)}

-- What holds of a store whose batches are regular.
structure Sound (r : Replica) : Prop where
  inSync  : InSync r
  regular : r.storage.IsRegular
  failing : r.storage.failing = false

theorem sound_empty (rounds : Nat) : Sound (empty rounds) :=
  ⟨inSync_empty rounds, Storage.isRegular_empty, rfl⟩

theorem Sound.merge (hs : Sound r) (hb : Regular (batchOn batch)) :
    ∃ r', r.merge batch = .ok r' ∧ Sound r' := by
  have hr {s} (hw : r.storage.Writes (batchOn batch) s) : s.IsRegular := hs.regular.writes hw hb
  have ⟨r', h⟩ := exists_merge_eq_ok hs.failing fun s hw name _ => ((hr hw).readable name).loads
  have hw := writes_merge h
  exact ⟨r', h, hs.inSync.merge h, hr hw, hw.failing.trans hs.failing⟩

-- What is written elsewhere than in the schema tables.
theorem Sound.of_writes (hs : Sound r) {s : Storage} {w : PartitionId → List Modification}
    (hw : r.storage.Writes w s)
    (ha : ∀ family ∈ Catalog.schema, ∀ key, w ⟨Catalog.system, family, key⟩ = []) :
    Sound ⟨s, r.schema⟩ := by
  have agrees : ∀ family ∈ Catalog.schema, ∀ key,
      r.storage.Agree s ⟨Catalog.system, family, key⟩ := by
    intro family hf key
    rw [Storage.Agree, hw.partition, ha family hf]
    rfl
  refine ⟨⟨fun name => ?_, ?_⟩, hs.regular.writes hw ?_, hw.failing.trans hs.failing⟩
  · obtain ⟨fresh, hk⟩ := hs.inSync.keyspaces name
    refine ⟨fresh, ?_⟩
    rw [← hk]
    exact (Stored.keyspace_congr fun family hf => (agrees family hf _).read_eq .all).symm
  · exact hs.inSync.version.trans
      (congrArg Uuid.ofDigest (SchemaVersion.image_eq_of_agree agrees))
  · exact Regular.nil.congr fun family hf key => (ha family hf key).symm

theorem Sound.mergeAll (hs : Sound r) (hb : ∀ m ∈ batches.flatten, Regular m.on) :
    ∃ r', r.mergeAll batches = .ok r' ∧ Sound r' ∧
      r.storage.Writes (batchOn batches.flatten) r'.storage := by
  induction batches generalizing r
  case nil => exact ⟨r, rfl, hs, .refl⟩
  case cons batch batches hi =>
    simp only [List.flatten_cons, List.mem_append, or_imp, forall_and] at hb
    have ⟨r₁, h₁, hs₁⟩ := hs.merge (.batchOn hb.left)
    have ⟨r₂, h₂, hs₂, hw₂⟩ := hi hs₁ hb.right
    refine ⟨r₂, ?_, hs₂, ?_⟩
    · rw [Replica.mergeAll, List.foldlM_cons, h₁]
      exact h₂
    · rw [List.flatten_cons, batchOn_append]
      exact (writes_merge h₁).trans hw₂

end Replica
end ClusterMetadata
