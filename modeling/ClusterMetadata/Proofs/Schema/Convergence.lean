import ClusterMetadata.Proofs.Schema.Change

/-!
Stores that merge the same changes come to the same schema, in whatever order, batches and number
the changes arrive (`merges_converge`).
-/

namespace ClusterMetadata.Replica

variable {r r' : Replica} {name : String}

theorem Sound.exists_reading (hs : Sound r) (name : String) :
    ∃ fresh, r.schema.keyspaces[name]? = Stored.reading r.storage name fresh := by
  have ⟨fresh, hk⟩ := hs.inSync.keyspaces name
  rw [Stored.keyspace_of_readable (hs.regular.readable name)] at hk
  exact ⟨fresh, (Except.ok.inj hk).symm⟩

theorem Sound.getElem?_keyspaces_eq (hs : Sound r) (hs' : Sound r')
    (hc : ∀ family ∈ Catalog.schema,
      Stored.cells r.storage family name = Stored.cells r'.storage family name) :
    r.schema.keyspaces[name]? = r'.schema.keyspaces[name]? :=
  hs.inSync.getElem?_keyspaces_eq hs'.inSync (hs'.regular.identified name) hc

theorem Sound.schema_eq_of_agree (hs : Sound r) (hs' : Sound r')
    (ha : ∀ family ∈ Catalog.schema, ∀ key,
      r.storage.Agree r'.storage ⟨Catalog.system, family, key⟩) :
    r.schema.keyspaces = r'.schema.keyspaces ∧ r.schema.version = r'.schema.version :=
  hs.inSync.schema_eq_of_agree hs'.inSync hs'.regular.identified ha

theorem merges_converge (changes : List SchemaChange) {batches batches' : List (List Mutation)}
    (h : ∀ m, m ∈ batches.flatten ↔ ∃ c ∈ changes, c.mutation = m)
    (h' : ∀ m, m ∈ batches'.flatten ↔ ∃ c ∈ changes, c.mutation = m) (rounds rounds' : Nat) :
    ∃ r r', (empty rounds).mergeAll batches = .ok r ∧ (empty rounds').mergeAll batches' = .ok r' ∧
      r.schema.keyspaces = r'.schema.keyspaces ∧ r.schema.version = r'.schema.version := by
  have sound_of {batches : List (List Mutation)}
      (h : ∀ m, m ∈ batches.flatten ↔ ∃ c ∈ changes, c.mutation = m) :
      ∀ m ∈ batches.flatten, Regular m.on := by
    intro m hm
    obtain ⟨c, -, rfl⟩ := (h m).mp hm
    exact c.regular_mutation
  have ⟨r, hr, hs, hw⟩ := (sound_empty rounds).mergeAll (sound_of h)
  have ⟨r', hr', hs', hw'⟩ := (sound_empty rounds').mergeAll (sound_of h')
  refine ⟨r, r', hr, hr', hs.schema_eq_of_agree hs' fun family _ key => ?_⟩
  refine (Storage.reflects_empty.writes hw).agree (Storage.reflects_empty.writes hw') fun mod => ?_
  simp only [List.nil_append, mem_batchOn, h, h']

-- A keyspace created twice at one instant.
theorem merges_converge_of_tie :
    let simple := (Keyspace.simple "app" 1).creation 4
    let other := (Keyspace.new "app" "Other" ∅ false).creation 4
    ∃ r r', (empty 0).mergeAll [[simple], [other, simple]] = .ok r ∧
      (empty 5).mergeAll [[other], [], [simple]] = .ok r' ∧
      r.schema.keyspaces = r'.schema.keyspaces ∧ r.schema.version = r'.schema.version := by
  intro simple other
  refine merges_converge [.keyspaceCreation (Keyspace.simple "app" 1) 4,
    .keyspaceCreation (Keyspace.new "app" "Other" ∅ false) 4] ?_ ?_ 0 5
  all_goals
    intro m
    simp only [SchemaChange.mutation, List.flatten_cons, List.flatten_nil, List.mem_append,
      List.mem_cons, List.not_mem_nil, or_false, false_or, exists_eq_or_imp, exists_eq_left,
      eq_comm (b := m), simple, other]
    tauto

end ClusterMetadata.Replica
