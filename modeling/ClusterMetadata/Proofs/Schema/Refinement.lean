import ClusterMetadata.Proofs.Schema.Convergence
import ClusterMetadata.Proofs.Schema.Statement

/-!
Statements that run against a store, each announced in view of the schema in memory and merged on
its own. When each is later than all before it, the schema in memory is the plain map of definitions
after every step (`executeAll_refines`).
-/

namespace ClusterMetadata

-- Statements with their instants, each admitted by the definitions that the earlier ones leave.
inductive Admissible : Definitions → List (Statement × DeletionTime) → Prop
  | nil {ds} : Admissible ds []
  | cons {ds s d script} (valid : s.IsValid) (admitted : (s.change? ds d).isSome)
      (rest : Admissible (s.effect ds) script) : Admissible ds ((s, d) :: script)

theorem Admissible.of_append {ds : Definitions} {done rest : List (Statement × DeletionTime)}
    (ha : Admissible ds (done ++ rest)) : Admissible ds done := by
  induction done generalizing ds
  case nil => exact .nil
  case cons e done hi =>
    cases ha with | cons valid admitted rest =>
    exact .cons valid admitted (hi rest)

def effects (ds : Definitions) (script : List (Statement × DeletionTime)) : Definitions :=
  script.foldl (fun ds e => e.1.effect ds) ds

def Storage.Represents (s : Storage) (ds : Definitions) : Prop :=
  ∀ name, s.Defines (Utf8.encode name) (ds.rows name)

namespace Storage.Represents

variable {s s' : Storage} {h w : PartitionId → List Modification} {m : Mutation} {t : Int64}
  {ds ds' : Definitions} {name : String} {puts : Rows} {clears : CellName → Prop}

theorem empty : Represents ∅ ∅ := by
  intro name family hf n v
  rw [Definitions.rows_of_none (by simp), partition_empty]
  simp [Rows.Has]

-- Only what is written to the schema tables counts.
theorem writes (hs : s.Represents ds) (hd : ds.Consistent) (hr : s.Reflects h)
    (hb : ∀ id, ∀ m ∈ h id, m.timestamp < t) (hw : s.Writes w s')
    (hm : ∀ family ∈ Catalog.schema, ∀ key,
      w ⟨Catalog.system, family, key⟩ = m.on ⟨Catalog.system, family, key⟩)
    (hc : Carries m t ds ds' name puts clears) : s'.Represents ds' := by
  intro name' family hf
  rw [hw.partition, hm family hf]
  by_cases hn : name' = name
  case pos =>
    subst hn
    have hrows : ds'.rows name' = (ds.rows name').rewrite puts clears :=
      funext fun path => funext fun cells => propext (hc.rows_iff path cells)
    rw [hrows]
    exact (hs name' family hf).rewrite (hr _) (hb _) hc.rewrites hf (hd.isShaped name') hc.shaped
      hc.disjoint
  case neg =>
    have hk : Utf8.encode name' ≠ Utf8.encode name := fun he => hn (Utf8.encode_inj.mp he)
    have hrows : ds'.rows name' = ds.rows name' := by
      funext path cells
      rw [Definitions.rows, Definitions.rows, hc.unchanged name' hn]
    rw [hc.rewrites.elsewhere family _ hk, hrows]
    exact hs name' family hf

-- The definitions read back, whatever ids are at hand.
theorem reading_eq (hs : s.Represents ds) (hd : ds.Consistent) (name : String)
    (fresh : Nat → Uuid) : Stored.reading s name fresh = ds[name]? := by
  have hs := hs name
  cases hk : ds[name]?
  case none =>
    rw [Definitions.rows_of_none hk] at hs
    exact Stored.reading_of_defines_nothing hs
  case some k =>
    obtain ⟨rfl, hc⟩ := hd name k hk
    rw [Definitions.rows_of_some hk] at hs
    exact Stored.reading_of_defines hs hc

-- A storage represents one map of definitions.
theorem unique (hs : s.Represents ds) (hs' : s.Represents ds') (hd : ds.Consistent)
    (hd' : ds'.Consistent) : ds = ds' := by
  refine Std.ExtTreeMap.ext_getElem? fun name => ?_
  rw [← hs.reading_eq hd name fun _ => SchemaVersion.empty, hs'.reading_eq hd']

end Storage.Represents

namespace Replica

-- Merges the announcement that the statement has in view of the definitions in memory.
def execute (r : Replica) (s : Statement) (d : DeletionTime) : Except StorageError Replica :=
  r.merge ((s.change? r.schema.keyspaces d).map (·.mutation)).toList

def executeAll (r : Replica) (script : List (Statement × DeletionTime)) :
    Except StorageError Replica :=
  script.foldlM (fun r e => r.execute e.1 e.2) r

-- A store that has the definitions, with nothing in it as late as the instants.
structure Tracks (r : Replica) (ds : Definitions) (instants : List Int64) : Prop where
  sound      : Sound r
  consistent : ds.Consistent
  represents : r.storage.Represents ds
  earlier    : ∃ h, r.storage.Reflects h ∧ ∀ id, ∀ m ∈ h id, ∀ t ∈ instants, m.timestamp < t

variable {r : Replica} {ds : Definitions} {instants : List Int64} {s : Statement} {d : DeletionTime}
  {script done : List (Statement × DeletionTime)}

theorem tracks_empty (rounds : Nat) (instants : List Int64) : Tracks (empty rounds) ∅ instants where
  sound      := sound_empty rounds
  consistent := Definitions.consistent_empty
  represents := .empty
  earlier    := ⟨_, Storage.reflects_empty, by simp⟩

namespace Tracks

theorem keyspaces_eq (ht : Tracks r ds instants) : r.schema.keyspaces = ds := by
  refine Std.ExtTreeMap.ext_getElem? fun name => ?_
  have ⟨fresh, hr⟩ := ht.sound.exists_reading name
  exact hr.trans (ht.represents.reading_eq ht.consistent name fresh)

-- A batch that is, as far as the schema tables go, the announcement of a statement.
theorem merge {c : SchemaChange} {batch : List Mutation}
    (ht : Tracks r ds (d.markedAt :: instants)) (hv : s.IsValid) (hc : s.change? ds d = some c)
    (hd : ∀ t ∈ instants, d.markedAt < t)
    (hm : ∀ family ∈ Catalog.schema, ∀ key,
      batchOn batch ⟨Catalog.system, family, key⟩ = c.mutation.on ⟨Catalog.system, family, key⟩)
    (hb : ∀ id, ∀ m ∈ batchOn batch id, m.timestamp = d.markedAt) :
    ∃ r', r.merge batch = .ok r' ∧ Tracks r' (s.effect ds) instants := by
  have hreg : Regular (batchOn batch) :=
    c.regular_mutation.congr fun family hf key => (hm family hf key).symm
  have ⟨r', hr', hs⟩ := ht.sound.merge hreg
  have hw : r.storage.Writes (batchOn batch) r'.storage := writes_merge hr'
  have ⟨name, puts, clears, hcar⟩ := s.exists_carries ht.consistent hv hc
  have ⟨h, hr, he⟩ := ht.earlier
  refine ⟨r', hr', hs, s.effect_consistent ht.consistent hv, ?_, _, hr.writes hw,
    fun id m hm t ht => ?_⟩
  · have he id m (hm : m ∈ h id) := he id m hm _ List.mem_cons_self
    exact ht.represents.writes ht.consistent hr he hw hm hcar
  · cases List.mem_append.mp hm
    case inl hm => exact he id m hm t (List.mem_cons_of_mem _ ht)
    case inr hm => exact hb id m hm ▸ hd t ht

theorem execute (ht : Tracks r ds (d.markedAt :: instants)) (hv : s.IsValid)
    (ha : (s.change? ds d).isSome) (hd : ∀ t ∈ instants, d.markedAt < t) :
    ∃ r', r.execute s d = .ok r' ∧ Tracks r' (s.effect ds) instants := by
  have ⟨c, hc⟩ := Option.isSome_iff_exists.mp ha
  have hb : batchOn [c.mutation] = c.mutation.on := funext fun id => List.flatMap_singleton ..
  have ⟨_, _, _, hcar⟩ := s.exists_carries ht.consistent hv hc
  have ⟨r', hm, ht'⟩ := ht.merge hv hc hd (fun _ _ _ => congrFun hb _)
    (hb ▸ hcar.rewrites.timestamp)
  exact ⟨r', by rw [Replica.execute, ht.keyspaces_eq, hc]; exact hm, ht'⟩

theorem executeAll (ht : Tracks r ds (script.map (·.2.markedAt))) (ha : Admissible ds script)
    (hp : (script.map (·.2.markedAt)).Pairwise (· < ·)) :
    ∃ r', r.executeAll script = .ok r' ∧ Tracks r' (effects ds script) [] := by
  induction ha generalizing r
  case nil => exact ⟨r, rfl, ht⟩
  case cons ds s d script valid admitted rest hi =>
    have ⟨hd, hp⟩ := List.pairwise_cons.mp hp
    have ⟨r₁, h₁, ht₁⟩ := ht.execute valid admitted hd
    have ⟨r₂, h₂, ht₂⟩ := hi ht₁ hp
    refine ⟨r₂, ?_, ht₂⟩
    rw [Replica.executeAll, List.foldlM_cons, h₁]
    exact h₂

end Tracks

-- A store in which nothing has been done but that a keyspace has been created.
theorem exists_merge_creation {k : Keyspace} (hk : k.validate = .ok ()) (hkk : k.Keyed)
    (rounds : Nat) {timestamp : Int64} (hd : ∀ t ∈ instants, timestamp < t) :
    ∃ r, (empty rounds).merge [k.creation timestamp] = .ok r ∧
      Tracks r ((∅ : Definitions).insert k.name k) instants ∧
      ∀ id : PartitionId, id.table ∉ Catalog.schema → r.storage.partition id = ∅ := by
  have hc : (Statement.createKeyspace k).change? ∅ ⟨timestamp, 0⟩ =
      some (.keyspaceCreation k timestamp) := by
    simp [Statement.change?]
  obtain ⟨r, hr, ht⟩ := (tracks_empty rounds (timestamp :: instants)).execute
    (s := .createKeyspace k) (d := ⟨timestamp, 0⟩) ⟨hk, hkk⟩ (by rw [hc]; rfl) hd
  rw [execute, (tracks_empty rounds []).keyspaces_eq, hc] at hr
  have hr : (empty rounds).merge [k.creation timestamp] = .ok r := hr
  refine ⟨r, hr, ht, fun id hi => ?_⟩
  have hb : batchOn [k.creation timestamp] id = [] := by
    rw [batchOn, List.flatMap_singleton, Keyspace.creation_on_eq_nil hi]
  rw [(writes_merge hr).partition, hb]
  exact Storage.partition_empty id

theorem executeAll_refines (ha : Admissible ∅ script)
    (ht : (script.map (·.2.markedAt)).Pairwise (· < ·)) (rounds : Nat) (hp : done <+: script) :
    ∃ r, (empty rounds).executeAll done = .ok r ∧ r.schema.keyspaces = effects ∅ done := by
  obtain ⟨rest, rfl⟩ := hp
  rw [List.map_append] at ht
  have ⟨r, hr, ht⟩ := (tracks_empty rounds _).executeAll ha.of_append
    (List.pairwise_append.mp ht).left
  exact ⟨r, hr, ht.keyspaces_eq⟩

-- A table that is created again has only the columns of its second life.
theorem executeAll_refines_of_recreation :
    let t := Table.new "app" "users" ⟨List.replicate 16 0, rfl⟩
    let wide := t.withColumn ⟨"email", "UTF8Type", .regular⟩
    let k := (Keyspace.new "app" "SimpleStrategy" ∅ true).withTable wide
    ∃ r, (empty 0).executeAll [(.createKeyspace k, ⟨1, 0⟩), (.dropTable "app" "users", ⟨2, 0⟩),
      (.createTable t, ⟨3, 0⟩)] = .ok r ∧ r.schema.table "app" "users" = some t := by
  intro t wide k
  have named (what : String) : ∀ name ∈ ["app", "users", "email"], checkName what name = .ok () := by
    simp [checkName, isName, isNameChar, maxNameLength]
    decide
  have happ := named "keyspace" "app" (by simp)
  have husers := named "table" "users" (by simp)
  have hemail := named "column" "email" (by simp)
  have ht : t.validate = .ok () := Table.validate_new.mpr ⟨happ, husers⟩
  have hw : wide.validate = .ok () :=
    Table.validate_withColumn ht (seq_eq_ok_iff.mpr ⟨hemail, rfl⟩)
  have hk : k.validate = .ok () :=
    Keyspace.validate_withTable (Keyspace.validate_new.mpr ⟨happ, by decide⟩) hw rfl
  have hkk : k.Keyed := Keyspace.keyed_new.withTable (Table.keyed_new.withColumn _)
  have ha : Admissible ∅ [(.createKeyspace k, ⟨1, 0⟩), (.dropTable "app" "users", ⟨2, 0⟩),
      (.createTable t, ⟨3, 0⟩)] := by
    refine .cons ⟨hk, hkk⟩ ?_ (.cons trivial ?_ (.cons ⟨ht, Table.keyed_new⟩ ?_ .nil))
    all_goals
      simp [Statement.change?, Statement.effect, k, t, wide, Keyspace.new, Keyspace.withTable,
        Keyspace.withoutTable, Keyspace.withTables, Table.new, Table.withColumn]
  obtain ⟨r, hr, hk⟩ := executeAll_refines ha (by decide) 0 List.prefix_rfl
  refine ⟨r, hr, ?_⟩
  simp [Schema.table, hk, effects, Statement.effect, k, t, wide, Keyspace.new, Keyspace.withTable,
    Keyspace.withoutTable, Keyspace.withTables, Table.new, Table.withColumn]

end Replica
end ClusterMetadata
