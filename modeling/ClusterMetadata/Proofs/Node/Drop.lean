import ClusterMetadata.Proofs.Node.Update
import ClusterMetadata.Proofs.Schema.Concurrent
import ClusterMetadata.Proofs.Schema.Refinement

/-!
A column that one node drops while another node, which has not heard of it, updates the same table
and keeps the column. Wherever both updates have been taken in, the column is gone or back by their
instants and by what was stored of the column, never by the order in which they came
(`absorb_drops_iff`).
-/

namespace ClusterMetadata

namespace Node

variable {n a b a' b' : Node} {t old dropping keeping : Table} {d : DeletionTime}
  {drops drop keep : List Mutation} {batches : List (List Mutation)} {column : String} {c : Column}

-- The records of dropped columns lie outside of the schema tables.
theorem Plans.isAlteration (h : n.Plans t old d drops) :
    Replica.IsAlteration old t d (old.alteration t d :: drops) := by
  have ⟨hk, hn, _⟩ := Table.checkReplacement_eq_ok_iff.mp h.replaces
  refine ⟨hk, hn, fun family hf key => ?_⟩
  have hd : batchOn drops ⟨Catalog.system, family, key⟩ = [] := by
    refine List.flatMap_eq_nil_iff.mpr fun m hm => ?_
    obtain ⟨column, -, value, -, rfl⟩ := h.steps m hm
    rw [Tag.addition_on, if_neg]
    intro he
    have ht : Catalog.tags = family := congrArg PartitionId.table he
    exact absurd (ht ▸ hf) (by decide)
  rw [batchOn, List.flatMap_cons, ← batchOn, hd, List.append_nil]

-- Where both updates have been taken in, the table is shown, without the column if and only if the
-- drop is no earlier than the update that keeps it and than the row that was stored.
def Settles (n n' : Node) (t : Table) (column : String) (dropped kept : Int64) : Prop :=
  ∃ t', n'.schema.table t.keyspace t.name = some t' ∧
    (t'.columns[column]? = none ↔ kept ≤ dropped ∧
      ∀ c ∈ Stored.columnMarkers n.storage t.keyspace t.name column, c.timestamp ≤ dropped)

-- The node has made one of the updates itself.
theorem replica_absorb_updateTable {net : Network} {client : Option String} {batch : List Mutation}
    {r : Replica} (hi : n.migration.IsIdle) (hp : n.run (planUpdate t) = (.ok (old, batch), n'))
    (hm : n.replica.mergeAll (batch :: batches) = .ok r) :
    ((n.run (updateTable net t client)).2.absorb batches).replica = r := by
  have h : n.Rests n.replica [] [] := ⟨hi, rfl⟩
  have h := h.updateTable net client hp
  have hm : n.replica.attemptAll (batch :: batches) = r :=
    Replica.attemptAll_of_mergeAll_eq_ok hm
  exact (h.absorb batches).replica.trans hm

-- A store of one table, of which one column can be dropped and the comment can be changed.
theorem exists_store_of_users (instants : List Int64) (hi : ∀ t ∈ instants, 1 < t) :
    let base := (Table.new "app" "users" ⟨List.replicate 16 0, rfl⟩).withColumn
      ⟨"id", "UTF8Type", .partitionKey⟩
    let users := base.withColumn ⟨"email", "UTF8Type", .regular⟩
    let app := (Keyspace.simple "app" 1).withTable users
    ∃ r, (Replica.empty 0).merge [app.creation 1] = .ok r ∧ (∃ ds, r.Tracks ds instants) ∧
      r.schema.table "app" "users" = some users ∧
      r.storage.partition (Tag.partition .columnDrop) = ∅ ∧
      base.validate = .ok () ∧ users.validate = .ok () ∧
      ∀ n : Node, n.replica = r → ∀ t ∈ [base, users.withComment "kept"],
        ∃ batch, (n.run (planUpdate t)).1 = .ok (users, batch) := by
  intro base users app
  have named (what : String) :
      ∀ name ∈ ["app", "users", "id", "email"], checkName what name = .ok () := by
    simp [checkName, isName, isNameChar, maxNameLength]
    decide
  have happ := named "keyspace" "app" (by simp)
  have hbase : base.validate = .ok () := by
    refine Table.validate_withColumn
      (Table.validate_new.mpr ⟨happ, named "table" "users" (by simp)⟩) ?_
    exact seq_eq_ok_iff.mpr ⟨named "column" "id" (by simp), rfl⟩
  have husers : users.validate = .ok () :=
    Table.validate_withColumn hbase (seq_eq_ok_iff.mpr ⟨named "column" "email" (by simp), rfl⟩)
  have hk : app.validate = .ok () :=
    Keyspace.validate_withTable (Keyspace.validate_new.mpr ⟨happ, by decide⟩) husers rfl
  have hkk : app.Keyed :=
    Keyspace.keyed_new.withTable ((Table.keyed_new.withColumn _).withColumn _)
  obtain ⟨r, hr, ht, htags⟩ := Replica.exists_merge_creation hk hkk 0 hi
  have hshown : r.schema.table "app" "users" = some users := by
    simp [Schema.table, ht.keyspaces_eq, app, users, base, Keyspace.simple, Keyspace.new,
      Keyspace.withTable, Table.new, Table.withColumn]
  refine ⟨r, hr, ⟨_, ht⟩, hshown, htags _ (by decide), hbase, husers, ?_⟩
  rintro n rfl t ht
  have plan {t : Table} (hv : t.validate = .ok ())
      (hs : n.schema.table t.keyspace t.name = some users)
      (hc : users.checkReplacement t = .ok ()) :
      ∃ batch, (n.run (planUpdate t)).1 = .ok (users, batch) :=
    exists_run_planUpdate hv hs hc fun column _ =>
      canDrop_of_partition_eq_empty t column (htags _ (by decide))
  rcases List.mem_pair.mp ht with rfl | rfl
  · exact plan hbase hshown (by decide +kernel)
  · exact plan husers hshown (by decide +kernel)

section

-- Two updates start from the same definition. One drops the column, the other keeps it as it is.
variable (hd : a.run (planUpdate dropping) = (.ok (old, drop), a'))
  (hk : b.run (planUpdate keeping) = (.ok (old, keep), b')) (hc : old.columns[column]? = some c)
  (hdc : dropping.columns[column]? = none) (hdk : dropping.Keyed)
  (hkc : keeping.columns[column]? = some c)

include hd hk hc hdc hdk hkc

-- A node that makes one of the updates hears of the other, in any order with any repetition.
theorem settles_updateTable {net : Network} {client : Option String} {batch : List Mutation}
    {heard : List (List Mutation)} (hw : n.replica.Works) (hi : n.migration.IsIdle)
    (hp : n.run (planUpdate t) = (.ok (old, batch), n')) (hdb : drop ∈ batch :: heard)
    (hkb : keep ∈ batch :: heard) (hb : ∀ x ∈ batch :: heard, x = drop ∨ x = keep) :
    n.Settles ((n.run (updateTable net t client)).2.absorb heard) old column a.clock.next
      b.clock.next := by
  obtain ⟨d, drops, pd, rfl⟩ := run_planUpdate_eq_ok hd
  obtain ⟨k, keeps, pk, rfl⟩ := run_planUpdate_eq_ok hk
  have ⟨_, _, pn, _⟩ := run_planUpdate_eq_ok hp
  have hshown : n.schema.table old.keyspace old.name = some old :=
    pn.isAlteration.keyspace ▸ pn.isAlteration.name ▸ pn.shown
  have ⟨r, t', hm, ht, h⟩ :=
    hw.mergeAll_alterations hshown pd.isAlteration pk.isAlteration hc hdc hdk hkc hdb hkb hb
  have hr : ((n.run (updateTable net t client)).2.absorb heard).replica = r :=
    replica_absorb_updateTable hi hp hm
  refine ⟨t', ?_, pd.markedAt ▸ pk.markedAt ▸ h⟩
  exact (congrArg (fun r : Replica => r.schema.table old.keyspace old.name) hr).trans ht

-- So it is on both nodes, of which each has made one of the updates.
theorem absorb_drops_iff {net net' : Network} {client client' : Option String}
    {heard heard' : List (List Mutation)} (ha : a.replica.Works) (hb : b.replica.Works)
    (ia : a.migration.IsIdle) (ib : b.migration.IsIdle)
    (hh : ∀ batch ∈ heard, batch = drop ∨ batch = keep) (hm : keep ∈ heard)
    (hh' : ∀ batch ∈ heard', batch = drop ∨ batch = keep) (hm' : drop ∈ heard') :
    a.Settles ((a.run (updateTable net dropping client)).2.absorb heard) old column
        a.clock.next b.clock.next ∧
      b.Settles ((b.run (updateTable net' keeping client')).2.absorb heard') old column
        a.clock.next b.clock.next :=
  ⟨settles_updateTable hd hk hc hdc hdk hkc ha ia hd List.mem_cons_self
      (List.mem_cons_of_mem _ hm) (List.forall_mem_cons.mpr ⟨.inl rfl, hh⟩),
    settles_updateTable hd hk hc hdc hdk hkc hb ib hk (List.mem_cons_of_mem _ hm')
      List.mem_cons_self (List.forall_mem_cons.mpr ⟨.inr rfl, hh'⟩)⟩

end

-- The drop is later than the other update, which the node that drops hears of first.
theorem absorb_drops_iff_of_later_drop :
    let base := (Table.new "app" "users" ⟨List.replicate 16 0, rfl⟩).withColumn
      ⟨"id", "UTF8Type", .partitionKey⟩
    let users := base.withColumn ⟨"email", "UTF8Type", .regular⟩
    let app := (Keyspace.simple "app" 1).withTable users
    let keeping := users.withComment "kept"
    let net := Network.new 1 Network.defaultCapacity
    ∃ r drop keep, (Replica.empty 0).merge [app.creation 1] = .ok r ∧
      let a := (idle (.v4 10 0 0 1) .standard ∅ "node" ⟨3000, 0, 0⟩ 0).withReplica r
      let b := (idle (.v4 10 0 0 2) .standard ∅ "node" ⟨2000, 0, 0⟩ 0).withReplica r
      (a.run (planUpdate base)).1 = .ok (users, drop) ∧
        (b.run (planUpdate keeping)).1 = .ok (users, keep) ∧
        a.Settles ((a.run (updateTable net base none)).2.absorb [keep, drop]) users "email"
          a.clock.next b.clock.next ∧
        b.Settles ((b.run (updateTable net keeping none)).2.absorb [drop]) users "email"
          a.clock.next b.clock.next := by
  intro base users app keeping net
  have ⟨r, hr, ⟨_, ht⟩, _, _, _, _, hplan⟩ := exists_store_of_users [] (by simp)
  have hw := ht.sound.works
  let a := (idle (.v4 10 0 0 1) .standard ∅ "node" ⟨3000, 0, 0⟩ 0).withReplica r
  let b := (idle (.v4 10 0 0 2) .standard ∅ "node" ⟨2000, 0, 0⟩ 0).withReplica r
  have ⟨drop, hd⟩ := hplan a rfl base List.mem_cons_self
  have ⟨keep, hk⟩ := hplan b rfl keeping (List.mem_cons_of_mem _ List.mem_cons_self)
  refine ⟨r, drop, keep, hr, hd, hk, ?_⟩
  have hc : users.columns["email"]? = some ⟨"email", "UTF8Type", .regular⟩ := by decide +kernel
  have hdc : base.columns["email"]? = none := by decide +kernel
  exact absorb_drops_iff (Prod.ext hd rfl) (Prod.ext hk rfl) hc hdc (Table.keyed_new.withColumn _)
    hc hw hw (Stage.isIdle_new ..) (Stage.isIdle_new ..) (by simp) (by simp) (by simp) (by simp)

-- The drop is earlier than the other update. The column is back on both nodes.
theorem column_returns_of_later_update :
    let base := (Table.new "app" "users" ⟨List.replicate 16 0, rfl⟩).withColumn
      ⟨"id", "UTF8Type", .partitionKey⟩
    let users := base.withColumn ⟨"email", "UTF8Type", .regular⟩
    let app := (Keyspace.simple "app" 1).withTable users
    let keeping := users.withComment "kept"
    let net := Network.new 1 Network.defaultCapacity
    ∃ r drop keep, (Replica.empty 0).merge [app.creation 1] = .ok r ∧
      let a := (idle (.v4 10 0 0 1) .standard ∅ "node" ⟨2000, 0, 0⟩ 0).withReplica r
      let b := (idle (.v4 10 0 0 2) .standard ∅ "node" ⟨3000, 0, 0⟩ 0).withReplica r
      (a.run (planUpdate base)).1 = .ok (users, drop) ∧
        (b.run (planUpdate keeping)).1 = .ok (users, keep) ∧
        (∃ t, ((a.run (updateTable net base none)).2.absorb [keep]).schema.table "app" "users" =
          some t ∧ t.columns["email"]? ≠ none) ∧
        ∃ t, ((b.run (updateTable net keeping none)).2.absorb [drop]).schema.table "app" "users" =
          some t ∧ t.columns["email"]? ≠ none := by
  intro base users app keeping net
  have ⟨r, hr, ⟨_, ht⟩, _, _, _, _, hplan⟩ := exists_store_of_users [] (by simp)
  have hw := ht.sound.works
  let a := (idle (.v4 10 0 0 1) .standard ∅ "node" ⟨2000, 0, 0⟩ 0).withReplica r
  let b := (idle (.v4 10 0 0 2) .standard ∅ "node" ⟨3000, 0, 0⟩ 0).withReplica r
  have ⟨drop, hd⟩ := hplan a rfl base List.mem_cons_self
  have ⟨keep, hk⟩ := hplan b rfl keeping (List.mem_cons_of_mem _ List.mem_cons_self)
  refine ⟨r, drop, keep, hr, hd, hk, ?_⟩
  have hd : a.run (planUpdate base) = (.ok (users, drop), _) := Prod.ext hd rfl
  have hk : b.run (planUpdate keeping) = (.ok (users, keep), _) := Prod.ext hk rfl
  have hc : users.columns["email"]? = some ⟨"email", "UTF8Type", .regular⟩ := by decide +kernel
  have hdc : base.columns["email"]? = none := by decide +kernel
  have late : ¬(⟨3000, 0, 0⟩ : Clock).next ≤ (⟨2000, 0, 0⟩ : Clock).next := by decide
  have settles {n n' : Node} {t : Table} {batch : List Mutation} {heard : List (List Mutation)}
      (hn : n.replica = r) (hi : n.migration.IsIdle)
      (hp : n.run (planUpdate t) = (.ok (users, batch), n')) (hdb : drop ∈ batch :: heard)
      (hkb : keep ∈ batch :: heard) (hb : ∀ x ∈ batch :: heard, x = drop ∨ x = keep) :
      ∃ t', ((n.run (updateTable net t none)).2.absorb heard).schema.table "app" "users" =
        some t' ∧ t'.columns["email"]? ≠ none := by
    have ⟨t', ht, h⟩ : n.Settles ((n.run (updateTable net t none)).2.absorb heard) users "email"
        a.clock.next b.clock.next :=
      settles_updateTable hd hk hc hdc (Table.keyed_new.withColumn _) hc (hn ▸ hw) hi hp hdb hkb hb
    exact ⟨t', ht, fun hn => late (h.mp hn).left⟩
  exact ⟨settles rfl (Stage.isIdle_new ..) hd (by simp) (by simp) (by simp),
    settles rfl (Stage.isIdle_new ..) hk (by simp) (by simp) (by simp)⟩

end Node
end ClusterMetadata
