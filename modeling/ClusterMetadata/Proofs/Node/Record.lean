import ClusterMetadata.Proofs.Node.Drop

/-!
What an update of a table does to the records of the columns that it drops. Each takes the step that
the record on the node admits, and no other record is written (`Plans.write_mem_iff`). Wherever the
batch is later than all that is stored, the step is what is read afterwards (`Plans.recordCell_eq`).
-/

namespace ClusterMetadata

-- The update drops the column that the record is about.
def Table.Drops (old t : Table) (target : String) : Prop :=
  ∃ column ∈ old.droppedColumns t, joinTarget [t.keyspace, t.name, column] = target

instance (old t : Table) (target : String) : Decidable (old.Drops t target) :=
  inferInstanceAs (Decidable (∃ column ∈ _, _))

namespace Node

variable {n n' m : Node} {t old : Table} {d : DeletionTime} {drops : List Mutation}
  {target : String} {c c' : Stamped} {s s' : Storage} {r : Replica} {ds : Definitions}
  {instants : List Int64}

-- What the node writes when it takes the next step of the record.
structure IsNextStep (n : Node) (target : String) (c : Stamped) : Prop where
  value     : Tag.Next ((Tag.recordCell? n.storage target).map (·.value)) c.value
  timestamp : c.timestamp = n.clock.next

theorem IsNextStep.unique (h : n.IsNextStep target c) (h' : n.IsNextStep target c') : c = c' :=
  Stamped.ext (h.value.unique h'.value) (h.timestamp.trans h'.timestamp.symm)

-- A record at `permanent_drop` has no next step.
theorem not_isNextStep_of_permanentDrop (hc : Tag.recordCell? n.storage target = some c')
    (hp : c'.value = Tag.permanentDrop) : ¬n.IsNextStep target c := by
  intro h
  have hv := h.value
  rw [hc, Option.map_some, hp] at hv
  exact Tag.not_next_permanentDrop hv

-- The records are all that the batch has for the table that they are in.
theorem batchOn_records : batchOn (old.alteration t d :: drops) (Tag.partition .columnDrop) =
    batchOn drops (Tag.partition .columnDrop) := by
  have ha : (old.alteration t d).on (Tag.partition .columnDrop) = [] :=
    Table.alteration_on_eq_nil (by decide)
  rw [batchOn, List.flatMap_cons, ha, List.nil_append, batchOn]

namespace Plans

variable (h : n.Plans t old d drops)

include h

theorem isRecording :
    Tag.IsRecording (batchOn (old.alteration t d :: drops) (Tag.partition .columnDrop)) := by
  rw [batchOn_records]
  intro mod hm
  have ⟨m, hm, hmod⟩ := mem_batchOn.mp hm
  obtain ⟨_, -, _, -, rfl⟩ := h.steps m hm
  exact Tag.isRecording_addition_on mod hmod

theorem timestamp_eq {id : PartitionId} {mod : Modification}
    (hm : mod ∈ batchOn (old.alteration t d :: drops) id) : mod.timestamp = d.markedAt := by
  have ⟨m, hm, hmod⟩ := mem_batchOn.mp hm
  rcases List.mem_cons.mp hm with rfl | hm
  · exact Table.rewrites_alteration.timestamp id mod hmod
  · obtain ⟨_, -, _, -, rfl⟩ := h.steps m hm
    exact (Tag.timestamp_eq_of_mem_addition_on hmod).trans h.markedAt.symm

-- The records that the batch writes are those of the dropped columns.
theorem write_mem_iff (ht : Tag.IsTidy n.storage) : .write [target, Tag.valueLeaf] c ∈
      batchOn (old.alteration t d :: drops) (Tag.partition .columnDrop) ↔
    old.Drops t target ∧ n.IsNextStep target c := by
  rw [batchOn_records, mem_batchOn]
  constructor
  case mp =>
    rintro ⟨m, hm, hw⟩
    obtain ⟨column, hc, value, hv, rfl⟩ := h.steps m hm
    obtain ⟨-, rfl, rfl⟩ := Tag.write_mem_addition_on_iff.mp hw
    exact ⟨⟨column, hc, rfl⟩, Tag.load_value ht ▸ hv, rfl⟩
  case mpr =>
    rintro ⟨⟨column, hc, rfl⟩, hs⟩
    obtain ⟨m, hm, value, hv, rfl⟩ := h.covers column hc
    have he : c = ⟨value, n.clock.next⟩ := hs.unique ⟨Tag.load_value ht ▸ hv, rfl⟩
    exact ⟨_, hm, Tag.write_mem_addition_on_iff.mpr ⟨rfl, rfl, he⟩⟩

-- What is dropped can take a next step.
theorem exists_isNextStep (ht : Tag.IsTidy n.storage) (hc : old.Drops t target) :
    ∃ c, n.IsNextStep target c := by
  obtain ⟨column, hm, rfl⟩ := hc
  obtain ⟨_, -, value, next, -⟩ := h.covers column hm
  exact ⟨⟨value, n.clock.next⟩, Tag.load_value ht ▸ next, rfl⟩

-- Where the batch is later than all steps before, the step is what is stored then. The storage need
-- not be that of the node.
theorem recordCell_eq (ht : Tag.IsTidy n.storage) (hc : old.Drops t target)
    (hs : n.IsNextStep target c) (hw : s.Writes (batchOn (old.alteration t d :: drops)) s')
    (he : Tag.Precede s n.clock.next) : Tag.recordCell? s' target = some c := by
  have ⟨history, hr, hb⟩ := he
  rw [Tag.recordCell?, hw.partition]
  refine hr.getElem?_foldl_of_latest (fun mod hm => ?_) h.isRecording.isDeletion_eq_false
    ((h.write_mem_iff ht).mpr ⟨hc, hs⟩) fun c' hc' => ?_
  · exact hs.timestamp ▸ hb mod hm
  · exact (((h.write_mem_iff ht).mp hc').right.unique hs).le

-- Other records stay.
theorem recordCell_eq_of_not_drops (ht : Tag.IsTidy n.storage) (hc : ¬old.Drops t target)
    (hw : s.Writes (batchOn (old.alteration t d :: drops)) s') :
    Tag.recordCell? s' target = Tag.recordCell? s target := by
  rw [Tag.recordCell?, hw.partition]
  refine Partition.getElem?_foldl_of_not_written h.isRecording.isDeletion_eq_false fun c hm => ?_
  exact hc ((h.write_mem_iff ht).mp hm).left

end Plans

theorem precede_of_tracks {now : Int64} (ht : r.Tracks ds (now :: instants)) :
    Tag.Precede r.storage now := by
  obtain ⟨history, hr, hb⟩ := ht.earlier
  exact ⟨_, hr _, fun mod hm => hb _ mod hm now List.mem_cons_self⟩

-- What an update leaves behind that is made: the node shows the new definition, and of the records
-- just those of the dropped columns have taken their next step.
structure Updates (n : Node) (t old : Table) (instants : List Int64) (n' : Node) : Prop where
  shown   : n'.schema.table t.keyspace t.name = some t
  tracks  : ∃ ds, n'.replica.Tracks ds instants
  stepped : ∀ target c, old.Drops t target → n.IsNextStep target c →
    Tag.recordCell? n'.storage target = some c
  kept    : ∀ target, ¬old.Drops t target →
    Tag.recordCell? n'.storage target = Tag.recordCell? n.storage target

-- An update that is planned is made where the store keeps track of the definitions.
theorem updates_updateTable (hi : n.migration.IsIdle) (htidy : Tag.IsTidy n.storage)
    (planned : n.run (planUpdate t) = (.ok (old, old.alteration t d :: drops), m))
    (hp : n.Plans t old d drops) (hk : t.Keyed)
    (ht : n.replica.Tracks ds (n.clock.next :: instants))
    (hd : ∀ x ∈ instants, n.clock.next < x) (net : Network) (client : Option String) :
    n.Updates t old instants (n.run (updateTable net t client)).2 := by
  have ⟨k, hks, ho⟩ := Option.bind_eq_some_iff.mp hp.shown
  have hr : n.schema.keyspaces = ds := ht.keyspaces_eq
  have hc : (Statement.alterTable t).change? ds d = some (.tableAlteration old t d) := by
    rw [← hr, Statement.change?]
    exact Option.bind_eq_some_iff.mpr ⟨k, hks, Option.bind_eq_some_iff.mpr ⟨old, ho, rfl⟩⟩
  have hv : (Statement.alterTable t).IsValid := ⟨hp.valid, hk⟩
  obtain ⟨r', hm, ht'⟩ := (hp.markedAt.symm ▸ ht).merge hv hc (hp.markedAt.symm ▸ hd)
    hp.isAlteration.batch fun id mod hm => hp.timestamp_eq hm
  have h := replica_updateTable hi planned hm net client
  have hw := Replica.writes_merge hm
  constructor
  case shown =>
    rw [← schema_replica, h, Schema.table, ht'.keyspaces_eq, ← hr, Statement.effect]
    simp [hks, Keyspace.withTable]
  case tracks  => exact ⟨_, h ▸ ht'⟩
  case stepped =>
    intro target c hc hs
    rw [← storage_replica, h]
    exact hp.recordCell_eq htidy hc hs hw (precede_of_tracks ht)
  case kept    =>
    intro target hc
    rw [← storage_replica, h]
    exact hp.recordCell_eq_of_not_drops htidy hc hw

-- A node that hears of a step that is later than all that it stores reads that step.
theorem recordCell_merge (hp : n.Plans t old d drops) (htidy : Tag.IsTidy n.storage)
    (hc : old.Drops t target) (hs : n.IsNextStep target c) (hi : m.migration.IsIdle)
    (ht : m.replica.Tracks ds (n.clock.next :: instants)) :
    Tag.recordCell? (m.run (merge (old.alteration t d :: drops))).2.storage target = some c := by
  have ⟨r', hm, _, hw⟩ := ht.sound.works.merge hp.isAlteration.isTabular
  have h : m.Rests m.replica [] [] := ⟨hi, rfl⟩
  have h := (h.merge (old.alteration t d :: drops)).replica
  rw [Replica.attempt_of_merge_eq_ok hm] at h
  rw [← storage_replica, h]
  exact hp.recordCell_eq htidy hc hs hw (precede_of_tracks ht)

end Node
end ClusterMetadata
