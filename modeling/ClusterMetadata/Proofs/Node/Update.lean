import ClusterMetadata.Node.Announce
import ClusterMetadata.Proofs.Audit.Tag
import ClusterMetadata.Proofs.Node.Views
import ClusterMetadata.Proofs.Schema.Rejection

/-!
What an update of a table is made of. First it is planned: it is refused, or it comes to a batch
(`run_planUpdate_eq_ok`). A node whose migration stage is idle merges the batch at once
(`Rests.updateTable`), and whatever else the update does, neither storage nor schema changes.
-/

namespace ClusterMetadata

namespace Stage

variable {Job : Type} {s s' : Stage Job} {job : Job} {queue running : List Job}

-- The stage is open and has these jobs.
structure Holds (s : Stage Job) (queue running : List Job) : Prop where
  queue   : s.queue = queue
  running : s.running = running
  workers : 0 < s.workers
  opened  : s.closed = false

abbrev IsIdle (s : Stage Job) : Prop := s.Holds [] []

theorem isIdle_new (name : String) (workers : Nat) : (new name workers : Stage Job).IsIdle :=
  ⟨rfl, rfl, Nat.lt_of_lt_of_le Nat.one_pos (Nat.le_max_right ..), rfl⟩

theorem Holds.execute (h : s.Holds queue running) (job : Job) :
    ∃ s', s.execute job = .ok s' ∧ s'.Holds (queue ++ [job]) running := by
  refine ⟨_, if_neg (by simp [h.opened]), ?_⟩
  exact ⟨congrArg (· ++ [job]) h.queue, h.running, h.workers, h.opened⟩

theorem Holds.take (h : s.Holds (job :: queue) []) :
    ∃ s', s.take = some (job, s') ∧ s'.Holds queue [job] := by
  simp only [Stage.take, h.queue, h.running, List.length_nil, h.workers, if_true]
  exact ⟨_, rfl, rfl, rfl, h.workers, h.opened⟩

theorem queue_eq_of_execute (h : s.execute job = .ok s') : s'.queue = s.queue ++ [job] := by
  rw [execute] at h
  split at h <;> cases h
  rfl

theorem queue_eq_of_take (h : s.take = some (job, s')) : s.queue = job :: s'.queue := by
  rw [take] at h
  split at h
  case h_1 => cases h
  case h_2 hq =>
    split at h <;> cases h
    exact hq

theorem queue_finish (s : Stage Job) (i : Nat) : (s.finish i).queue = s.queue := by
  rw [finish]
  split <;> rfl

theorem Holds.finish (h : s.Holds queue [job]) :
    (s.finish (s.running.length - 1)).Holds queue [] := by
  simp only [Stage.finish, h.running, List.length_singleton, Nat.sub_self, Nat.one_pos, if_true]
  exact ⟨h.queue, rfl, h.workers, h.opened⟩

end Stage

namespace Node

variable {n n' : Node} {batch drops : List Mutation} {t old : Table} {d : DeletionTime}
  {net : Network} {client : Option String} {r : Replica} {queue running : List Job}
  {I : Node → Prop}

-- The storage and the schema of a node.
def replica (n : Node) : Replica where
  storage := n.storage
  schema  := n.schema

@[simp]
theorem storage_replica (n : Node) : n.replica.storage = n.storage := rfl

@[simp]
theorem schema_replica (n : Node) : n.replica.schema = n.schema := rfl

def withReplica (n : Node) (r : Replica) : Node :=
  { n with storage := r.storage, schema := r.schema }

-- The property is about the storage, the schema and the migration stage.
def OfReplica (I : Node → Prop) : Prop :=
  ∀ n n' : Node, n'.replica = n.replica → n'.migration = n.migration → I n → I n'

theorem OfReplica.ignoresTalk (hI : OfReplica I) : IgnoresTalk I where
  watches n _ _ := hI n _ rfl rfl
  draws n       := hI n _ rfl rfl
  emits n _ _   := hI n _ rfl rfl

theorem ofReplica_replica : OfReplica (·.replica = r) := fun _ _ hr _ h => hr.trans h

theorem ofReplica_migration {stage : Stage Job} : OfReplica (·.migration = stage) :=
  fun _ _ _ hm h => hm.trans h

-- The migration stage has these jobs, and the storage and the schema are these.
structure Rests (r : Replica) (queue running : List Job) (n : Node) : Prop where
  stage   : n.migration.Holds queue running
  replica : n.replica = r

theorem ofReplica_rests : OfReplica (Rests r queue running) :=
  fun _ _ hr hm h => ⟨hm ▸ h.stage, hr.trans h.replica⟩

-- What follows when a batch has been written and read.
def tell (result : Except StorageError MergeReport) : NodeM MergeReport := do
  let report ← lift .storage result
  notify report.events
  publish report
  return report

theorem run_merge (n : Node) (batch : List Mutation) : n.run (merge batch) =
    (n.withReplica (n.replica.attempt batch).1).run (tell (n.replica.attempt batch).2) := by
  have he : n.schema.merge n.storage batch = ((n.replica.attempt batch).1.storage,
      (n.replica.attempt batch).1.schema, (n.replica.attempt batch).2) := rfl
  simp only [merge, commit, tell, bind_assoc, pure_bind, run_bind, run_get, run_set, he,
    withReplica]

theorem keeps_tell (hn : IgnoresNotes I) (hr : ∀ n registry, I n → I { n with registry })
    (ha : ∀ version, Keeps I (advertise version)) (result : Except StorageError MergeReport) :
    Keeps I (tell result) := by
  refine (keeps_lift _).bind fun report => (keeps_notify hn _).bind fun _ =>
    Keeps.bind ?_ fun _ => keeps_pure _
  have forgets : Keeps I (modify fun n =>
      { n with registry := report.registryTargets.foldl (·.invalidate) n.registry }) :=
    fun n => hr n _
  exact forgets.bind fun _ => ha _

theorem keeps_merge {permitted : Outgoing → Prop} (hI : Admits permitted I)
    (tells : ∀ version, permitted (.advertise version))
    (forgets : ∀ n registry, I n → I { n with registry })
    (merges : ∀ n, I n → I (n.withReplica (n.replica.attempt batch).1)) :
    Keeps I (merge batch) := by
  intro n h
  rw [run_merge]
  exact keeps_tell hI.watches forgets (fun version => keeps_advertise hI (tells version)) _ _
    (merges n h)

-- A merge does to storage and schema what it does to a store, whether it fails or not.
theorem Rests.merge (h : n.Rests r queue running) (batch : List Mutation) :
    (n.run (merge batch)).2.Rests (r.attempt batch).1 queue running := by
  rw [run_merge, h.replica]
  have hI : OfReplica (Rests (r.attempt batch).1 queue running) := ofReplica_rests
  exact keeps_tell hI.ignoresTalk.watches (fun n _ => hI n _ rfl rfl)
    (fun _ => keeps_advertise hI.ignoresTalk trivial) _ _ ⟨h.stage, rfl⟩

-- The node after it has taken in the batches, whatever came of each.
def absorb (n : Node) (batches : List (List Mutation)) : Node :=
  batches.foldl (fun n batch => (n.run (Node.merge batch)).2) n

theorem Rests.absorb (h : n.Rests r queue running) (batches : List (List Mutation)) :
    (n.absorb batches).Rests (r.attemptAll batches) queue running := by
  induction batches generalizing n r
  case nil                => exact h
  case cons batch batches hi => exact hi (h.merge batch)

theorem Rests.execute (h : n.Rests r queue running) (job : Job) :
    ∃ n', n.run (execute .migration job) = (.ok (), n') ∧
      n'.Rests r (queue ++ [job]) running := by
  have ⟨s, hs, hq⟩ := h.stage.execute job
  refine ⟨{ n with migration := s }, run_bind_eq_ok_iff.mpr ⟨n, n, rfl, ?_⟩, hq, h.replica⟩
  exact run_bind_eq_ok_iff.mpr ⟨s, n, run_lift_eq_ok_iff.mpr ⟨hs, rfl⟩, rfl⟩

-- A merge that is queued is made.
theorem Rests.runNext {ticket : Nat} (h : n.Rests r (.merge batch ticket :: queue) [])
    (net : Network) : (n.run (runNext net .migration)).2.Rests (r.attempt batch).1 queue [] := by
  have ⟨s, hs, hq⟩ := h.stage.take
  let n₁ : Node := { n with migration := s }
  have ht : n.run (takeJob .migration) = (.ok (some (.merge batch ticket)), n₁) := by
    have hs : (n.stage .migration).take = some (.merge batch ticket, s) := hs
    rw [takeJob]
    change (Except.ok _, _) = _
    simp only [hs]
    rfl
  have h₁ : n₁.Rests r queue [.merge batch ticket] := ⟨hq, h.replica⟩
  have h₂ := h₁.merge batch
  have done : Keeps (Rests (r.attempt batch).1 queue [.merge batch ticket])
      (settle ticket (n₁.run (Node.merge batch)).1) :=
    fun n => ofReplica_rests n _ rfl rfl
  have h₃ := done _ h₂
  rw [Node.runNext, run_bind, ht]
  simp only [runJob, run_bind, run_outcome]
  exact ⟨h₃.stage.finish, h₃.replica⟩

theorem Rests.runStage {ticket : Nat} (h : n.Rests r [.merge batch ticket] []) (net : Network) :
    (n.run (runStage net .migration)).2.Rests (r.attempt batch).1 [] [] := by
  have hq : (n.stage .migration).queue.length = 1 := congrArg List.length h.stage.queue
  change (n.run (runTimes net .migration (n.stage .migration).queue.length)).2.Rests _ _ _
  rw [hq]
  exact holds_bind (h.runNext net) fun _ => keeps_pure _

theorem keeps_await (ticket : Nat) (otherwise : Failure) : Keeps I (await ticket otherwise) := by
  refine keeps_get.bind fun _ => ?_
  split
  case h_1 => exact keeps_pure _
  case h_2 => exact keeps_throw _
  case h_3 => exact keeps_throw _

-- Definitions that an idle node announces are merged before anything else is.
theorem Rests.announce (h : n.Rests r [] []) (net : Network) (batch : List Mutation) :
    (n.run (announce net batch)).2.Rests (r.attempt batch).1 [] [] := by
  let n₁ : Node := { n with nextTicket := n.nextTicket + 1 }
  have ticket : n.run newTicket = (.ok n.nextTicket, n₁) := rfl
  have h₁ : n₁.Rests r [] [] := ⟨h.stage, h.replica⟩
  have ⟨n₂, he, h₂⟩ := h₁.execute (.merge batch n.nextTicket)
  have h₃ := keeps_broadcast ofReplica_rests.ignoresTalk (tellsDefinitions_true batch) net n₂ h₂
  rw [Node.announce, run_bind, ticket]
  dsimp only
  rw [run_bind, he]
  dsimp only
  rw [run_bind, run_quietly]
  exact holds_bind (h₃.runStage net) fun _ => keeps_get.bind fun _ => (keeps_await _ _).map _

-- What an update comes to, and the definition that it replaces, unless it is refused.
def planUpdate (t : Table) : NodeM (Table × List Mutation) := do
  lift (.definition ∘ .invalid) t.validate
  let old ← requireTable t.keyspace t.name
  lift (.definition ∘ .incompatible) (old.checkReplacement t)
  let d ← deletionAt (← readClock)
  let drops ← columnDrops t (old.droppedColumns t) d.markedAt
  return (old, old.alteration t d :: drops)

-- The entries that accompany an update.
def auditUpdate (net : Network) (old t : Table) (client : Option String) : NodeM Unit := do
  let target := t.qualifiedName
  audit net target .tableAltered client (changeText old.toText t.toText)
  (old.addedColumns t).forM fun column =>
    audit net (joinTarget [target, column]) .columnAdded client
      (t.columns[column]?.elim "" (·.validator))
  (old.droppedColumns t).forM fun column =>
    audit net (joinTarget [target, column]) .columnDropped client ""

theorem updateTable_eq (net : Network) (t : Table) (client : Option String) :
    updateTable net t client = (do
      let (old, batch) ← planUpdate t
      announce net batch
      auditUpdate net old t client) := by
  simp only [updateTable, planUpdate, auditUpdate, bind_assoc, pure_bind]

theorem keeps_auditUpdate {client : Option String}
    (ha : ∀ target kind value, Keeps I (audit net target kind client value)) (old t : Table) :
    Keeps I (auditUpdate net old t client) :=
  (ha _ _ _).bind fun _ => (Keeps.forM fun _ _ => ha _ _ _).bind fun _ => .forM fun _ _ => ha _ _ _

-- A loop whose steps leave the node alone.
theorem run_mapM_eq_ok {α β : Type} {f : α → NodeM β} {P : α → β → Prop} {as : List α}
    {bs : List β}
    (hf : ∀ a b n', n.run (f a) = (.ok b, n') → n' = n ∧ P a b)
    (h : n.run (as.mapM f) = (.ok bs, n')) :
    n' = n ∧ (∀ b ∈ bs, ∃ a ∈ as, P a b) ∧ ∀ a ∈ as, ∃ b ∈ bs, P a b := by
  induction as generalizing bs
  case nil => cases h; simp
  case cons a as hi =>
    rw [List.mapM_cons, run_bind_eq_ok_iff] at h
    have ⟨b, n₁, hb, hm⟩ := h
    obtain ⟨rfl, hp⟩ := hf a b n₁ hb
    have ⟨bs, n₂, hbs, hm⟩ := run_bind_eq_ok_iff.mp hm
    cases hm
    have ⟨hn, hs, hc⟩ := hi hbs
    refine ⟨hn, List.forall_mem_cons.mpr ⟨⟨a, List.mem_cons_self, hp⟩, fun b hb => ?_⟩,
      List.forall_mem_cons.mpr ⟨⟨b, List.mem_cons_self, hp⟩, fun a ha => ?_⟩⟩
    · have ⟨a, ha, hp⟩ := hs b hb
      exact ⟨a, List.mem_cons_of_mem _ ha, hp⟩
    · have ⟨b, hb, hp⟩ := hc a ha
      exact ⟨b, List.mem_cons_of_mem _ hb, hp⟩

theorem exists_run_mapM {α β : Type} {f : α → NodeM β} {as : List α}
    (h : ∀ a ∈ as, ∃ b, n.run (f a) = (.ok b, n)) : ∃ bs, n.run (as.mapM f) = (.ok bs, n) := by
  induction as
  case nil => exact ⟨[], rfl⟩
  case cons a as hi =>
    have ⟨⟨b, hb⟩, h⟩ := List.forall_mem_cons.mp h
    have ⟨bs, hbs⟩ := hi h
    refine ⟨b :: bs, ?_⟩
    rw [List.mapM_cons, run_bind_eq_ok_iff]
    exact ⟨b, n, hb, run_bind_eq_ok_iff.mpr ⟨bs, n, hbs, rfl⟩⟩

-- What is written when the column is dropped: the next step of its record.
def IsDrop (s : Storage) (t : Table) (timestamp : Int64) (column : String) (m : Mutation) : Prop :=
  ∃ value, Tag.Next (Tag.load s .columnDrop [t.keyspace, t.name, column]).value value ∧
    m = Tag.addition .columnDrop (joinTarget [t.keyspace, t.name, column]) value timestamp

theorem run_columnDrops_eq_ok {dropped : List String} {timestamp : Int64}
    (h : n.run (columnDrops t dropped timestamp) = (.ok drops, n')) :
    n' = n ∧ (∀ m ∈ drops, ∃ column ∈ dropped, IsDrop n.storage t timestamp column m) ∧
      ∀ column ∈ dropped, ∃ m ∈ drops, IsDrop n.storage t timestamp column m := by
  have ⟨_, _, hg, h⟩ := run_bind_eq_ok_iff.mp h
  cases hg
  refine run_mapM_eq_ok (fun column m n₁ hm => ?_) h
  have ⟨step, _, hs, hm⟩ := run_bind_eq_ok_iff.mp hm
  cases hm
  have ⟨hs, hn⟩ := run_lift_eq_ok_iff.mp hs
  have ⟨value, hv, hm⟩ := Tag.add_eq_ok hs
  exact ⟨hn, value, (Tag.nextValue_eq_ok_iff rfl).mp hv, hm⟩

-- The update replaces the definition that the node shows, and is stamped with the next reading of
-- its clock. Every column that is dropped takes the next step of its record.
structure Plans (n : Node) (t old : Table) (d : DeletionTime) (drops : List Mutation) : Prop where
  valid    : t.validate = .ok ()
  shown    : n.schema.table t.keyspace t.name = some old
  replaces : old.checkReplacement t = .ok ()
  markedAt : d.markedAt = n.clock.next
  steps    : ∀ m ∈ drops, ∃ column ∈ old.droppedColumns t,
    IsDrop n.storage t n.clock.next column m
  covers   : ∀ column ∈ old.droppedColumns t, ∃ m ∈ drops,
    IsDrop n.storage t n.clock.next column m

theorem run_requireTable_eq_ok {keyspace name : String}
    (h : n.run (requireTable keyspace name) = (.ok t, n')) :
    n.schema.table keyspace name = some t ∧ n' = n := by
  have ⟨_, _, hg, h⟩ := run_bind_eq_ok_iff.mp h
  cases hg
  split at h
  case h_1 ht => cases h; exact ⟨ht, rfl⟩
  case h_2    => cases h

theorem run_planUpdate_eq_ok (h : n.run (planUpdate t) = (.ok (old, batch), n')) :
    ∃ d drops, n.Plans t old d drops ∧ batch = old.alteration t d :: drops := by
  simp only [planUpdate, deletionAt, bind_assoc, run_bind_eq_ok_iff, run_lift_eq_ok_iff, run_get,
    run_pure, pure_bind, Prod.mk.injEq, Except.ok.injEq] at h
  obtain ⟨_, _, ⟨hv, rfl⟩, _, _, ht, _, _, ⟨hc, rfl⟩, _, _, hr, _, _, ⟨rfl, rfl⟩, drops, _, hd,
    ⟨rfl, rfl⟩, rfl⟩ := h
  obtain ⟨ht, rfl⟩ := run_requireTable_eq_ok ht
  cases hr
  have ⟨_, hdrops, hcovers⟩ := run_columnDrops_eq_ok hd
  exact ⟨_, drops, ⟨hv, ht, hc, rfl, hdrops, hcovers⟩, rfl⟩

-- Whether the node can write the next step of the record of the column.
def CanDrop (n : Node) (t : Table) (column : String) : Prop :=
  ∃ value, Tag.Next (Tag.load n.storage .columnDrop [t.keyspace, t.name, column]).value value

-- A column that has no record yet can be dropped.
theorem canDrop_of_partition_eq_empty (t : Table) (column : String)
    (h : n.storage.partition (Tag.partition .columnDrop) = ∅) : n.CanDrop t column := by
  refine ⟨Tag.dropped, ?_⟩
  rw [Tag.load_value (fun n c hc => by rw [h] at hc; simp at hc), Tag.recordCell?, h]
  exact .first

theorem exists_run_columnDrops {dropped : List String} {timestamp : Int64}
    (h : ∀ column ∈ dropped, n.CanDrop t column) :
    ∃ drops, n.run (columnDrops t dropped timestamp) = (.ok drops, n) := by
  simp only [columnDrops, run_bind, run_get]
  refine exists_run_mapM fun column hm => ?_
  obtain ⟨value, hv⟩ := h column hm
  obtain ⟨m, _, hm⟩ := Tag.exists_add_eq_ok rfl hv timestamp
  exact ⟨m, run_bind_eq_ok_iff.mpr ⟨_, n, run_lift_eq_ok_iff.mpr ⟨hm, rfl⟩, rfl⟩⟩

-- An update is refused for nothing else.
theorem exists_run_planUpdate (hv : t.validate = .ok ())
    (hs : n.schema.table t.keyspace t.name = some old) (hc : old.checkReplacement t = .ok ())
    (hd : ∀ column ∈ old.droppedColumns t, n.CanDrop t column) :
    ∃ batch, (n.run (planUpdate t)).1 = .ok (old, batch) := by
  let n₁ : Node := { n with clock := n.clock.read.2 }
  have ⟨drops, hd⟩ : ∃ drops, n₁.run (columnDrops t (old.droppedColumns t) n.clock.next) =
      (.ok drops, n₁) := exists_run_columnDrops hd
  refine ⟨old.alteration t ⟨n.clock.next, n₁.clock.seconds⟩ :: drops, ?_⟩
  have ht : n.run (requireTable t.keyspace t.name) = (.ok old, n) :=
    run_bind_eq_ok_iff.mpr ⟨n, n, rfl, by rw [hs]; rfl⟩
  have hr : n.run readClock = (.ok n.clock.next, n₁) := rfl
  have h : n.run (planUpdate t) =
      (.ok (old, old.alteration t ⟨n.clock.next, n₁.clock.seconds⟩ :: drops), n₁) :=
    run_bind_eq_ok_iff.mpr ⟨(), n, run_lift_eq_ok_iff.mpr ⟨hv, rfl⟩,
      run_bind_eq_ok_iff.mpr ⟨old, n, ht,
        run_bind_eq_ok_iff.mpr ⟨(), n, run_lift_eq_ok_iff.mpr ⟨hc, rfl⟩,
          run_bind_eq_ok_iff.mpr ⟨_, n₁, hr,
            run_bind_eq_ok_iff.mpr ⟨_, n₁, rfl,
              run_bind_eq_ok_iff.mpr ⟨drops, n₁, hd, rfl⟩⟩⟩⟩⟩⟩
  rw [h]

theorem keeps_requireKeyspace (name : String) : Keeps I (requireKeyspace name) := by
  refine keeps_get.bind fun _ => ?_
  split
  case h_1 => exact keeps_pure _
  case h_2 => exact keeps_throw _

theorem keeps_requireTable (keyspace name : String) : Keeps I (requireTable keyspace name) := by
  refine keeps_get.bind fun _ => ?_
  split
  case h_1 => exact keeps_pure _
  case h_2 => exact keeps_throw _

theorem keeps_columnDrops (t : Table) (dropped : List String) (timestamp : Int64) :
    Keeps I (columnDrops t dropped timestamp) :=
  keeps_get.bind fun _ => Keeps.mapM fun _ _ => (keeps_lift _).bind fun _ => keeps_pure _

-- A plan takes a reading of the clock and leaves all else alone.
theorem keeps_planUpdate (clock : Keeps I readClock) (t : Table) : Keeps I (planUpdate t) :=
  (keeps_lift _).bind fun _ => (keeps_requireTable _ _).bind fun _ => (keeps_lift _).bind fun _ =>
    clock.bind fun _ => keeps_get.bind fun _ =>
      (keeps_columnDrops _ _ _).bind fun _ => keeps_pure _

section

variable (h : n.Rests r [] []) (net : Network) (client : Option String)

include h

-- An idle node merges the batch of an update that is planned.
theorem Rests.updateTable (planned : n.run (planUpdate t) = (.ok (old, batch), n')) :
    (n.run (updateTable net t client)).2.Rests (r.attempt batch).1 [] [] := by
  have hp := keeps_planUpdate (keeps_readClock ofReplica_rests.ignoresTalk.watches) t n h
  rw [planned] at hp
  rw [updateTable_eq, run_bind, planned]
  refine holds_bind (hp.announce net batch) fun _ => keeps_auditUpdate (fun _ _ _ => ?_) _ _
  exact keeps_audit ofReplica_rests.ignoresTalk tellsDefinitions_true
    (fun n => ofReplica_rests n _ rfl rfl) _ _ _

-- An update that is refused leaves everything as it is.
theorem Rests.updateTable_of_refused {e : Failure}
    (refused : n.run (planUpdate t) = (.error e, n')) :
    (n.run (Node.updateTable net t client)).2.Rests r [] [] := by
  have hp := keeps_planUpdate (keeps_readClock ofReplica_rests.ignoresTalk.watches) t n h
  rw [refused] at hp
  rw [updateTable_eq, run_bind, refused]
  exact hp

end

-- The store after an update that is planned and merged.
theorem replica_updateTable (hi : n.migration.IsIdle)
    (planned : n.run (planUpdate t) = (.ok (old, batch), n')) (hm : n.replica.merge batch = .ok r)
    (net : Network) (client : Option String) : (n.run (updateTable net t client)).2.replica = r :=
  have h : n.Rests n.replica [] [] := ⟨hi, rfl⟩
  (h.updateTable net client planned).replica.trans (Replica.attempt_of_merge_eq_ok hm)

end Node
end ClusterMetadata
