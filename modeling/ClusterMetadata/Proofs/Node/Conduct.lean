import ClusterMetadata.Proofs.Node.Refusal

/-!
What a node keeps in all that it does. A property that is kept by the parts of which the activities
are made is kept by each activity (`Conduct.holds_run`).
-/

namespace ClusterMetadata.Node

variable {permitted : Outgoing → Prop} {I : Node → Prop} {n : Node} {net : Network}
  {batch : List Mutation}

-- A change of definitions is merged on the migration stage, after what waits there.
theorem Errands.keeps_announce (hI : Errands permitted I) (ht : Tells permitted batch)
    (works : Keeps I (runNext net .migration)) : Keeps I (announce net batch) := by
  have hj (ticket) : ¬(Job.merge batch ticket).IsWrite := fun h => h
  exact Keeps.bind (fun n => hI.books n _ _ _ _ _ _) fun ticket =>
    (hI.keeps_execute (by decide) (hj ticket)).bind fun _ =>
      (keeps_broadcast hI.talks ht net).quietly.bind fun _ =>
        works.runStage.bind fun _ => keeps_get.bind fun _ => (keeps_await _ _).map _

theorem run_clearSchema (n : Node) : n.run clearSchema = match n.replica.clear with
    | .ok r    => (.ok (), n.withReplica r)
    | .error e => (.error (.storage e), n) := by
  rw [clearSchema, run_bind, run_get]
  simp only [Replica.clear, schema_replica, storage_replica]
  cases n.schema.clear n.storage <;> rfl

-- A schema that has been cleared is advertised. Then a member is pulled from, if there is one.
theorem Errands.keeps_startReset (hI : Errands permitted I)
    (clears : ∀ n r, n.replica.clear = .ok r → I n →
      I ((n.withReplica r).run (advertise r.schema.version)).2) (net : Network) :
    Keeps I (startReset net) := by
  intro n h
  rw [startReset, run_bind, run_clearSchema]
  cases hc : n.replica.clear
  case error e => exact h
  case ok r =>
    have tells : (n.withReplica r).run (get >>= fun n => advertise n.schema.version) =
        (.ok (), _) := rfl
    dsimp only
    rw [← bind_assoc, run_bind, tells]
    refine keeps_get_bind (I := I) (fun n₁ h => ?_) _ (clears n r hc h)
    split
    case h_1 => exact ((hI.keeps_submitPull _).bind fun _ => keeps_pure _) n₁ h
    case h_2 => exact h

-- The same for a node that also starts, resets, changes what is stored and handles writes. On the
-- stage of the writes any job may wait.
structure Conduct (permitted : Outgoing → Prop) (I : Node → Prop) : Prop where
  routine : Routine permitted I
  sends   : SendsAll permitted
  starts  : ∀ parts, Keeps I (start parts)
  resets  : ∀ net, Keeps I (startReset net)
  queues (n : Node) {name : StageName} {stage : Stage Job}
    (hq : name ≠ .mutation → ∀ job ∈ stage.queue, job ∈ (n.stage name).queue ∨ ¬job.IsWrite) :
    I n → I (n.setStage stage name)
  stores (n : Node) (registry : Registry) (storage : Storage) : I n → I { n with registry, storage }
  writes (n : Node) (written : List (List Mutation)) : I n → I { n with written }

namespace Conduct

variable (hI : Conduct permitted I)

include hI

theorem keeps_queryRegistry (target : String) (kind : AuditKind) :
    Keeps I (queryRegistry target kind) :=
  keeps_modifyGet fun n => hI.routine.books n _ _ _ _ _ _

theorem keeps_handle (net : Network) (message : Inbound) (id : String) :
    Keeps I (handle net message id) := by
  by_cases hv : message.verb = .mutation
  case neg => exact hI.routine.keeps_handle (fun _ => hI.routine.merges) net hv id
  case pos =>
    rw [handle, hv]
    exact keeps_handleMutation hI.routine.talks hI.sends hI.keeps_queryRegistry
      (fun n storage => hI.stores n n.registry storage) net message id

theorem keeps_runNext (net : Network) (name : StageName) : Keeps I (runNext net name) := by
  have does (job : Job) : Keeps I (runJob net job) := by
    cases job
    case inbound message id arrived =>
      have handles := hI.keeps_handle net message id
      exact (handles.runInbound (fun n => hI.routine.books n _ _ _ _ _ _) arrived).map _
    case merge batch ticket =>
      exact hI.routine.keeps_runJob (fun _ => hI.routine.merges) net fun h => h
    case pull peer ticket =>
      exact hI.routine.keeps_runJob (fun _ => hI.routine.merges) net fun h => h
  refine fun n h => holds_runNext h (fun job stage ht => ?_) (fun job _ _ => does job) fun n => ?_
  case refine_1 =>
    refine hI.queues n (fun _ job' hm => .inl ?_) h
    exact Stage.queue_eq_of_take ht ▸ List.mem_cons_of_mem _ hm
  case refine_2 =>
    refine hI.queues n fun _ job hm => .inl ?_
    rwa [Stage.queue_finish] at hm

-- A write is put on the stage of the writes.
theorem keeps_receive (message : Inbound) (id : String) : Keeps I (receive message id) := by
  by_cases hv : message.verb = .mutation
  case neg => exact hI.routine.keeps_receive hv id
  case pos =>
    refine keeps_get_bind fun n h => ?_
    rw [hv, stageOf, run_execute]
    split
    case h_1 stage _ => exact hI.queues n (absurd rfl) h
    case h_2         => exact h

theorem keeps_shutdown : Keeps I shutdown := by
  have closes (name : StageName) (n : Node) : I n → I (n.setStage (n.stage name).shutdown name) :=
    hI.queues n fun _ _ hm => .inl hm
  exact fun n h => closes .response _ (closes .mutation _ (closes .migration n h))

theorem keeps_announceEntry (net : Network) (target : String) (kind : AuditKind)
    (client value : String) : Keeps I (announceEntry net target kind client value) :=
  Node.keeps_announceEntry hI.routine.talks hI.sends.tellsDefinitions
    (hI.keeps_queryRegistry target kind) net client value

theorem keeps_request (net : Network) (request : Request) (client : Option String) :
    Keeps I (request.run net client) := by
  have announces (batch : List Mutation) : Keeps I (announce net batch) :=
    hI.routine.keeps_announce (hI.sends.tellsDefinitions batch) (hI.keeps_runNext net _)
  exact request.keeps_run hI.routine.talks.watches announces fun target kind value =>
    (hI.keeps_announceEntry net target kind _ value).quietly

-- When time passes, what has gone out is gone. That is left to who asks.
theorem holds_run (h : I n) (waits : ∀ clock, I { n with clock, outbox := [], notes := [] })
    (net : Network) (activity : Activity) : I (n.run (activity.run net)).2 := by
  have tells := hI.sends.tellsDefinitions
  have registers (n : Node) (m : Mutation) (registry : Registry) (storage : Storage)
      (_ : Registry.IsChange m) (_ : n.storage.apply m = .ok storage) (h : I n) :
      I { n with registry, storage } :=
    hI.stores n registry storage h
  cases activity
  case waits clock         => exact waits clock
  case starts parts        => exact hI.starts parts n h
  case hears event         => exact hI.routine.keeps_hear net event n h
  case hearsText peer text => exact hI.routine.keeps_hearAlive net peer _ n h
  case resets              => exact (hI.resets net).map _ n h
  case receives message id => exact hI.keeps_receive message id n h
  case works name          => exact hI.keeps_runNext net name n h
  case merges batch        => exact (hI.routine.merges batch).map _ n h
  case writes batch answer =>
    exact keeps_executeBatch hI.routine.talks tells hI.writes net batch answer n h
  case fires due rest =>
    refine Keeps.bind (fun n => hI.routine.books n _ _ _ _ _ _) (fun _ => ?_) n h
    exact .forM fun t _ => hI.routine.keeps_fire net t.task
  case changes request client => exact hI.keeps_request net request client n h
  case registers target kind tag =>
    exact keeps_updateRegistry hI.routine.talks tells registers net target kind tag n h
  case unregisters target =>
    exact keeps_dropRegistry hI.routine.talks tells registers net target n h
  case announces target kind client value =>
    exact (hI.keeps_announceEntry net target kind client value).map _ n h
  case shutsDown => exact hI.keeps_shutdown n h

end Conduct
end ClusterMetadata.Node
