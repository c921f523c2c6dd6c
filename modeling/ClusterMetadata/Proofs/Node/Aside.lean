import ClusterMetadata.Node.Start
import ClusterMetadata.Proofs.Node.Handling
import ClusterMetadata.Proofs.Node.Update
import ClusterMetadata.Proofs.Storage.Writes

/-!
What a node does besides writing what others send it. It merges definitions, pulls and is pulled
from; what the parts of that keep is kept by all of it (`Errands.keeps_runJob`). The node also
announces entries, but it neither passes on a write nor acknowledges one, and takes nothing from its
storage (`aside_runNext`, `aside_receive`, `aside_hear`, `aside_fire`). Only by merging it adds to
its storage. Writes stay on their own stage meanwhile.
-/

namespace ClusterMetadata

def Message.isWrite (m : Message) : Bool := m.verb = .mutation

-- A write is acknowledged by an empty response.
def Message.isAck (m : Message) : Bool := m.verb = .requestResponse && m.payload.isEmpty

def Job.IsWrite : Job → Prop
  | inbound message _ _ => message.verb = .mutation
  | _                   => False

-- A job that brings definitions.
def Job.Merges : Job → Prop
  | inbound message _ _ => message.verb = .definitionsUpdate
  | merge _ _           => True
  | pull _ _            => False

instance : DecidablePred Job.Merges
  | .inbound message _ _ => inferInstanceAs (Decidable (message.verb = .definitionsUpdate))
  | .merge _ _           => isTrue trivial
  | .pull _ _            => isFalse id

def Outgoing.IsAside : Outgoing → Prop
  | .send _ _ m  => m.isWrite = false ∧ m.isAck = false
  | .advertise _ => True

-- What is said in the exchange of schemas: that there is a version, a request, and an answer.
inductive Outgoing.IsExchange : Outgoing → Prop
  | advertise (version : Uuid) : IsExchange (.advertise version)
  | request (a : Address) (id : String) : IsExchange (.send a id (.plain .migrationRequest []))
  | answer (a : Address) (id : String) {payload : Bytes} (h : payload ≠ []) :
      IsExchange (.send a id (.plain .requestResponse payload))

theorem Outgoing.IsExchange.isAside {o : Outgoing} (h : o.IsExchange) : o.IsAside := by
  cases h
  case advertise version => exact trivial
  case request a id      => exact ⟨rfl, rfl⟩
  case answer payload h  => exact ⟨rfl, by simpa [Message.isAck, Message.plain] using h⟩

theorem tellsDefinitions_isAside : Node.TellsDefinitions Outgoing.IsAside :=
  fun _ _ _ _ _ => ⟨rfl, rfl⟩

theorem Storage.applyAll_append {s s' : Storage} {batch batch' : List Mutation}
    (h : s.applyAll batch = .ok s') : s.applyAll (batch ++ batch') = s'.applyAll batch' := by
  rw [applyAll, List.foldlM_append]
  change (s.applyAll batch >>= fun s => s.applyAll batch') = _
  rw [h]
  rfl

namespace Node

-- Writes wait on no other stage than their own.
def Sorted (n : Node) : Prop := ∀ name ≠ .mutation, ∀ job ∈ (n.stage name).queue, ¬job.IsWrite

theorem Sorted.congr {n n' : Node} (h : n.Sorted) (hs : n'.stage = n.stage) : n'.Sorted := by
  simpa only [Sorted, hs] using h

theorem stage_setStage (n : Node) (stage : Stage Job) (name other : StageName) :
    (n.setStage stage name).stage other = if other = name then stage else n.stage other := by
  cases name <;> cases other <;> rfl

-- To another stage than that of the writes comes no write.
theorem Sorted.setStage {n : Node} {name : StageName} {stage : Stage Job} (h : n.Sorted)
    (hq : name ≠ .mutation → ∀ job ∈ stage.queue, job ∈ (n.stage name).queue ∨ ¬job.IsWrite) :
    (n.setStage stage name).Sorted := by
  intro other ho job hm
  rw [stage_setStage] at hm
  split at hm
  case isTrue he => exact (hq (he ▸ ho) job hm).elim (h name (he ▸ ho) job) id
  case isFalse   => exact h other ho job hm

theorem Sorted.setMutation {n : Node} (h : n.Sorted) (stage : Stage Job) :
    { n with mutation := stage }.Sorted :=
  have hm : StageName.mutation ≠ .mutation → _ := absurd rfl
  h.setStage hm

-- The property remains when the node takes part in the exchange of schemas, and when jobs that are
-- no writes come and go.
structure Upkeep (permitted : Outgoing → Prop) (I : Node → Prop) : Prop where
  talks   : Admits permitted I
  permits : ∀ o, o.IsExchange → permitted o
  merges (n : Node) (batch : List Mutation) : I n → I (n.withReplica (n.replica.attempt batch).1)
  stages (n : Node) {name : StageName} {stage : Stage Job} (hn : name ≠ .mutation)
    (hq : ∀ job ∈ stage.queue, job ∈ (n.stage name).queue ∨ ¬job.IsWrite) :
    I n → I (n.setStage stage name)
  books (n : Node) (messenger : Messenger PullRequest) (timers : Timers Alarm) (registry : Registry)
    (metrics : Metrics) (nextTicket : Nat)
    (outcomes : SortedMap Nat (Except Failure MergeReport)) :
    I n → I { n with messenger, timers, registry, metrics, nextTicket, outcomes }

-- The same, and nothing is merged.
structure Errands (permitted : Outgoing → Prop) (I : Node → Prop) : Prop where
  talks   : Admits permitted I
  pulls   : ∀ a id, permitted (.send a id (.plain .migrationRequest []))
  answers : ∀ a id {payload : Bytes}, payload ≠ [] →
    permitted (.send a id (.plain .requestResponse payload))
  stages (n : Node) {name : StageName} {stage : Stage Job} (hn : name ≠ .mutation)
    (hq : ∀ job ∈ stage.queue, job ∈ (n.stage name).queue ∨ ¬job.IsWrite) :
    I n → I (n.setStage stage name)
  books (n : Node) (messenger : Messenger PullRequest) (timers : Timers Alarm) (registry : Registry)
    (metrics : Metrics) (nextTicket : Nat)
    (outcomes : SortedMap Nat (Except Failure MergeReport)) :
    I n → I { n with messenger, timers, registry, metrics, nextTicket, outcomes }

-- What a merge says is left open.
structure Routine (permitted : Outgoing → Prop) (I : Node → Prop) : Prop
    extends Errands permitted I where
  merges : ∀ batch, Keeps I (merge batch)

theorem Upkeep.keeps_merge {permitted : Outgoing → Prop} {I : Node → Prop}
    (hI : Upkeep permitted I) (batch : List Mutation) : Keeps I (merge batch) :=
  Node.keeps_merge hI.talks (fun version => hI.permits _ (.advertise version))
    (fun n _ => hI.books n _ _ _ _ _ _) fun n => hI.merges n batch

theorem Upkeep.routine {permitted : Outgoing → Prop} {I : Node → Prop}
    (hI : Upkeep permitted I) : Routine permitted I where
  talks           := hI.talks
  pulls a id      := hI.permits _ (.request a id)
  answers a id _ h := hI.permits _ (.answer a id h)
  merges          := hI.keeps_merge
  stages          := hI.stages
  books           := hI.books

namespace Errands

variable {permitted : Outgoing → Prop} {I : Node → Prop} {n : Node} {net : Network}
  {message : Inbound} {name : StageName} {job : Job} (hI : Errands permitted I)

include hI

theorem keeps_execute (hn : name ≠ .mutation) (hj : ¬job.IsWrite) :
    Keeps I (execute name job) := by
  intro n h
  rw [run_execute]
  split
  case h_1 stage hx =>
    refine hI.stages n hn (fun job' hm => ?_) h
    rw [Stage.queue_eq_of_execute hx] at hm
    cases List.mem_append.mp hm
    case inl hm => exact .inl hm
    case inr hm => exact .inr (List.mem_singleton.mp hm ▸ hj)
  case h_2 => exact h

theorem keeps_settle (ticket : Nat) (result : Except Failure MergeReport) :
    Keeps I (settle ticket result) :=
  fun n => hI.books n _ _ _ _ _ _

theorem keeps_requestPull (peer : Address) (ticket : Nat) : Keeps I (requestPull peer ticket) :=
  Node.keeps_requestPull hI.talks (hI.pulls peer) (fun n _ => hI.books n _ _ _ _ _ _)
    (fun n _ => hI.books n _ _ _ _ _ _) ticket

-- A batch has a count at least, so that no answer is empty.
theorem keeps_handleMigrationRequest (message : Inbound) (id : String) :
    Keeps I (handleMigrationRequest message id) := by
  refine keeps_get_bind fun n h => ?_
  dsimp only
  cases hw : Wire.writeBatch Protocol.current (Schema.serialize n.storage)
  case error e => exact h
  case ok payload =>
    have ⟨ms, _, hp⟩ := bind_eq_ok_iff.mp hw
    have hl : payload.length = 4 + ms.length := by
      rw [← Except.ok.inj hp, List.length_append, Wire.writeCount, BigEndian.length_encode]
    have full : payload ≠ [] := List.ne_nil_of_length_pos (by omega)
    exact keeps_send hI.talks (hI.answers message.sender id full) n h

theorem keeps_handleResponse (message : Inbound) (id : String) :
    Keeps I (handleResponse message id) := by
  refine fun n h => holds_handleResponse (hI.books n _ _ _ _ _ _ h) fun request _ => ?_
  have hj (batch) : ¬(Job.merge batch request.ticket).IsWrite := fun h => h
  exact keeps_mergeResponse (hI.keeps_settle _) fun batch => hI.keeps_execute (by decide) (hj batch)

theorem keeps_handle (hm : message.verb = .definitionsUpdate → ∀ batch, Keeps I (merge batch))
    (net : Network) (hv : message.verb ≠ .mutation) (id : String) :
    Keeps I (handle net message id) := by
  rw [handle]
  split
  case h_1 h => exact absurd h hv
  case h_2   => exact hI.keeps_handleResponse message id
  case h_3 h => exact (keeps_lift _).bind fun batch => (hm h batch).map _
  case h_4   => exact hI.keeps_handleMigrationRequest message id

theorem keeps_runJob (hm : job.Merges → ∀ batch, Keeps I (merge batch)) (net : Network)
    (hj : ¬job.IsWrite) : Keeps I (runJob net job) := by
  cases job
  case inbound message id arrived =>
    have handles := hI.keeps_handle hm net hj id
    exact (handles.runInbound (fun n => hI.books n _ _ _ _ _ _) arrived).map _
  case merge batch ticket =>
    exact (hm trivial batch).outcome.bind fun _ => hI.keeps_settle ticket _
  case pull peer ticket => exact hI.keeps_requestPull peer ticket

theorem holds_runNext
    (hm : ∀ job ∈ (n.stage name).queue, job.Merges → ∀ batch, Keeps I (merge batch))
    (hn : name ≠ .mutation) (hs : n.Sorted) (h : I n) : I (n.run (runNext net name)).2 := by
  refine Node.holds_runNext h (fun job stage ht => ?_) (fun job stage ht => ?_) ?_
  case refine_1 =>
    refine hI.stages n hn (fun job' hm => .inl ?_) h
    exact Stage.queue_eq_of_take ht ▸ List.mem_cons_of_mem _ hm
  case refine_2 =>
    have first : job ∈ (n.stage name).queue := Stage.queue_eq_of_take ht ▸ List.mem_cons_self
    exact hI.keeps_runJob (hm job first) net (hs name hn job first)
  case refine_3 =>
    refine fun n => hI.stages n hn fun job hm => .inl ?_
    rwa [Stage.queue_finish] at hm

theorem keeps_submitPull (peer : Address) : Keeps I (submitPull peer) :=
  Keeps.bind (fun n => hI.books n _ _ _ _ _ _) fun ticket =>
    have hj : ¬(Job.pull peer ticket).IsWrite := id
    (hI.keeps_execute (by decide) hj).bind fun _ => keeps_pure _

theorem keeps_considerPull (net : Network) (theirs : Uuid) (peer : Address) (now : Int) :
    Keeps I (considerPull net theirs peer now) := by
  refine keeps_get.bind fun n₁ => ?_
  split
  case isTrue => exact keeps_pure _
  case isFalse =>
    dsimp only
    split
    case isTrue => exact keeps_pure _
    case isFalse =>
      split
      case isTrue => exact (hI.keeps_submitPull peer).quietly.bind fun _ => keeps_pure _
      case isFalse =>
        exact Keeps.bind (fun n => hI.books n _ _ _ _ _ _) fun _ => keeps_pure _

theorem keeps_hearAlive (net : Network) (peer : Address) (theirs : Option Uuid) :
    Keeps I (hearAlive net peer theirs) := by
  refine keeps_get.bind fun n₁ => ?_
  split
  case isTrue =>
    cases theirs
    case none => exact keeps_pure _
    case some theirs =>
      exact (keeps_get.bind fun _ => hI.keeps_considerPull net theirs peer _).map _
  case isFalse => exact keeps_pure _

theorem keeps_hear (net : Network) (event : MemberEvent) : Keeps I (hear net event) := by
  cases event
  case joined peer =>
    rw [hear, hearJoin]
    split
    case h_1 => exact hI.keeps_hearAlive net peer _
    case h_2 => exact keeps_pure _
  case advertised peer version => exact hI.keeps_hearAlive net peer _
  case revived peer version    => exact hI.keeps_hearAlive net peer _
  all_goals exact keeps_pure _

theorem keeps_firePull (net : Network) (peer : Address) : Keeps I (firePull net peer) := by
  rw [firePull]
  split
  case isTrue =>
    split
    case h_1 theirs _ =>
      refine keeps_get.bind fun n₁ => ?_
      split
      case isTrue  => exact (hI.keeps_submitPull peer).quietly
      case isFalse => exact keeps_pure _
    case h_2 => exact keeps_pure _
  case isFalse => exact keeps_pure _

theorem keeps_expire (id : String) : Keeps I (expire id) :=
  fun n h => holds_expire (hI.books n _ _ _ _ _ _ h) fun _ _ => hI.keeps_settle _

theorem keeps_fire (net : Network) (alarm : Alarm) : Keeps I (fire net alarm) := by
  cases alarm
  case delayedPull peer => exact hI.keeps_firePull net peer
  case expiry id        => exact (hI.keeps_expire id).map _

theorem keeps_receive (hv : message.verb ≠ .mutation) (id : String) :
    Keeps I (receive message id) := by
  have hn : stageOf message.verb ≠ .mutation := by
    cases h : message.verb
    case mutation => exact absurd h hv
    all_goals decide
  refine keeps_get.bind fun n => ?_
  have hj : ¬(Job.inbound message id n.clock.elapsed).IsWrite := hv
  exact hI.keeps_execute hn hj

end Errands

-- The node has come from the other one without handling a write. Its storage has only been added
-- to, and not even that when all was calm.
structure Aside (calm : Prop) (n n' : Node) : Prop where
  mutation : n'.mutation = n.mutation
  sorted   : n.Sorted → n'.Sorted
  storage  : ∃ batch, n.storage.applyAll batch = .ok n'.storage ∧ (calm → batch = [])
  outbox   : ∃ os, n'.outbox = n.outbox ++ os ∧ ∀ o ∈ os, o.IsAside

namespace Aside

variable {calm : Prop} {n n₁ n₂ n' : Node} {name : StageName}

theorem of_eq (hq : n'.stage = n.stage) (hs : n'.storage = n.storage) (ho : n'.outbox = n.outbox) :
    n.Aside calm n' where
  mutation := congrFun hq .mutation
  sorted   := (·.congr hq)
  storage  := ⟨[], hs ▸ rfl, fun _ => rfl⟩
  outbox   := ⟨[], by rw [ho, List.append_nil], nofun⟩

-- What comes to another stage is no write.
theorem setStage (hn : name ≠ .mutation) (n : Node) {stage : Stage Job}
    (hq : ∀ job ∈ stage.queue, job ∈ (n.stage name).queue ∨ ¬job.IsWrite) :
    n.Aside calm (n.setStage stage name) := by
  have eq : (n.setStage stage name).stage .mutation = n.mutation :=
    (stage_setStage n stage name .mutation).trans (if_neg hn.symm)
  refine ⟨eq, fun h => h.setStage fun _ => hq, ⟨[], ?_, fun _ => rfl⟩, [], ?_, nofun⟩
  case refine_1 => cases name <;> rfl
  case refine_2 => cases name <;> exact (List.append_nil _).symm

theorem refl (n : Node) : n.Aside calm n := of_eq rfl rfl rfl

theorem trans (h : n.Aside calm n₁) (h' : n₁.Aside calm n₂) : n.Aside calm n₂ := by
  have ⟨batch, hs, hb⟩ := h.storage
  have ⟨batch', hs', hb'⟩ := h'.storage
  have ⟨os, ho, ha⟩ := h.outbox
  have ⟨os', ho', ha'⟩ := h'.outbox
  refine ⟨h'.mutation.trans h.mutation, fun hn => h'.sorted (h.sorted hn),
    ⟨batch ++ batch', ?_, fun hc => ?_⟩, os ++ os', ?_, ?_⟩
  · rw [Storage.applyAll_append hs, hs']
  · rw [hb hc, hb' hc]; rfl
  · rw [ho', ho, List.append_assoc]
  · intro o hm
    exact (List.mem_append.mp hm).elim (ha o) (ha' o)

theorem failing (h : n.Aside calm n') : n'.storage.failing = n.storage.failing := by
  have ⟨batch, hs, _⟩ := h.storage
  exact (Storage.writes_applyAll hs).failing

theorem admits (n : Node) : Admits Outgoing.IsAside (n.Aside calm) where
  watches n₁ _ _ h := h.trans (of_eq rfl rfl rfl)
  draws n₁ h       := h.trans (of_eq rfl rfl rfl)
  emits n₁ o ho h  := h.trans ⟨rfl, id, ⟨[], rfl, fun _ => rfl⟩, [o], rfl, by simpa using ho⟩

theorem keeps_queryRegistry (n : Node) (target : String) (kind : AuditKind) :
    Keeps (n.Aside calm) (queryRegistry target kind) :=
  keeps_modifyGet fun _ h => h.trans (of_eq rfl rfl rfl)

theorem keeps_announceRows (n : Node) (net : Network) (m : Mutation) :
    Keeps (n.Aside calm) (announceRows net m) :=
  Node.keeps_announceRows (admits n) tellsDefinitions_isAside (keeps_queryRegistry n) net m

theorem errands (n : Node) : Errands Outgoing.IsAside (n.Aside calm) where
  talks                  := admits n
  pulls _ _              := ⟨rfl, rfl⟩
  answers a id _ h       := (Outgoing.IsExchange.answer a id h).isAside
  stages n₁ _ _ hn hq h  := h.trans (setStage hn n₁ hq)
  books _ _ _ _ _ _ _ h  := h.trans (of_eq rfl rfl rfl)

-- A merge stores its batch even when the definitions are refused.
theorem keeps_merge (hc : ¬calm) (n : Node) (batch : List Mutation) :
    Keeps (n.Aside calm) (merge batch) := by
  refine Node.keeps_merge (admits n) (fun _ => trivial)
    (fun _ _ h => h.trans (of_eq rfl rfl rfl)) fun n₁ h => ?_
  refine h.trans ⟨rfl, id, ?_, [], (List.append_nil _).symm, nofun⟩
  cases hs : n₁.storage.applyAll batch
  case error e =>
    refine ⟨[], ?_, fun _ => rfl⟩
    simp [withReplica, Replica.attempt, Schema.merge, hs]
    rfl
  case ok s =>
    refine ⟨batch, ?_, fun h => absurd h hc⟩
    simp [withReplica, Replica.attempt, Schema.merge, hs]

end Aside

section

variable {calm : Prop} {n : Node} {net : Network} {message : Inbound} {id : String}
  {name : StageName}

theorem aside_runNext (hc : calm → ∀ job ∈ (n.stage name).queue, ¬job.Merges)
    (hn : name ≠ .mutation) (hs : n.Sorted) : n.Aside calm (n.run (runNext net name)).2 := by
  refine (Aside.errands n).holds_runNext (fun job hm hj => ?_) hn hs (.refl n)
  exact Aside.keeps_merge (fun h => hc h job hm hj) n

theorem aside_receive (hv : message.verb ≠ .mutation) :
    n.Aside calm (n.run (receive message id)).2 :=
  (Aside.errands n).keeps_receive hv id n (.refl n)

theorem aside_hear (event : MemberEvent) : n.Aside calm (n.run (hear net event)).2 :=
  (Aside.errands n).keeps_hear net event n (.refl n)

theorem aside_fire (alarm : Alarm) : n.Aside calm (n.run (fire net alarm)).2 :=
  (Aside.errands n).keeps_fire net alarm n (.refl n)

end

end Node
end ClusterMetadata
