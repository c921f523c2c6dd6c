import ClusterMetadata.Node.Start
import ClusterMetadata.Proofs.Audit.Entries
import ClusterMetadata.Proofs.Node.Frame

/-!
What is kept while a node works. What each of the parts keeps that the four kinds of messages are
handled by is kept whatever message comes (`Handling.handle`), and what each job keeps that a worker
takes is kept while a stage is run (`Keeps.runStage`). A node that starts, or that changes its
registry, comes after these to what it loads and stores (`keeps_start`, `keeps_updateRegistry`).
-/

namespace ClusterMetadata.Node

variable {n : Node} {I : Node → Prop} {net : Network} {name : StageName} {message : Inbound}
  {id : String} {request : PullRequest}

-- A worker without a job does nothing.
theorem holds_runNext (idle : I n)
    (takes : ∀ job stage, (n.stage name).take = some (job, stage) → I (n.setStage stage name))
    (does : ∀ job stage, (n.stage name).take = some (job, stage) → Keeps I (runJob net job))
    (finishes : Keeps I (finishJob name)) : I (n.run (runNext net name)).2 := by
  rw [runNext, run_bind, run_takeJob]
  cases ht : (n.stage name).take
  case none => exact idle
  case some taken =>
    obtain ⟨job, stage⟩ := taken
    exact (does job stage ht).bind (fun _ => finishes) _ (takes job stage ht)

theorem Keeps.runStage (h : Keeps I (runNext net name)) : Keeps I (runStage net name) := by
  refine keeps_get.bind fun n => ?_
  generalize (n.stage name).queue.length = k
  induction k
  case zero      => exact keeps_pure _
  case succ k hi => exact h.bind fun _ => hi

theorem keeps_mergeResponse (settles : ∀ result, Keeps I (settle request.ticket result))
    (queues : ∀ batch, Keeps I (execute .migration (.merge batch request.ticket))) :
    Keeps I (mergeResponse request message) := by
  refine (keeps_lift _).outcome.bind fun result => ?_
  cases result
  case error e => exact settles _
  case ok batch =>
    refine (queues batch).outcome.bind fun result => ?_
    cases result
    case error e => exact settles _
    case ok _    => exact keeps_pure _

-- A response is for the request that waits under its id, if there is one.
theorem holds_handleResponse (claims : I { n with messenger := (n.messenger.claim id).2 })
    (answers : ∀ request, n.messenger.waiting[id]? = some request →
      Keeps I (mergeResponse request message)) : I (n.run (handleResponse message id)).2 := by
  let n₁ : Node := { n with messenger := (n.messenger.claim id).2 }
  change I (n₁.run (n.messenger.waiting[id]?.forM (mergeResponse · message))).2
  cases hw : n.messenger.waiting[id]?
  case none         => exact claims
  case some request => exact answers request hw n₁ claims

theorem holds_expire (claims : I { n with messenger := (n.messenger.claim id).2 })
    (answers : ∀ request, n.messenger.waiting[id]? = some request →
      ∀ result, Keeps I (settle request.ticket result)) : I (n.run (expire id)).2 := by
  let n₁ : Node := { n with messenger := (n.messenger.claim id).2 }
  change I (n₁.run (do
    n.messenger.waiting[id]?.forM fun r => settle r.ticket (.error (.abandonedPull r.peer))
    return n.messenger.waiting[id]?.isSome)).2
  cases hw : n.messenger.waiting[id]?
  case none         => exact claims
  case some request => exact answers request hw _ n₁ claims

theorem keeps_requestPull {permitted : Outgoing → Prop} {peer : Address} (hI : Admits permitted I)
    (asks : ∀ id, permitted (.send peer id (.plain .migrationRequest [])))
    (awaits : ∀ n messenger, I n → I { n with messenger })
    (schedules : ∀ n timers, I n → I { n with timers }) (ticket : Nat) :
    Keeps I (requestPull peer ticket) :=
  (keeps_freshId hI).bind fun id => Keeps.bind (fun n => awaits n _) fun _ =>
    (keeps_send hI (asks id)).bind fun _ => keeps_get.bind fun _ n => schedules n _

theorem keeps_start (hI : IgnoresTalk I) (loads : Keeps I loadSchema)
    (learns : ∀ n registry, I n → I { n with registry }) (parts : List NodePart) :
    Keeps I (start parts) := by
  have hydrates (targets : List String) : Keeps I (hydrate targets) :=
    keeps_modifyGet fun n => learns n _
  exact keeps_get.bind fun _ => (keeps_lift _).bind fun _ => (keeps_lift _).bind fun _ =>
    loads.bind fun _ => ((hydrates _).map _).bind fun _ => keeps_get.bind fun _ =>
      keeps_advertise hI trivial

section

variable {permitted : Outgoing → Prop} (hI : Admits permitted I)
  (tells : TellsDefinitions permitted)

include hI tells

-- What is not metadata is written by others.
theorem keeps_executeBatch (writes : ∀ n written, I n → I { n with written }) (net : Network)
    (batch : List Mutation) (answer : Except Failure Unit) :
    Keeps I (executeBatch net batch answer) := by
  have pushes : Keeps I ((route batch).1.forM fun m => discard (push net m)) :=
    .forM fun m _ => (keeps_push hI tells net m).map _
  rw [executeBatch]
  dsimp only
  split
  case isFalse => exact pushes
  case isTrue  =>
    exact Keeps.bind (fun n => writes n _) fun _ => (keeps_lift _).bind fun _ => pushes

variable (registers : ∀ n m registry storage, Registry.IsChange m →
  n.storage.apply m = .ok storage → I n → I { n with registry, storage })

include registers

theorem keeps_updateRegistry (net : Network) (target : String) (kind : AuditKind) (tag : String) :
    Keeps I (updateRegistry net target kind tag) := by
  have adds : Keeps I (addToRegistry target kind tag) := by
    refine (keeps_readClock hI.watches).bind fun timestamp =>
      keeps_replace (fun n _ added => ?_) fun _ _ => keeps_pure _
    obtain ⟨_, ha, he⟩ := bind_eq_ok_iff.mp added
    cases he
    exact registers n _ _ _ (.addition target kind tag timestamp) ha
  exact adds.bind fun m => (keeps_broadcast hI (tells [m]) net).map _

theorem keeps_dropRegistry (net : Network) (target : String) :
    Keeps I (dropRegistry net target) := by
  have drops : Keeps I (dropFromRegistry target) := by
    refine (keeps_readClock hI.watches).bind fun _ => keeps_get.bind fun _ =>
      keeps_replace (fun n _ dropped => ?_) fun _ _ => keeps_pure _
    obtain ⟨_, ha, he⟩ := bind_eq_ok_iff.mp dropped
    cases he
    exact registers n _ _ _ (.removal target _) ha
  exact drops.bind fun m => (keeps_broadcast hI (tells [m]) net).map _

end

-- A write is passed on, stored and acknowledged, and its rows are announced.
theorem keeps_handleMutation {permitted : Outgoing → Prop} (hI : Admits permitted I)
    (sends : SendsAll permitted) (asks : ∀ target kind, Keeps I (queryRegistry target kind))
    (applies : ∀ n storage, I n → I { n with storage }) (net : Network) (message : Inbound)
    (id : String) : Keeps I (handleMutation net message id) := by
  refine (keeps_lift _).bind fun m => (keeps_replyAddress hI sends message).bind fun recipient =>
    keeps_replace (fun n storage _ => applies n storage) fun n _ =>
      (keeps_send hI (sends _ _ _)).bind fun _ => ?_
  split
  case isTrue  => exact keeps_announceRows hI sends.tellsDefinitions asks net m
  case isFalse => exact keeps_pure _

-- What a mutation, definitions and a response do.
structure Handling (I : Node → Prop) : Prop where
  talks    : IgnoresTalk I
  asks     : ∀ target kind, Keeps I (queryRegistry target kind)
  applies  : ∀ n storage, I n → I { n with storage }
  merges   : ∀ batch, Keeps I (merge batch)
  responds : ∀ message id, Keeps I (handleResponse message id)

namespace Handling

variable (hI : Handling I)

include hI

theorem handle (net : Network) (message : Inbound) (id : String) :
    Keeps I (handle net message id) := by
  rw [Node.handle]
  split
  case h_1 => exact keeps_handleMutation hI.talks sendsAll_true hI.asks hI.applies net message id
  case h_2 => exact hI.responds message id
  case h_3 => exact (keeps_lift _).bind fun batch => (hI.merges batch).map _
  case h_4 =>
    exact keeps_get.bind fun _ => (keeps_lift _).bind fun _ => keeps_send hI.talks trivial

end Handling

end ClusterMetadata.Node
