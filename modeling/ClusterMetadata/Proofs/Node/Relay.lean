import ClusterMetadata.Proofs.Node.Aside
import ClusterMetadata.Proofs.Wire.ForwardList

/-!
What a node does with a write. It queues it (`receive_write`). Then it applies it and acknowledges
it to the member that waits for it; a write that is to be relayed and has not been relayed yet goes
to the listed members first (`handles_write`).
-/

namespace ClusterMetadata

open Node

-- The write as it is passed on.
def Inbound.relayed (message : Inbound) : Message :=
  (Message.plain message.verb message.payload).withParameter Message.forwardFrom
    message.sender.octets

def Message.ack : Message := .plain .requestResponse []

-- Whoever handles the message sends these, and answers the member.
def Inbound.Directs (message : Inbound) (waiting : Address) (os : List Outgoing) : Prop :=
  ∀ n : Node, n.run (replyAddress message) = (.ok waiting, { n with outbox := n.outbox ++ os })

variable {message : Inbound} {waiting : Address} {entries : List (Address × String)}
  {octets : Bytes} {n : Node} {net : Network} {m : Mutation} {id : String} {arrived : Nat}
  {os : List Outgoing} {queue : List Job}

theorem run_sendAll (n : Node) (entries : List (Address × String)) (m : Message) :
    n.run (entries.forM fun (a, id) => send a id m) =
      (.ok (), { n with outbox := n.outbox ++ entries.map fun e => Outgoing.send e.1 e.2 m }) := by
  induction entries generalizing n
  case nil => simp
  case cons e entries hi =>
    change { n with outbox := n.outbox ++ [Outgoing.send e.1 e.2 m] }.run (entries.forM _) = _
    rw [hi, List.map_cons, List.append_assoc]
    rfl

theorem directs_of_forwardFrom (h : message.parameter? Message.forwardFrom = some waiting.octets) :
    message.Directs waiting [] := by
  intro n
  rw [replyAddress, h]
  dsimp only
  rw [Wire.asAddress_octets]
  simp [lift]

theorem run_relay (he : Wire.run Wire.readForwardList octets = .ok entries) (n : Node) :
    n.run (relay message octets) = (.ok (), { n with
      outbox := n.outbox ++ entries.map fun e => .send e.1 e.2 message.relayed }) := by
  rw [relay, he]
  exact run_sendAll n entries message.relayed

theorem directs_of_forwardTo (hf : message.parameter? Message.forwardFrom = none)
    (hv : Protocol.forwarding ≤ message.version)
    (ht : message.parameter? Message.forwardTo = some octets)
    (he : Wire.run Wire.readForwardList octets = .ok entries) :
    message.Directs message.sender (entries.map fun e => .send e.1 e.2 message.relayed) := by
  intro n
  rw [replyAddress, hf]
  simp only [hv, ht, if_true]
  refine run_bind_eq_ok_iff.mpr ⟨(), _, run_relay he n, rfl⟩

-- The storage has the mutation and the member has its acknowledgement before entries are announced.
theorem run_handleMutation {storage : Storage}
    (hm : Wire.run (Wire.readMutation message.version) message.payload = .ok m)
    (hd : message.Directs waiting os) (hs : n.storage.apply m = .ok storage) :
    n.run (handleMutation net message id) =
      Node.run { n with storage, outbox := n.outbox ++ os ++ [.send waiting id .ack] }
        (if n.config.audit.rowMutations ∧ ¬isLocalKeyspace m.keyspace then announceRows net m
          else pure ()) := by
  simp only [handleMutation, hm, lift, run_bind, run_pure, hd n, run_get, hs]
  rfl

-- Nobody else is told of the write but by announcing entries, and nothing else is stored.
theorem aside_handleMutation {storage : Storage}
    (hm : Wire.run (Wire.readMutation message.version) message.payload = .ok m)
    (hd : message.Directs waiting os) (hs : n.storage.apply m = .ok storage) :
    Node.Aside True { n with storage, outbox := n.outbox ++ os ++ [.send waiting id .ack] }
      (n.run (handleMutation net message id)).2 := by
  rw [run_handleMutation hm hd hs]
  split
  case isTrue  => exact Aside.keeps_announceRows _ net m _ (.refl _)
  case isFalse => exact .refl _

theorem receive_write (hq : n.mutation.Holds queue []) (hv : message.verb = .mutation) :
    ∃ stage, stage.Holds (queue ++ [.inbound message id n.clock.elapsed]) [] ∧
      (n.run (receive message id)).2 = { n with mutation := stage } := by
  have ⟨stage, hs, hq'⟩ := hq.execute (.inbound message id n.clock.elapsed)
  have hs : (n.stage (stageOf message.verb)).execute (.inbound message id n.clock.elapsed) =
      .ok stage := hv ▸ hs
  refine ⟨stage, hq', ?_⟩
  rw [receive, run_bind, run_get]
  dsimp only
  rw [run_execute, hs, hv]
  rfl

theorem run_runNext_of_holds_nil (hq : n.mutation.Holds [] []) :
    n.run (runNext net .mutation) = (.ok (), n) := by
  have ht : (n.stage .mutation).take = none := by
    rw [show n.stage .mutation = n.mutation from rfl, Stage.take, hq.queue]
  rw [runNext, run_bind, run_takeJob, ht]
  rfl

-- What handling a write does to the node: the message leaves the queue, the mutation is applied,
-- and besides the relayed messages and the acknowledgement nothing goes out that concerns writes.
structure Node.Handles (n : Node) (m : Mutation) (queue : List Job) (os : List Outgoing)
    (n' : Node) : Prop where
  mutation : n'.mutation.Holds queue []
  sorted   : n.Sorted → n'.Sorted
  storage  : n.storage.apply m = .ok n'.storage
  outbox   : ∃ rest, n'.outbox = n.outbox ++ os ++ rest ∧ ∀ o ∈ rest, o.IsAside

theorem handles_write
    (hq : n.mutation.Holds (.inbound message id arrived :: queue) [])
    (hv : message.verb = .mutation)
    (fresh : n.clock.elapsed - arrived < n.config.timeout message.verb)
    (hm : Wire.run (Wire.readMutation message.version) message.payload = .ok m)
    (hd : message.Directs waiting os) (hf : n.storage.failing = false) :
    n.Handles m queue (os ++ [.send waiting id .ack]) (n.run (runNext net .mutation)).2 := by
  obtain ⟨taken, ht, hq₁⟩ := hq.take
  obtain ⟨storage, hs⟩ := Storage.exists_apply_eq_ok hf m
  let n₁ : Node := { n with mutation := taken }
  let n₂ : Node := (n₁.run (handleMutation net message id)).2
  have htake : n.run (takeJob .mutation) = (.ok (some (.inbound message id arrived)), n₁) := by
    have ht : (n.stage .mutation).take = some (.inbound message id arrived, taken) := ht
    rw [run_takeJob, ht]
    rfl
  have ha : Aside True { n₁ with storage, outbox := n₁.outbox ++ os ++ [.send waiting id .ack] } n₂ :=
    aside_handleMutation hm hd hs
  have hrun : n.run (runNext net .mutation) = n₂.run (finishJob .mutation) := by
    have hr := run_runInbound n₁ net message id arrived
    rw [if_neg (Nat.not_le.mpr fresh)] at hr
    rw [run_runNext_of_taken htake hr, handle, hv]
  rw [hrun]
  have hq₂ : n₂.mutation.Holds queue [.inbound message id arrived] := ha.mutation ▸ hq₁
  refine ⟨hq₂.finish, fun h => (ha.sorted (h.setMutation taken)).setMutation _, ?_, ?_⟩
  case refine_1 =>
    obtain ⟨batch, hb, hn⟩ := ha.storage
    rw [hn trivial] at hb
    exact hs.trans hb
  case refine_2 =>
    obtain ⟨rest, ho, hr⟩ := ha.outbox
    refine ⟨rest, ?_, hr⟩
    rw [← List.append_assoc]
    exact ho

end ClusterMetadata
