import ClusterMetadata.Proofs.Node.Traffic

/-!
A write that one member passes on for another. The coordinator sends it to a relay, with a list of
members and ids (`Fanout`). The relay handles it as a write that is to be passed on, and the members
of the list handle what they get as one that has been (`directs_of_mem`).
-/

namespace ClusterMetadata

open Node

-- No write waits at the node, and it can store writes.
structure Node.Ready (n : Node) : Prop where
  idle     : n.mutation.IsIdle
  sorted   : n.Sorted
  writable : n.storage.failing = false
  quiet    : n.outbox = []

-- A coordinator sends a write under an id to a relay, with a list of members to pass it on to, and
-- an id for each of them. All of them are up.
structure Fanout where
  network : Network
  node : Address → Node
  coordinator : Address
  relay : Address
  id : String
  entries : List (Address × String)
  message : Message
  mutation : Mutation
  ready (a : Address) : (node a).Ready
  serves : ∀ a ∈ coordinator :: relay :: entries.map (·.1), network.Serves a
  verb : message.verb = .mutation
  reads : Wire.run (Wire.readMutation Protocol.current) message.payload = .ok mutation
  lists : ∃ octets, message.parameter? Message.forwardTo = some octets ∧
    Wire.run Wire.readForwardList octets = .ok entries
  original : message.parameter? Message.forwardFrom = none

namespace Fanout

variable {f : Fanout} {s s' : SentMessage} {a : Address} {id : String} {m : Message}

def members (f : Fanout) : List Address := f.coordinator :: f.relay :: f.entries.map (·.1)

def root (f : Fanout) : SentMessage := .between f.coordinator f.relay f.id f.message

def relays (f : Fanout) : List SentMessage :=
  f.entries.map fun e => .between f.relay e.1 e.2 f.root.inbound.relayed

-- All there is to be sent of the write.
def writes (f : Fanout) : List SentMessage := f.root :: f.relays

-- The mutation, once for each of the writes to the member.
def copies (f : Fanout) (a : Address) : List Mutation :=
  .replicate (f.writes.countP (·.recipient = a)) f.mutation

def ack (f : Fanout) (s : SentMessage) : SentMessage := .between s.recipient f.coordinator s.id .ack

def start (f : Fanout) : Traffic :=
  Traffic.emit f.coordinator { network := f.network, node := f.node, flying := [], sent := [] }
    (.send f.relay f.id f.message)

theorem root_not_mem_relays (f : Fanout) : f.root ∉ f.relays := by
  intro hm
  have ⟨e, _, he⟩ := List.mem_map.mp hm
  have hp : f.root.inbound.relayed.parameter? Message.forwardFrom = some f.coordinator.octets :=
    Std.ExtTreeMap.getElem?_insert_self
  have hn : f.root.inbound.relayed.parameter? Message.forwardFrom = none :=
    (congrArg (·.message.parameter? Message.forwardFrom) he).trans f.original
  cases hp.symm.trans hn

theorem same_of_mem (hs : s ∈ f.writes) : s.message.verb = f.message.verb ∧
    s.message.payload = f.message.payload ∧ s.version = Protocol.current := by
  cases List.mem_cons.mp hs
  case inl hs =>
    rw [hs]
    exact ⟨rfl, rfl, rfl⟩
  case inr hs =>
    have ⟨_, _, he⟩ := List.mem_map.mp hs
    rw [← he]
    exact ⟨rfl, rfl, rfl⟩

theorem verb_of_mem (hs : s ∈ f.writes) : s.message.verb = .mutation :=
  (same_of_mem hs).left.trans f.verb

theorem reads_of_mem (hs : s ∈ f.writes) :
    Wire.run (Wire.readMutation s.version) s.message.payload = .ok f.mutation := by
  have ⟨_, hp, hv⟩ := same_of_mem hs
  rw [hp, hv]
  exact f.reads

theorem isWrite_of_mem (hs : s ∈ f.writes) : s.message.isWrite = true :=
  decide_eq_true (verb_of_mem hs)

theorem isAck_of_mem (hs : s ∈ f.writes) : s.message.isAck = false := by
  simp [Message.isAck, verb_of_mem hs]

theorem recipient_mem_of_mem (hs : s ∈ f.writes) : s.recipient ∈ f.members := by
  refine List.mem_cons_of_mem _ (List.mem_cons.mpr ?_)
  cases List.mem_cons.mp hs
  case inl hs => exact .inl (hs ▸ rfl)
  case inr hs =>
    have ⟨e, hm, he⟩ := List.mem_map.mp hs
    exact .inr (List.mem_map.mpr ⟨e, hm, he ▸ rfl⟩)

-- What is passed on of a write.
def onward (f : Fanout) (s : SentMessage) : List Outgoing :=
  if s = f.root then f.entries.map fun e => .send e.1 e.2 f.root.inbound.relayed else []

theorem directs_of_mem (hs : s ∈ f.writes) : s.inbound.Directs f.coordinator (f.onward s) := by
  cases List.mem_cons.mp hs
  case inl hs =>
    have ⟨octets, ht, he⟩ := f.lists
    have hv : Protocol.forwarding ≤ Protocol.current := by decide
    rw [hs, onward, if_pos rfl]
    exact directs_of_forwardTo f.original hv ht he
  case inr hs =>
    have hn : s ≠ f.root := fun h => f.root_not_mem_relays (h ▸ hs)
    have ⟨_, _, he⟩ := List.mem_map.mp hs
    rw [onward, if_neg hn, ← he]
    exact directs_of_forwardFrom Std.ExtTreeMap.getElem?_insert_self

-- The relays of a write as messages.
def passedOn (f : Fanout) (s : SentMessage) : List SentMessage :=
  if s = f.root then f.relays else []

theorem posted_onward (f : Fanout) (s : SentMessage) :
    Traffic.posted s.recipient (f.onward s ++ [.send f.coordinator s.id .ack]) =
      f.passedOn s ++ [f.ack s] := by
  rw [onward, passedOn]
  split
  case isTrue h =>
    have hr : s.recipient = f.relay := h ▸ rfl
    simp [Traffic.posted, relays, ack, hr, List.filterMap_map]
  case isFalse => rfl

-- Whoever is sent something for a write is a member.
theorem mem_of_send_mem (hm : .send a id m ∈ f.onward s ++ [.send f.coordinator s.id .ack]) :
    a ∈ f.members := by
  cases List.mem_append.mp hm
  case inr hm =>
    cases List.mem_singleton.mp hm
    exact List.mem_cons_self
  case inl hm =>
    rw [onward] at hm
    split at hm
    case isFalse => cases hm
    case isTrue =>
      have ⟨e, he, hs⟩ := List.mem_map.mp hm
      cases hs
      exact List.mem_cons_of_mem _ (List.mem_cons_of_mem _ (List.mem_map_of_mem he))

theorem mem_of_mem_passedOn (hm : s' ∈ f.passedOn s) : s' ∈ f.writes := by
  rw [passedOn] at hm
  split at hm
  case isTrue  => exact List.mem_cons_of_mem _ hm
  case isFalse => cases hm

theorem filter_isWrite (f : Fanout) (s : SentMessage) :
    (f.passedOn s ++ [f.ack s]).filter (·.message.isWrite) = f.passedOn s := by
  have hw : (f.passedOn s).filter (·.message.isWrite) = f.passedOn s :=
    List.filter_eq_self.mpr fun _ hm => isWrite_of_mem (mem_of_mem_passedOn hm)
  rw [List.filter_append, hw]
  exact List.append_nil _

theorem filter_isAck (f : Fanout) (s : SentMessage) :
    (f.passedOn s ++ [f.ack s]).filter (·.message.isAck) = [f.ack s] := by
  have hw : (f.passedOn s).filter (·.message.isAck) = [] :=
    List.filter_eq_nil_iff.mpr fun _ hm => by simp [isAck_of_mem (mem_of_mem_passedOn hm)]
  rw [List.filter_append, hw]
  rfl

end Fanout
end ClusterMetadata
