import ClusterMetadata.Proofs.Node.Relay

/-!
Nodes on one network and the messages between them. Messages arrive in any order, and each node
works on any of its stages at any time (`Traffic.Step`). What a node has put into its outbox happens
when its step ends.
-/

namespace ClusterMetadata

open Node

variable {net : Network} {a b : Address} {id : String} {m : Message} {o : Outgoing}
  {os : List Outgoing}

-- The member is up, and speaks the current protocol.
def Network.Serves (net : Network) (a : Address) : Prop :=
  net.members[a]?.any fun m => m.alive && m.attached && m.version = Protocol.current

instance : Decidable (net.Serves a) := inferInstanceAs (Decidable (_ = true))

theorem Network.serves_iff : net.Serves a ↔ ∃ m, net.members[a]? = some m ∧ m.alive = true ∧
    m.attached = true ∧ m.version = Protocol.current := by
  simp [Serves, Option.any_eq_true_iff_get, Option.eq_some_iff_get_eq, and_assoc]

-- A message from one such member to another.
def SentMessage.between (sender recipient : Address) (id : String) (message : Message) :
    SentMessage where
  sender := sender
  recipient := recipient
  id := id
  message := message
  delivered := true
  version := Protocol.current

theorem Network.send_of_serves (ha : net.Serves a) (hb : net.Serves b) :
    (net.send a b id m).2 = .between a b id m := by
  have ⟨m₁, ha, _, _, hv⟩ := serves_iff.mp ha
  have ⟨m₂, hb, hl, ht, _⟩ := serves_iff.mp hb
  simp [send, SentMessage.between, ha, hb, hl, ht, hv]

-- Telling a version of the schema changes nothing else.
theorem Network.Serves.advertise (h : net.Serves a) (b : Address) (version : Uuid) :
    (net.advertise b version).1.Serves a := by
  have ⟨m, hm, ha, ht, hv⟩ := serves_iff.mp h
  rw [Network.advertise]
  split
  case h_1 => exact h
  case h_2 =>
    split
    case isTrue  => exact h
    case isFalse =>
      refine serves_iff.mpr ?_
      simp only [Network.update, Std.ExtTreeMap.getElem?_modify]
      split
      case isTrue he =>
        rw [Std.LawfulEqOrd.eq_of_compare he, hm]
        exact ⟨_, rfl, ha, ht, hv⟩
      case isFalse => exact ⟨m, hm, ha, ht, hv⟩

-- The write that the node takes next has not waited for too long.
def Node.Prompt (n : Node) : Prop :=
  n.mutation.queue.head?.all fun
    | .inbound message _ arrived => n.clock.elapsed - arrived < n.config.timeout message.verb
    | _                          => true

instance {n : Node} : Decidable n.Prompt := inferInstanceAs (Decidable (_ = true))

structure Traffic where
  network : Network
  node : Address → Node
  -- Messages on their way.
  flying : List SentMessage
  -- All messages that were sent, oldest first.
  sent : List SentMessage

namespace Traffic

variable {t t' t'' : Traffic} {letters letters' : List SentMessage} {n : Node}

def emit (sender : Address) (t : Traffic) : Outgoing → Traffic
  | .send recipient id message =>
    let (network, s) := t.network.send sender recipient id message
    { t with
      network
      flying := t.flying ++ [s].filter (·.delivered)
      sent := t.sent ++ [s] }
  | .advertise version => { t with network := (t.network.advertise sender version).1 }

def become (t : Traffic) (a : Address) (n : Node) : Traffic :=
  { t with node := Function.update t.node a { n with outbox := [] } }

-- The node of the member has become this one. What it has put into its outbox happens.
def put (t : Traffic) (a : Address) (n : Node) : Traffic := n.outbox.foldl (emit a) (t.become a n)

theorem node_become_self (t : Traffic) (a : Address) (n : Node) :
    (t.become a n).node a = { n with outbox := [] } :=
  Function.update_self ..

theorem node_become_of_ne (h : b ≠ a) (t : Traffic) (n : Node) :
    (t.become a n).node b = t.node b :=
  Function.update_of_ne h ..

def run (t : Traffic) (a : Address) (x : NodeM Unit) : Traffic := t.put a ((t.node a).run x).2

theorem node_put (t : Traffic) (a : Address) (n : Node) :
    (t.put a n).node = (t.become a n).node := by
  have keeps (os : List Outgoing) (t : Traffic) : (os.foldl (emit a) t).node = t.node := by
    induction os generalizing t
    case nil => rfl
    case cons o os hi =>
      have one : (t.emit a o).node = t.node := by cases o <;> rfl
      exact (hi (t.emit a o)).trans one
  exact keeps n.outbox _

theorem put_of_quiet (h : n.outbox = []) (t : Traffic) (a : Address) :
    t.put a n = t.become a n := by
  rw [put, h, List.foldl_nil]

def writes (t : Traffic) : List SentMessage := t.sent.filter (·.message.isWrite)

def acks (t : Traffic) : List SentMessage := t.sent.filter (·.message.isAck)

-- Writes that are on their way.
def abroad (t : Traffic) : List SentMessage := t.flying.filter (·.message.isWrite)

-- These letters have been sent and are on their way, and nothing else that concerns writes.
structure Posts (t : Traffic) (letters : List SentMessage) (t' : Traffic) : Prop where
  serves : ∀ a, t.network.Serves a → t'.network.Serves a
  node   : t'.node = t.node
  writes : t'.writes = t.writes ++ letters.filter (·.message.isWrite)
  abroad : t'.abroad = t.abroad ++ letters.filter (·.message.isWrite)
  acks   : t'.acks = t.acks ++ letters.filter (·.message.isAck)

namespace Posts

theorem refl (t : Traffic) : t.Posts [] t where
  serves _ h := h
  node   := rfl
  writes := (List.append_nil _).symm
  abroad := (List.append_nil _).symm
  acks   := (List.append_nil _).symm

theorem trans (h : t.Posts letters t') (h' : t'.Posts letters' t'') :
    t.Posts (letters ++ letters') t'' where
  serves a hs := h'.serves a (h.serves a hs)
  node   := h'.node.trans h.node
  writes := by rw [h'.writes, h.writes, List.filter_append, List.append_assoc]
  abroad := by rw [h'.abroad, h.abroad, List.filter_append, List.append_assoc]
  acks   := by rw [h'.acks, h.acks, List.filter_append, List.append_assoc]

end Posts

theorem emit_send {s : SentMessage} (hs : (t.network.send a b id m).2 = s) :
    t.emit a (.send b id m) = { t with
      network := (t.network.send a b id m).1
      flying := t.flying ++ [s].filter (·.delivered)
      sent := t.sent ++ [s] } :=
  hs ▸ rfl

-- A message that is no write and no acknowledgement does not count.
theorem posts_emit_aside (ho : o.IsAside) (t : Traffic) (a : Address) :
    t.Posts [] (t.emit a o) := by
  cases o
  case advertise version =>
    exact { Posts.refl t with serves b hb := hb.advertise a version }
  case send b id m =>
    obtain ⟨s, hs⟩ : ∃ s, (t.network.send a b id m).2 = s := ⟨_, rfl⟩
    have hm : s.message = m := hs ▸ rfl
    have hw : s.message.isWrite = false := hm ▸ ho.left
    have ha : s.message.isAck = false := hm ▸ ho.right
    rw [emit_send hs]
    refine ⟨fun _ h => h, rfl, ?_, ?_, ?_⟩
    case refine_1 => simp [writes, hw]
    case refine_2 => simp [abroad, hw]
    case refine_3 => simp [acks, ha]

theorem posts_emit_send (ha : t.network.Serves a) (hb : t.network.Serves b) :
    t.Posts [.between a b id m] (t.emit a (.send b id m)) := by
  rw [emit_send (Network.send_of_serves ha hb)]
  refine ⟨fun _ h => h, rfl, ?_, ?_, ?_⟩
  case refine_1 => exact List.filter_append ..
  case refine_2 => exact List.filter_append ..
  case refine_3 => exact List.filter_append ..

theorem posts_foldl_aside (ho : ∀ o ∈ os, o.IsAside) (t : Traffic) (a : Address) :
    t.Posts [] (os.foldl (emit a) t) := by
  induction os generalizing t
  case nil => exact .refl t
  case cons o os hi =>
    have ⟨ho, hos⟩ := List.forall_mem_cons.mp ho
    exact (posts_emit_aside ho t a).trans (hi hos (t.emit a o))

-- What a member sends to members that are up.
def posted (sender : Address) (os : List Outgoing) : List SentMessage :=
  os.filterMap fun
    | .send recipient id message => some (.between sender recipient id message)
    | .advertise _               => none

theorem posts_foldl_send (ha : t.network.Serves a)
    (hs : ∀ b id m, .send b id m ∈ os → t.network.Serves b) :
    t.Posts (posted a os) (os.foldl (emit a) t) := by
  induction os generalizing t
  case nil => exact .refl t
  case cons o os hi =>
    have hos : ∀ b id m, .send b id m ∈ os → t.network.Serves b :=
      fun b id m hm => hs b id m (List.mem_cons_of_mem _ hm)
    cases o
    case send b id m =>
      have first : t.Posts [.between a b id m] (t.emit a (.send b id m)) :=
        posts_emit_send ha (hs b id m List.mem_cons_self)
      exact first.trans (hi (first.serves a ha) fun b id m hm => first.serves b (hos b id m hm))
    case advertise version =>
      have aside : (Outgoing.advertise version).IsAside := trivial
      have first : t.Posts [] (t.emit a (.advertise version)) := posts_emit_aside aside t a
      exact first.trans (hi (first.serves a ha) fun b id m hm => first.serves b (hos b id m hm))

-- The messages to members that are up come first in the outbox.
theorem posts_put {rest : List Outgoing} (ho : n.outbox = os ++ rest) (hr : ∀ o ∈ rest, o.IsAside)
    (ha : t.network.Serves a) (hs : ∀ b id m, .send b id m ∈ os → t.network.Serves b) :
    (t.become a n).Posts (posted a os) (t.put a n) := by
  have first : (t.become a n).Posts (posted a os) (os.foldl (emit a) (t.become a n)) :=
    posts_foldl_send ha hs
  rw [put, ho, List.foldl_append, ← List.append_nil (posted a os)]
  exact first.trans (posts_foldl_aside hr _ a)

theorem posts_put_aside (ho : ∀ o ∈ n.outbox, o.IsAside) (t : Traffic) (a : Address) :
    (t.become a n).Posts [] (t.put a n) :=
  posts_foldl_aside ho _ a

-- Writes that have arrived and writes that have been acknowledged.
def moves (t : Traffic) : Nat := t.writes.length - t.abroad.length + t.acks.length

-- No write is on its way, and none waits at a node.
def Settled (t : Traffic) : Prop := t.abroad = [] ∧ ∀ a, (t.node a).mutation.queue = []

def arrive (t : Traffic) (i : Fin t.flying.length) : Traffic :=
  let s := t.flying[i]
  { t with flying := t.flying.eraseIdx i }.run s.recipient (receive s.inbound s.id)

-- What can happen.
inductive Step : Traffic → Traffic → Prop
  -- Some message on its way arrives, no matter which was sent first.
  | arrives (t : Traffic) (i : Fin t.flying.length) : Step t (t.arrive i)
  -- A worker takes a job of a stage and does it.
  | works (t : Traffic) (a : Address) (name : StageName)
      (prompt : name = .mutation → (t.node a).Prompt) :
    Step t (t.run a (runNext t.network name))
  -- A member is told of another one.
  | hears (t : Traffic) (a : Address) (event : MemberEvent) :
    Step t (t.run a (hear t.network event))
  -- The time that was set for something is over.
  | fires (t : Traffic) (a : Address) (alarm : Alarm) : Step t (t.run a (fire t.network alarm))
  | waits (t : Traffic) (a : Address) (clock : Clock) : Step t (t.put a { t.node a with clock })

-- No definitions wait to be merged.
def Calm (t : Traffic) : Prop := ∀ a name, ∀ job ∈ ((t.node a).stage name).queue, ¬job.Merges

theorem Calm.run (h : t.Calm) {x : NodeM Unit}
    (hn : ∀ name, ∀ job ∈ (((t.node a).run x).2.stage name).queue, ¬job.Merges) :
    (t.run a x).Calm := by
  intro b
  rw [Traffic.run, node_put]
  by_cases hb : b = a
  case pos =>
    rw [hb, node_become_self]
    exact hn
  case neg =>
    rw [node_become_of_ne hb]
    exact h b

theorem Calm.arrive (h : t.Calm) (i : Fin t.flying.length)
    (hn : ∀ name, ∀ job ∈ (((t.node t.flying[i].recipient).run
      (receive t.flying[i].inbound t.flying[i].id)).2.stage name).queue, ¬job.Merges) :
    (t.arrive i).Calm :=
  have others : Calm { t with flying := t.flying.eraseIdx i } := h
  others.run hn

-- A step that finds no definitions to merge.
def CalmStep (t t' : Traffic) : Prop := t.Calm ∧ Step t t'

theorem steps_of_calm (h : Relation.ReflTransGen CalmStep t t') : Relation.ReflTransGen Step t t' :=
  h.lift id fun _ _ => And.right

end Traffic
end ClusterMetadata
