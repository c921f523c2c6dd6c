import ClusterMetadata.Cluster
import ClusterMetadata.Proofs.Node.Forgetting

/-!
The version that the network shows of a member. What the others do leaves it alone
(`Around.schema_eq`), and a member that starts or merges without being disturbed makes it the
version of its schema (`Joined.start`, `Joined.merge`).
-/

namespace ClusterMetadata

variable {net net' : Network} {a : Address} {version : Uuid} {o : Outgoing}

namespace Network

-- What a member does to the network.
def heed (sender : Address) (net : Network) : Outgoing → Network
  | .send recipient id message => (net.send sender recipient id message).1
  | .advertise version         => (net.advertise sender version).1

-- What a member shows concerns nobody else, and nothing else about the member.
theorem schema_update {b : Address} {f : Member → Member}
    (h : b = a → ∀ m, (f m).schema = m.schema) : (net.update b f).schema a = net.schema a := by
  simp only [schema, update, Std.ExtTreeMap.getElem?_modify]
  split
  case isTrue he =>
    obtain rfl := Std.LawfulEqOrd.eq_of_compare he
    cases net.members[b]?
    case none   => rfl
    case some m => exact h rfl m
  case isFalse => rfl

theorem schema_advertise_self (h : a ∈ net.members) :
    (net.advertise a version).1.schema a = some version := by
  have hm := Std.ExtTreeMap.getElem?_eq_some_getElem h
  rw [advertise, hm]
  dsimp only
  split
  case isTrue he => simp only [schema, hm]; exact he
  case isFalse   => simp [schema, update, hm]

theorem mem_of_schema_eq_some (h : net.schema a = some version) : a ∈ net.members := by
  refine Std.ExtTreeMap.mem_iff_isSome_getElem?.mpr ?_
  cases hm : net.members[a]?
  case none   => simp [schema, hm] at h
  case some m => rfl

-- What else becomes of the network while a member stays. The others come and go, and tell their
-- versions.
inductive Around (a : Address) : Network → Network → Prop
  | adds (net : Network) {b : Address} (hb : b ≠ a) (version : Int) (nonReplicating : Bool) :
      Around a net (net.add b version nonReplicating).1
  | removes (net : Network) {b : Address} (hb : b ≠ a) : Around a net (net.remove b).1
  | advertises (net : Network) {b : Address} (hb : b ≠ a) (version : Uuid) :
      Around a net (net.advertise b version).1
  | sends (net : Network) (b c : Address) (id : String) (m : Message) :
      Around a net (net.send b c id m).1
  | setsAlive (net : Network) (b : Address) (alive : Bool) : Around a net (net.setAlive b alive).1
  | setsVersion (net : Network) (b : Address) (version : Int) :
      Around a net (net.setVersion b version)
  | pends (net : Network) (b : Address) : Around a net (net.addPending b)
  | attaches (net : Network) (b : Address) : Around a net (net.attach b)
  | watches (net : Network) (b : Address) : Around a net (net.watch b)
  -- The messages that have been sent are handed over.
  | collects (net : Network) : Around a net { net with sent := [] }

theorem Around.schema_eq (h : Around a net net') : net'.schema a = net.schema a := by
  cases h
  case adds b hb version nonReplicating =>
    simp [schema, add, Std.ExtTreeMap.getElem?_insert, hb]
  case removes b hb => simp [schema, remove, Std.ExtTreeMap.getElem?_erase, hb]
  case advertises b hb version =>
    rw [advertise]
    split
    case h_1 => rfl
    case h_2 =>
      split
      case isTrue  => rfl
      case isFalse => exact schema_update fun he => absurd he hb
  case setsAlive b alive =>
    rw [setAlive]
    split
    case h_1 => rfl
    case h_2 =>
      split
      case isTrue  => rfl
      case isFalse => exact schema_update fun _ _ => rfl
  case setsVersion => exact schema_update fun _ _ => rfl
  case attaches    => exact schema_update fun _ _ => rfl
  case watches     => exact schema_update fun _ _ => rfl
  all_goals rfl

end Network

namespace Node

variable {n n' : Node}

-- The network when all has happened that the node has in its outbox.
def outlook (net : Network) (n : Node) : Network := n.outbox.foldl (Network.heed n.address) net

theorem outlook_of_quiet (h : n.outbox = []) (net : Network) : n.outlook net = net := by
  rw [outlook, h, List.foldl_nil]

-- The node is a member, and keeps its address.
structure Joined (net : Network) (a : Address) (n : Node) : Prop where
  address : n.address = a
  member  : a ∈ (n.outlook net).members

-- What the network shows of it is the version of its schema.
structure Shown (net : Network) (a : Address) (n : Node) : Prop where
  address : n.address = a
  schema  : (n.outlook net).schema a = some n.schema.version

theorem outlook_emit (net : Network) (n : Node) (o : Outgoing) :
    outlook net { n with outbox := n.outbox ++ [o] } = (n.outlook net).heed n.address o :=
  List.foldl_append ..

namespace Joined

theorem congr (h : n.Joined net a) (ha : n'.address = n.address) (ho : n'.outbox = n.outbox) :
    n'.Joined net a where
  address := ha.trans h.address
  member  := by simpa only [outlook, ha, ho] using h.member

theorem advertise (h : n.Joined net a) : (n.run (advertise n.schema.version)).2.Shown net a where
  address := h.address
  schema  := by
    have heeds := outlook_emit net n (.advertise n.schema.version)
    refine (congrArg (·.schema a) heeds).trans ?_
    rw [h.address]
    exact Network.schema_advertise_self h.member

-- Between a merge and the advertisement of its version only the observers are told and the registry
-- forgets.
theorem tell {report : MergeReport} (h : n.Joined net a)
    (hv : report.version = n.schema.version) : (n.run (tell (.ok report))).2.Shown net a := by
  have ⟨clock, notes, hn⟩ := exists_run_notify n report.events
  let registry := report.registryTargets.foldl (·.invalidate) n.registry
  have joined : Joined net a { n with clock, notes, registry } := h.congr rfl rfl
  have shown := joined.advertise
  rw [← hv] at shown
  rw [run_tell hn]
  exact shown

theorem merge {batch : List Mutation} {report : MergeReport} (h : n.Joined net a)
    (hr : n.run (merge batch) = (.ok report, n')) : n'.Shown net a := by
  have ⟨_, result⟩ := attempt_of_run_merge hr
  rw [run_merge] at hr
  cases ha : n.replica.attempt batch
  case mk r came =>
    rw [ha] at hr result
    cases came
    case error e => cases result
    case ok report =>
      have joined : (n.withReplica r).Joined net a := h.congr rfl rfl
      have shown := joined.tell (Replica.version_of_attempt_ok ha)
      rwa [hr] at shown

theorem start {parts : List NodePart} (h : n.Joined net a)
    (hr : n.run (Node.start parts) = (.ok (), n')) : n'.Shown net a := by
  have ⟨_, _, hg, hr⟩ := run_bind_eq_ok_iff.mp hr
  cases hg
  have ⟨_, _, hc, hr⟩ := run_bind_eq_ok_iff.mp hr
  have ⟨_, _, hp, hr⟩ := run_bind_eq_ok_iff.mp hr
  rw [(run_lift_eq_ok_iff.mp hp).right, (run_lift_eq_ok_iff.mp hc).right] at hr
  have ⟨_, _, hl, hr⟩ := run_bind_eq_ok_iff.mp hr
  have ⟨_, _, hg, hl⟩ := run_bind_eq_ok_iff.mp hl
  cases hg
  have ⟨schema, _, hs, hl⟩ := run_bind_eq_ok_iff.mp hl
  rw [(run_lift_eq_ok_iff.mp hs).right] at hl
  cases hl
  let registry := (n.registry.hydrate n.storage n.config.audit.hydrateTargets).2
  have joined : Joined net a { n with schema, registry } := h.congr rfl rfl
  have shown := joined.advertise
  cases hr
  exact shown

end Joined
end Node

namespace Cluster

variable {α : Type} {c : Cluster}

theorem network_foldl_tell (notifications : Network.Notifications) :
    (notifications.foldl tell c).network = c.network := by
  induction notifications generalizing c
  case nil => rfl
  case cons notification notifications hi =>
    refine hi.trans ?_
    rw [tell]
    split <;> rfl

theorem network_emit : (c.emit a o).network = c.network.heed a o := by
  cases o
  case send      => rfl
  case advertise => exact network_foldl_tell _

theorem network_foldl_emit (os : List Outgoing) :
    (os.foldl (emit a) c).network = os.foldl (Network.heed a) c.network := by
  induction os generalizing c
  case nil          => rfl
  case cons o os hi => exact hi.trans (congrArg (os.foldl (Network.heed a)) network_emit)

-- So it happens to the network when nodes run on it.
theorem network_runOn (n : Node) (op : Network → NodeM α) : (c.runOn n op).2.network =
    (Node.run { n with clock := c.clock } (op c.network)).2.outlook c.network :=
  network_foldl_emit _

end Cluster
end ClusterMetadata
