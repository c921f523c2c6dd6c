import ClusterMetadata.Proofs.Network.Replicas
import ClusterMetadata.Proofs.Node.Gate
import ClusterMetadata.Proofs.Node.Push
import ClusterMetadata.Proofs.Wire.Mutation

/-!
Who gets an audit entry. An entry of an enabled pair goes once to each replica of its target,
natural or pending, that is the local node or on the current protocol, and to nobody else; what is
sent is that entry alone. An entry of any other pair goes nowhere (`announceEntry_delivers`).
-/

namespace ClusterMetadata

-- The members that are to get what concerns the key: each once, the natural replicas first.
structure Network.Delivers (net : Network) (sender : Address) (key : Bytes)
    (recipients : List Address) : Prop where
  once         : recipients.Nodup
  mem_iff a    : a ∈ recipients ↔
    (a ∈ net.naturalReplicas (token key) ∨ a ∈ net.pendingReplicas) ∧
      (a = sender ∨ Protocol.current ≤ net.version a)
  naturalFirst : ∃ natural pending, recipients = natural ++ pending ∧
    (∀ a ∈ natural, a ∈ net.naturalReplicas (token key)) ∧
    ∀ a ∈ pending, a ∉ net.naturalReplicas (token key)

theorem Network.delivers_pushTargets (net : Network) (self : Address) (key : Bytes) :
    net.Delivers self key (net.pushTargets self key) where
  once := (nodup_eraseDups _).filter _
  mem_iff a := by simp [pushTargets, List.mem_eraseDups]
  naturalFirst := by
    refine ⟨_, _, pushTargets_eq, fun a ha => (List.mem_filter.mp ha).left, fun a ha => ?_⟩
    simpa using (List.mem_filter.mp (List.mem_filter.mp ha).left).right

-- An entry is one table and two cells. Only its value can be too long for its length field, which
-- holds what is shorter than 2 GiB.
theorem AuditEntry.bounded_addition {e : AuditEntry} {timestamp : Int64}
    (hv : (Utf8.encode e.value).length < Wire.countLimit) : (e.addition timestamp).Bounded := by
  have hl : 2 < Wire.countLimit := by decide
  have ht := Mutation.toList_families_singleton Catalog.metadata Catalog.log (Utf8.encode e.target)
    (Row.write e.row timestamp [(Row.marker, []), (valueLeaf, Utf8.encode e.value)])
  constructor
  case tables =>
    rw [← Std.ExtTreeMap.length_toList, addition, ht]
    exact Nat.lt_of_succ_lt hl
  case modifications =>
    rw [addition, ht]
    exact List.forall_mem_singleton.mpr hl
  case values =>
    rw [addition, ht, List.forall_mem_singleton]
    refine List.forall_mem_cons.mpr ⟨Nat.lt_of_le_of_lt (Nat.zero_le 2) hl, ?_⟩
    exact List.forall_mem_singleton.mpr hv

namespace Node

variable {n : Node} {net : Network} {target client value tag : String} {kind : AuditKind}
  {payload : Bytes}

theorem run_announceEntry_of_disabled (h : (n.registry.query n.storage target kind).1 = none) :
    n.run (announceEntry net target kind client value) =
      (.ok false, { n with registry := (n.registry.query n.storage target kind).2 }) := by
  have hq : n.run (queryRegistry target kind) =
      (.ok none, { n with registry := (n.registry.query n.storage target kind).2 }) :=
    Prod.ext (congrArg Except.ok h) rfl
  rw [announceEntry, run_bind, hq]
  rfl

theorem exists_run_announceEntry_of_encodes
    (h : (n.registry.query n.storage target kind).1 = some tag)
    (hw : let e : AuditEntry := { target, time := n.clock.next, client, kind, value }
      Wire.writeBatch Protocol.current [e.addition n.clock.read.2.next] = .ok payload) :
    ∃ n', n.run (announceEntry net target kind client value) = (.ok true, n') := by
  let n₁ := { n with registry := (n.registry.query n.storage target kind).2 }
  let n₂ := { n₁ with clock := n.clock.read.2 }
  let n₃ := { n₂ with clock := n.clock.read.2.read.2 }
  have hq : n.run (queryRegistry target kind) = (.ok (some tag), n₁) :=
    Prod.ext (congrArg Except.ok h) rfl
  have ht : n₁.run readClock = (.ok n.clock.next, n₂) := rfl
  have ht' : n₂.run readClock = (.ok n.clock.read.2.next, n₃) := rfl
  obtain ⟨targets, n₄, hp⟩ : ∃ targets n₄, n₃.run (push net _) = (.ok targets, n₄) :=
    ⟨_, _, run_push_eq_ok_iff.mpr ⟨rfl, payload, hw, rfl⟩⟩
  refine ⟨n₄, run_bind_eq_ok_iff.mpr ⟨_, n₁, hq, ?_⟩⟩
  refine run_bind_eq_ok_iff.mpr ⟨_, n₂, ht, run_bind_eq_ok_iff.mpr ⟨_, n₃, ht', ?_⟩⟩
  exact run_bind_eq_ok_iff.mpr ⟨_, n₄, run_map_eq_ok_iff.mpr ⟨targets, hp, rfl⟩, rfl⟩

-- That the payload is read back is said of values shorter than 2 GiB. The length field holds no
-- more, which `Wire.countLimit` stands for.
theorem announceEntry_delivers (n : Node) (net : Network) (target : String) (kind : AuditKind)
    (client value : String) :
    let e : AuditEntry := { target, time := n.clock.next, client, kind, value }
    let mutation := e.addition n.clock.read.2.next
    let tag := (n.registry.query n.storage target kind).1
    let announced := n.run (announceEntry net target kind client value)
    (tag = none → announced.1 = .ok false ∧ announced.2.outbox = n.outbox) ∧
    ∀ payload, tag.isSome → Wire.writeBatch Protocol.current [mutation] = .ok payload →
      announced.1 = .ok true ∧
      (∃ recipients, net.Delivers n.address (Utf8.encode target) recipients ∧
        announced.2.outbox =
          n.outbox ++ n.copies (.plain .definitionsUpdate payload) recipients) ∧
      ((Utf8.encode value).length < Wire.countLimit →
        Wire.run (Wire.readBatch Protocol.current) payload = .ok [mutation]) := by
  intro e mutation tag announced
  constructor
  case left =>
    intro ht
    have ha : announced = _ := run_announceEntry_of_disabled ht
    rw [ha]
    exact ⟨rfl, rfl⟩
  case right =>
    intro payload ht hw
    have ⟨_, ht⟩ := Option.isSome_iff_exists.mp ht
    have ⟨n', hr⟩ : ∃ n', n.run (announceEntry net target kind client value) = (.ok true, n') :=
      exists_run_announceEntry_of_encodes ht hw
    obtain ⟨-, payload', hw', ho⟩ := run_announceEntry_eq_ok_true hr
    obtain rfl : payload = payload' := Except.ok.inj (hw.symm.trans hw')
    have ha : announced = (.ok true, n') := hr
    rw [ha]
    refine ⟨rfl, ⟨_, net.delivers_pushTargets n.address _, ho⟩, fun hv => ?_⟩
    have hb : ∀ m ∈ [mutation], m.Bounded :=
      List.forall_mem_singleton.mpr (AuditEntry.bounded_addition hv)
    have hl : 1 < Wire.countLimit := by decide
    have reads : Wire.Reads (Wire.readBatch Protocol.current) payload [mutation] :=
      Wire.reads_readBatch hl hb hw
    simpa using reads.run_eq []

-- The local node and a member without a place on the ring are pending and get the entry, a pending
-- member on an older protocol does not.
theorem announceEntry_delivers_of_pending :
    let join (net : Network) (a : Address) (version : Int) (nonReplicating : Bool) :=
      (net.add a version nonReplicating).1
    let member (i : UInt8) : Address := .v4 10 0 0 i
    let net := join (.new 2 0) (member 1) 4 false
    let net := join (join net (member 2) 5 false) (member 3) Protocol.current false
    let net := join (join net (member 4) Protocol.current false) (member 5) Protocol.current true
    let net := ((net.addPending (member 1)).addPending (member 2)).addPending (member 5)
    let n := (idle (member 1) .standard ∅ "node" ⟨1000, 0, 0⟩ 0).run
      (addToRegistry "app.users" .tableAltered "on") |>.2
    let e : AuditEntry := ⟨"app.users", n.clock.next, "bob", .tableAltered, "x=1;"⟩
    let mutation := e.addition n.clock.read.2.next
    let announced := n.run (announceEntry net "app.users" .tableAltered "bob" "x=1;")
    ∃ payload recipients, Wire.writeBatch Protocol.current [mutation] = .ok payload ∧
      announced.1 = .ok true ∧ net.Delivers n.address (Utf8.encode "app.users") recipients ∧
      announced.2.outbox = n.outbox ++ n.copies (.plain .definitionsUpdate payload) recipients ∧
      Wire.run (Wire.readBatch Protocol.current) payload = .ok [mutation] ∧
      member 1 ∈ recipients ∧ member 2 ∉ recipients ∧ member 5 ∈ recipients := by
  intro join member net net net net n e mutation announced
  have ht : (n.registry.query n.storage "app.users" .tableAltered).1.isSome := by decide +kernel
  have ⟨payload, hw⟩ := isOk_iff.mp
    (show (Wire.writeBatch Protocol.current [mutation]).isOk = true by decide +kernel)
  have hv : (Utf8.encode "x=1;").length < Wire.countLimit := by decide +kernel
  have hp : net.pendingReplicas = [member 1, member 2, member 5] := by decide +kernel
  have hl : net.version (member 2) < Protocol.current := by decide +kernel
  have hl' : Protocol.current ≤ net.version (member 5) := by decide +kernel
  have ha : n.address = member 1 := rfl
  clear_value n net
  have ⟨_, h⟩ := announceEntry_delivers n net "app.users" .tableAltered "bob" "x=1;"
  have ⟨hs, ⟨recipients, hd, ho⟩, hr⟩ := h payload ht hw
  refine ⟨payload, recipients, hw, hs, hd, ho, hr hv, ?_, ?_, ?_⟩
  · exact (hd.mem_iff _).mpr ⟨.inr (hp ▸ .head _), .inl ha.symm⟩
  · intro hm
    have hs : member 2 = n.address ∨ Protocol.current ≤ net.version (member 2) :=
      ((hd.mem_iff _).mp hm).right
    rw [ha] at hs
    exact hs.elim (by decide) (Int.not_le.mpr hl)
  · exact (hd.mem_iff _).mpr ⟨.inr (hp ▸ by simp), .inr hl'⟩

end Node
end ClusterMetadata
