import ClusterMetadata.Proofs.Node.Frame

/-!
What goes out when a node tells several members the same: one message to each of them, with the same
payload and each under the next id (`run_push_eq_ok_iff`). The entry of an announcement carries the
first of two readings of the clock as its time, and its cells the second
(`run_announceEntry_eq_ok_true`).
-/

namespace ClusterMetadata

namespace Messenger

variable {κ : Type} {m : Messenger κ} {j k : Nat}

-- The id that is drawn after `k` others.
def idAfter (m : Messenger κ) (k : Nat) : String := toString (m.nextId + .ofNat k).toNat

-- After `k` ids have been drawn.
def skip (m : Messenger κ) (k : Nat) : Messenger κ := { m with nextId := m.nextId + .ofNat k }

theorem skip_zero : m.skip 0 = m := by simp [skip]

theorem fresh_eq : m.fresh = (m.idAfter 0, m.skip 1) := by simp [fresh, idAfter, skip]

theorem idAfter_skip : (m.skip j).idAfter k = m.idAfter (j + k) := by
  simp [idAfter, skip, UInt64.ofNat_add, UInt64.add_assoc]

theorem skip_skip : (m.skip j).skip k = m.skip (j + k) := by
  simp [skip, UInt64.ofNat_add, UInt64.add_assoc]

end Messenger

namespace Node

variable {n n' : Node} {net : Network} {target client value : String} {kind : AuditKind}
  {mutation : Mutation} {targets : List Address} {batch : List Mutation}

-- The same message to each of the members, under the ids that come next.
def copies (n : Node) (m : Message) (targets : List Address) : List Outgoing :=
  targets.mapIdx fun k a => .send a (n.messenger.idAfter k) m

theorem run_sendFresh (n : Node) (m : Message) (a : Address) : n.run (discard (sendFresh m a)) =
    (.ok (), { n with
      messenger := n.messenger.skip 1
      outbox := n.outbox ++ [.send a (n.messenger.idAfter 0) m] }) := by
  have hf : n.run freshId =
      (.ok n.messenger.fresh.1, { n with messenger := n.messenger.fresh.2 }) :=
    rfl
  rw [Messenger.fresh_eq] at hf
  change n.run ((fun _ => PUnit.unit) <$> sendFresh m a) = _
  refine run_map_eq_ok_iff.mpr ⟨n.messenger.idAfter 0, ?_, rfl⟩
  exact run_bind_eq_ok_iff.mpr ⟨_, _, hf, rfl⟩

theorem run_sendFreshAll (n : Node) (m : Message) (targets : List Address) :
    n.run (targets.forM fun a => discard (sendFresh m a)) = (.ok (), { n with
      messenger := n.messenger.skip targets.length
      outbox := n.outbox ++ n.copies m targets }) := by
  induction targets generalizing n
  case nil => simp [copies, Messenger.skip_zero]
  case cons a targets hi =>
    change n.run (discard (sendFresh m a) >>= fun _ => targets.forM _) = _
    simp only [run_bind, run_sendFresh, hi, copies, Messenger.idAfter_skip, Messenger.skip_skip,
      List.mapIdx_cons, List.length_cons, List.append_assoc, List.singleton_append, Nat.add_comm]

theorem run_push_eq_ok_iff : n.run (push net mutation) = (.ok targets, n') ↔
    targets = net.pushTargets n.address mutation.key ∧
      ∃ payload, Wire.writeBatch Protocol.current [mutation] = .ok payload ∧ n' = { n with
        messenger := n.messenger.skip targets.length
        outbox := n.outbox ++ n.copies (.plain .definitionsUpdate payload) targets } := by
  simp only [push, definitionsMessage, bind_assoc, pure_bind, run_bind, run_get]
  cases Wire.writeBatch Protocol.current [mutation]
  case error e => simp [lift]
  case ok payload =>
    simp only [lift, run_pure, run_sendFreshAll, Prod.mk.injEq, Except.ok.injEq]
    grind

theorem run_push_of_error {e : WireError}
    (h : Wire.writeBatch Protocol.current [mutation] = .error e) :
    n.run (push net mutation) = (.error (.wire e), n) := by
  simp only [push, definitionsMessage, bind_assoc, pure_bind, run_bind, run_get, h]
  rfl

-- What an announcement that passes the gate does: the clock is read twice, and the entry goes to
-- the replicas of its target.
theorem run_announceEntry_eq_ok_true
    (h : n.run (announceEntry net target kind client value) = (.ok true, n')) :
    let e : AuditEntry := { target, time := n.clock.next, client, kind, value }
    let mutation := e.addition n.clock.read.2.next
    n'.clock = n.clock.read.2.read.2 ∧
      ∃ payload, Wire.writeBatch Protocol.current [mutation] = .ok payload ∧
        n'.outbox = n.outbox ++ n.copies (.plain .definitionsUpdate payload)
          (net.pushTargets n.address mutation.key) := by
  intro e mutation
  have ⟨tag, n₁, hq, h⟩ := run_bind_eq_ok_iff.mp h
  cases tag
  case none => cases h
  case some tag =>
    obtain rfl : { n with registry := (n.registry.query n.storage target kind).2 } = n₁ :=
      congrArg Prod.snd hq
    have ⟨_, _, ht, h⟩ := run_bind_eq_ok_iff.mp h
    cases ht
    have ⟨_, _, ht, h⟩ := run_bind_eq_ok_iff.mp h
    cases ht
    have ⟨_, n₂, hp, h⟩ := run_bind_eq_ok_iff.mp h
    cases h
    have ⟨_, hp, _⟩ := run_map_eq_ok_iff.mp hp
    obtain ⟨rfl, payload, hw, rfl⟩ := run_push_eq_ok_iff.mp hp
    exact ⟨rfl, payload, hw, rfl⟩

end Node
end ClusterMetadata
