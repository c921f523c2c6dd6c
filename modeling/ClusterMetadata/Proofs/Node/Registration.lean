import ClusterMetadata.Node.Announce
import ClusterMetadata.Node.Start
import ClusterMetadata.Proofs.Audit.Addition
import ClusterMetadata.Proofs.Node.Push
import ClusterMetadata.Proofs.Uuid
import ClusterMetadata.Proofs.Wire.Limits

/-!
Changes of the registry announced by a node. A change is made here before it is written for the
others, so one that fails has changed nothing here if the storage refused it, and all that it was
meant to change if it does not fit on the wire (`RegistryChange.failed_run`).
-/

namespace ClusterMetadata

namespace Registry

variable {r : Registry} {s : Storage} {target tag : String} {kind : AuditKind} {timestamp : Int64}
  {d : DeletionTime}

theorem add_of_failing (hf : s.failing = true) :
    r.add s target kind tag timestamp = .error .writeFailure := by
  rw [add, addition, Storage.apply, Mutation.toList_families_singleton]
  simp [Storage.modify, Row.write, hf]

theorem drop_of_failing (hf : s.failing = true) : r.drop s target d = .error .writeFailure := by
  rw [drop, removal, Storage.apply, Mutation.toList_families_singleton]
  simp [Storage.modify, hf]

theorem fits_addition : (addition target kind tag timestamp).Fits ↔
    (Utf8.encode target).length < Wire.shortLimit ∧
      (Utf8.encode kind.code).length + 15 < Wire.shortLimit := by
  have hs : (Utf8.encode Catalog.system).length < Wire.shortLimit := by decide +kernel
  have hr : (Utf8.encode Catalog.registry).length < Wire.shortLimit := by decide +kernel
  have hm : Wire.nameLength [kind.code, Row.marker] = (Utf8.encode kind.code).length + 6 := rfl
  have ht : Wire.nameLength [kind.code, adminTag] = (Utf8.encode kind.code).length + 15 := rfl
  simp only [addition, Row.write, CellName.child, Mutation.fits_ofFamilies_singleton, hs, hr,
    List.map_cons, List.map_nil, List.cons_append, List.nil_append, List.forall_mem_cons,
    Modification.path, hm, ht, true_and]
  refine and_congr_right fun _ => ⟨fun h => h.right.left, fun h => ⟨?_, h, by simp⟩⟩
  omega

theorem fits_removal :
    (removal target d).Fits ↔ (Utf8.encode target).length < Wire.shortLimit := by
  have hs : (Utf8.encode Catalog.system).length < Wire.shortLimit := by decide +kernel
  have hr : (Utf8.encode Catalog.registry).length < Wire.shortLimit := by decide +kernel
  have hp : Wire.nameLength [] < Wire.shortLimit := by decide
  simp [removal, Mutation.fits_ofFamilies_singleton, Modification.path, hs, hr, hp]

end Registry

namespace Node

variable {n n' : Node} {net : Network} {batch : List Mutation} {e : Failure}

theorem run_map_eq_error_iff {α β : Type} {x : NodeM α} (g : α → β) :
    n.run (g <$> x) = (.error e, n') ↔ n.run x = (.error e, n') := by
  rw [run_map]
  cases n.run x
  case mk result n₁ => cases result <;> simp

-- Nothing is sent if there is somebody to tell and the batch cannot be written.
theorem run_broadcast_eq_error_iff : n.run (broadcast net batch) = (.error e, n') ↔
    net.broadcastTargets n.address ≠ [] ∧
      ∃ e', Wire.writeBatch Protocol.current batch = .error e' ∧ e = .wire e' ∧ n' = n := by
  simp only [broadcast, definitionsMessage, bind_assoc, pure_bind, run_bind, run_get,
    List.isEmpty_iff]
  by_cases ht : net.broadcastTargets n.address = []
  case pos => simp [ht]
  case neg =>
    cases hw : Wire.writeBatch Protocol.current batch
    case error e' => simp [ht, lift, run_bind, eq_comm]
    case ok payload =>
      simp only [ht, if_false, lift, run_bind, run_pure, run_sendFreshAll]
      simp

variable {target tag : String} {kind : AuditKind}

theorem run_addToRegistry : n.run (addToRegistry target kind tag) =
    match n.registry.add n.storage target kind tag n.clock.next with
    | .error e                   => (.error (.storage e), { n with clock := n.clock.read.2 })
    | .ok (m, registry, storage) =>
      (.ok m, { n with clock := n.clock.read.2, registry, storage }) := by
  have hread : n.run readClock = (.ok n.clock.next, { n with clock := n.clock.read.2 }) := rfl
  rw [addToRegistry, run_bind, hread]
  change Node.run _
    (lift .storage (n.registry.add n.storage target kind tag n.clock.next) >>= _) = _
  cases n.registry.add n.storage target kind tag n.clock.next <;> rfl

theorem run_dropFromRegistry : n.run (dropFromRegistry target) =
    match n.registry.drop n.storage target ⟨n.clock.next, n.clock.read.2.seconds⟩ with
    | .error e                   => (.error (.storage e), { n with clock := n.clock.read.2 })
    | .ok (m, registry, storage) =>
      (.ok m, { n with clock := n.clock.read.2, registry, storage }) := by
  have hread : n.run (readClock >>= deletionAt) =
      (.ok ⟨n.clock.next, n.clock.read.2.seconds⟩, { n with clock := n.clock.read.2 }) := rfl
  rw [dropFromRegistry, ← bind_assoc, run_bind, hread]
  change Node.run _ (lift .storage (n.registry.drop n.storage target _) >>= _) = _
  cases n.registry.drop n.storage target ⟨n.clock.next, n.clock.read.2.seconds⟩ <;> rfl

end Node

inductive RegistryChange where
  | addition (target : String) (kind : AuditKind) (tag : String)
  | removal (target : String)

namespace RegistryChange

open Node

variable {c : RegistryChange} {n n' : Node} {net : Network} {e : Failure}

-- The change on the node itself.
def make : RegistryChange → NodeM Mutation
  | addition target kind tag => addToRegistry target kind tag
  | removal target           => dropFromRegistry target

def run (net : Network) : RegistryChange → NodeM Unit
  | addition target kind tag => updateRegistry net target kind tag
  | removal target           => dropRegistry net target

theorem run_eq : c.run net = c.make >>= fun m => (fun _ => ()) <$> broadcast net [m] := by
  cases c <;> rfl

-- The target is the key of the entry, and the code of the kind is part of its cell names.
def Fits : RegistryChange → Prop
  | addition target kind _ => (Utf8.encode target).length < Wire.shortLimit ∧
      (Utf8.encode kind.code).length + 15 < Wire.shortLimit
  | removal target => (Utf8.encode target).length < Wire.shortLimit

theorem run_make_of_failing (hf : n.storage.failing = true) :
    n.run c.make = (.error (.storage .writeFailure), { n with clock := n.clock.read.2 }) := by
  cases c
  case addition target kind tag => rw [make, run_addToRegistry, Registry.add_of_failing hf]
  case removal target           => rw [make, run_dropFromRegistry, Registry.drop_of_failing hf]

theorem exists_run_make (hf : n.storage.failing = false) :
    ∃ m registry storage, (m.Fits ↔ c.Fits) ∧
      n.run c.make = (.ok m, { n with clock := n.clock.read.2, registry, storage }) := by
  cases c
  case addition target kind tag =>
    have ⟨storage, hs⟩ := Storage.exists_apply_eq_ok hf
      (Registry.addition target kind tag n.clock.next)
    have ha : n.registry.add n.storage target kind tag n.clock.next =
        .ok (_, n.registry.learn target kind.code tag, storage) :=
      bind_eq_ok_iff.mpr ⟨storage, hs, rfl⟩
    exact ⟨_, _, _, Registry.fits_addition, by rw [make, run_addToRegistry, ha]⟩
  case removal target =>
    have ⟨storage, hs⟩ := Storage.exists_apply_eq_ok hf
      (Registry.removal target ⟨n.clock.next, n.clock.read.2.seconds⟩)
    have hd : n.registry.drop n.storage target ⟨n.clock.next, n.clock.read.2.seconds⟩ =
        .ok (_, n.registry.invalidate target, storage) :=
      bind_eq_ok_iff.mpr ⟨storage, hs, rfl⟩
    exact ⟨_, _, _, Registry.fits_removal, by rw [make, run_dropFromRegistry, hd]⟩

-- A change fails in one of two ways: the storage refuses it and nothing happens, or it has been
-- made here when it turns out not to fit into the message that tells the others.
theorem failed_run (h : n.run (c.run net) = (.error e, n')) :
    n.storage.failing = true ∧ n' = { n with clock := n.clock.read.2 } ∨
      n.storage.failing = false ∧ net.broadcastTargets n.address ≠ [] ∧ ¬c.Fits ∧
        (∃ e', e = .wire e') ∧ n' = (n.run c.make).2 := by
  rw [run_eq, run_bind] at h
  cases hf : n.storage.failing
  case true =>
    rw [run_make_of_failing hf] at h
    cases h
    exact .inl ⟨rfl, rfl⟩
  case false =>
    have ⟨m, registry, storage, fits, hm⟩ := exists_run_make (c := c) hf
    simp only [hm] at h
    have ⟨ht, e', hw, he, hn⟩ := run_broadcast_eq_error_iff.mp ((run_map_eq_error_iff _).mp h)
    have unwritable : ¬c.Fits := by
      rw [← fits, ← List.forall_mem_singleton (p := Mutation.Fits), ← Wire.isOk_writeBatch, hw]
      exact nofun
    exact .inr ⟨rfl, ht, unwritable, ⟨e', he⟩, by rw [hn, hm]⟩

theorem exists_failed_run (hf : n.storage.failing = false)
    (ht : net.broadcastTargets n.address ≠ []) (hc : ¬c.Fits) :
    ∃ e', n.run (c.run net) = (.error (.wire e'), (n.run c.make).2) := by
  have ⟨m, registry, storage, fits, hm⟩ := exists_run_make (c := c) hf
  have hw : (Wire.writeBatch Protocol.current [m]).isOk = false := by
    rwa [← Bool.not_eq_true, Wire.isOk_writeBatch, List.forall_mem_singleton, fits]
  have ⟨e', hw⟩ := exists_of_isOk_eq_false hw
  refine ⟨e', ?_⟩
  rw [run_eq, run_bind, hm]
  exact (run_map_eq_error_iff _).mpr (run_broadcast_eq_error_iff.mpr ⟨ht, e', hw, rfl, rfl⟩)

-- A change that fails leaves the answers of the registry and all that is stored for it as they
-- were if it could have been written for the others or there are none. Otherwise the node is as it
-- would be had the change succeeded, but for the messages.
theorem registry_of_failed_run (h : n.run (c.run net) = (.error e, n')) :
    (c.Fits ∨ net.broadcastTargets n.address = [] ∨ n.storage.failing = true →
      (∀ target kind, (n'.registry.query n'.storage target kind).1 =
          (n.registry.query n.storage target kind).1) ∧
        ∀ target, n'.storage.partition (Registry.partition target) =
          n.storage.partition (Registry.partition target)) ∧
    (¬(c.Fits ∨ net.broadcastTargets n.address = [] ∨ n.storage.failing = true) →
      (∃ e', e = .wire e') ∧ n' = (n.run c.make).2) := by
  rcases failed_run h with ⟨hf, rfl⟩ | ⟨hf, ht, hc, he, hn⟩
  case inl =>
    refine ⟨fun _ => ⟨fun _ _ => rfl, fun _ => rfl⟩, fun hn => ?_⟩
    exact absurd (.inr (.inr hf)) hn
  case inr =>
    refine ⟨fun h => ?_, fun _ => ⟨he, hn⟩⟩
    rcases h with h | h | h
    · exact absurd h hc
    · exact absurd h ht
    · rw [hf] at h
      cases h

-- The storage refuses the entry.
theorem registry_of_failed_run_of_refused :
    let n := idle (.v4 10 0 0 1) .standard ⟨∅, true⟩ "node" ⟨1000, 0, 0⟩ 0
    let c := addition "app.users" .tableAltered "on"
    let net := Network.new 1 0
    ∃ e n', n.run (c.run net) = (.error e, n') ∧
      (c.Fits ∨ net.broadcastTargets n.address = [] ∨ n.storage.failing = true →
        (∀ target kind, (n'.registry.query n'.storage target kind).1 =
            (n.registry.query n.storage target kind).1) ∧
          ∀ target, n'.storage.partition (Registry.partition target) =
            n.storage.partition (Registry.partition target)) ∧
      (¬(c.Fits ∨ net.broadcastTargets n.address = [] ∨ n.storage.failing = true) →
        (∃ e', e = .wire e') ∧ n' = (n.run c.make).2) := by
  intro n c net
  have h : n.run (c.run net) =
      (.error (.storage .writeFailure), { n with clock := n.clock.read.2 }) := by
    rw [run_eq, run_bind, run_make_of_failing rfl]
  exact ⟨_, _, h, registry_of_failed_run h⟩

-- A target of 65536 bytes is one byte too long for the message. The member is told nothing, the
-- change is reported to have failed, and its entry is stored and answered here.
theorem answered_of_long_target :
    let n := idle (.v4 10 0 0 1) .standard ∅ "node" ⟨1000, 0, 0⟩ 0
    let net := ((Network.new 1 0).add (.v4 10 0 0 2) Protocol.current false).1
    let target := String.ofList (List.replicate 65536 'a')
    ∃ e n', n.run (updateRegistry net target .tableAltered "on") = (.error e, n') ∧
      (n.registry.query n.storage target .tableAltered).1 = none ∧
      (n'.registry.query n'.storage target .tableAltered).1 = some "on" ∧
      Registry.tagCell? n.storage target .tableAltered = none ∧
      Registry.tagCell? n'.storage target .tableAltered = some ⟨Utf8.encode "on", 1000⟩ := by
  intro n net target
  have hl : (Utf8.encode target).length = 65536 := by
    have hs : ∀ c ∈ List.replicate 65536 'a', c.utf8Size = 1 := fun c hc => by
      rw [List.eq_of_mem_replicate hc]
      rfl
    rw [Utf8.length_encode, Uuid.utf8ByteSize_ofList hs, List.length_replicate]
  have ht : net.broadcastTargets n.address ≠ [] := by decide +kernel
  have hn : n.clock.next = 1000 := by decide +kernel
  have hs : n.storage = ∅ := rfl
  have hr : n.registry = ∅ := rfl
  clear_value n net target
  have hc : ¬(addition target .tableAltered "on").Fits := fun h => by
    have hs : (Utf8.encode target).length < 65536 := h.left
    omega
  have ⟨e', hfail⟩ := exists_failed_run (hs ▸ rfl) ht hc
  have ⟨storage, ha⟩ :=
    Storage.exists_apply_eq_ok (s := ∅) rfl (Registry.addition target .tableAltered "on" 1000)
  have hadd : (∅ : Registry).add ∅ target .tableAltered "on" 1000 =
      .ok (_, (∅ : Registry).learn target _ "on", storage) :=
    bind_eq_ok_iff.mpr ⟨storage, ha, rfl⟩
  have before : ((∅ : Storage).partition (Registry.partition target)).IsBefore 1000 := by
    rw [Storage.partition_empty]
    decide +kernel
  have untagged : Registry.tagCell? ∅ target .tableAltered = none := by
    rw [Registry.tagCell?, Storage.partition_empty, Partition.getElem?_cells_empty]
  rw [make, run_addToRegistry, hn, hs, hr, hadd] at hfail
  refine ⟨_, _, hfail, ?_, (Registry.query_add_iff hadd).left, hs ▸ untagged, ?_⟩
  · rw [hs, hr, Registry.agrees_empty.query_fst, Registry.stored, Storage.read,
      Storage.partition_empty]
    rfl
  · rw [Registry.tagCell?_add ha before, if_pos ⟨rfl, rfl⟩]

end RegistryChange
end ClusterMetadata
