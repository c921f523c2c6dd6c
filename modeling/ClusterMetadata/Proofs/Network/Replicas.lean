import ClusterMetadata.Network.State
import ClusterMetadata.Proofs.SortedMap
import Mathlib.Data.List.Perm.Basic

/-!
The replicas of a key. The natural ones are as many different members of the ring as the replication
factor asks for, and a push addresses those that are on the current protocol, then the pending ones
that are not among them (`pushTargets_eq`).
-/

namespace ClusterMetadata

namespace Ring

variable {ring : Ring} {factor : Nat} {t : Int64}

-- The way around the ring leaves out no position.
theorem startingAt_perm (ring : Ring) (t : Int64) : (ring.startingAt t).Perm ring := by
  have h : ring.filter (·.1 < t) = ring.filter (fun p => !decide (t ≤ p.1)) := by
    refine List.filter_congr fun p _ => ?_
    rw [← decide_not, decide_eq_decide, Int64.not_le]
  rw [startingAt, h]
  exact List.filter_append_perm _ _

theorem length_replicas : (ring.replicas factor t).length = min factor ring.length := by
  rw [replicas, List.length_map, List.length_take, (startingAt_perm ring t).length_eq]

theorem mem_ring_of_mem_replicas {a : Address} (h : a ∈ ring.replicas factor t) :
    a ∈ ring.map (·.2) :=
  ((startingAt_perm ring t).map _).mem_iff.mp (((List.take_sublist ..).map _).mem h)

theorem nodup_replicas (h : (ring.map (·.2)).Nodup) : (ring.replicas factor t).Nodup := by
  refine .sublist ((List.take_sublist ..).map _) ?_
  exact ((startingAt_perm ring t).map _).nodup_iff.mpr h

theorem map_snd_ofMembers_perm (members : List Address) :
    ((ofMembers members).map (·.2)).Perm members := by
  have h := (List.mergeSort_perm (members.map position) precedes).map (·.2)
  rwa [List.map_map, show (fun p : Int64 × Address => p.2) ∘ position = id from rfl, List.map_id]
    at h

end Ring

namespace Network

variable {net : Network} {self a : Address} {key : Bytes} {t : Int64}

-- The members that have a place on the ring.
def replicating (net : Network) : List Address :=
  net.members.toList.filterMap fun (a, m) => if m.nonReplicating then none else some a

theorem map_snd_ring_perm : (net.ring.map (·.2)).Perm net.replicating :=
  Ring.map_snd_ofMembers_perm _

theorem nodup_members (net : Network) : (net.members.toList.map (·.1)).Nodup := by
  rw [Std.ExtTreeMap.map_fst_toList_eq_keys]
  exact Std.ExtTreeMap.nodup_keys

theorem nodup_replicating : net.replicating.Nodup := by
  refine .sublist ?_ net.nodup_members
  rw [replicating]
  generalize net.members.toList = members
  induction members
  case nil => exact .slnil
  case cons m members hi =>
    rw [List.filterMap_cons, List.map_cons]
    cases hr : m.2.nonReplicating
    case true  => simpa [hr] using hi.cons m.1
    case false => simpa [hr] using hi

theorem mem_replicating :
    a ∈ net.replicating ↔ ∃ m, net.members[a]? = some m ∧ m.nonReplicating = false := by
  simp only [replicating, List.mem_filterMap, Prod.exists,
    Std.ExtTreeMap.mem_toList_iff_getElem?_eq_some]
  constructor
  case mp =>
    rintro ⟨a', m, hm, hs⟩
    cases hr : m.nonReplicating
    case true  => simp [hr] at hs
    case false =>
      simp only [hr, Bool.false_eq_true, if_false, Option.some.injEq] at hs
      exact ⟨m, hs ▸ hm, hr⟩
  case mpr =>
    rintro ⟨m, hm, hr⟩
    exact ⟨a, m, hm, by simp [hr]⟩

theorem nodup_ring : (net.ring.map (·.2)).Nodup :=
  map_snd_ring_perm.nodup_iff.mpr nodup_replicating

theorem nodup_naturalReplicas : (net.naturalReplicas t).Nodup :=
  Ring.nodup_replicas nodup_ring

theorem length_naturalReplicas : (net.naturalReplicas t).length =
    min net.replicationFactor net.replicating.length := by
  rw [← map_snd_ring_perm.length_eq, List.length_map]
  exact Ring.length_replicas

-- Only members that have a place on the ring.
theorem naturalReplicas_subset : net.naturalReplicas t ⊆ net.replicating :=
  fun _ h => map_snd_ring_perm.mem_iff.mp (Ring.mem_ring_of_mem_replicas h)

theorem nodup_pendingReplicas : net.pendingReplicas.Nodup :=
  Std.ExtTreeMap.nodup_keys

-- The local node, whatever it has told, and the members on the current protocol.
def isAddressable (net : Network) (self a : Address) : Bool :=
  a = self ∨ Protocol.current ≤ net.version a

-- Each once already.
theorem eraseDups_of_nodup {as : List Address} (h : as.Nodup) : as.eraseDups = as := by
  induction as
  case nil => rfl
  case cons a as hi =>
    have ⟨ha, has⟩ := List.nodup_cons.mp h
    have hf : as.filter (fun b => !b == a) = as :=
      List.filter_eq_self.mpr fun b hb => by simpa using ne_of_mem_of_not_mem hb ha
    rw [List.eraseDups_cons, hf, hi has]

theorem pushTargets_eq : net.pushTargets self key =
    (net.naturalReplicas (token key)).filter (net.isAddressable self) ++
      (net.pendingReplicas.filter fun a => a ∉ net.naturalReplicas (token key)).filter
        (net.isAddressable self) := by
  rw [pushTargets, List.eraseDups_append, List.filter_append]
  have hp : net.pendingReplicas.removeAll (net.naturalReplicas (token key)) =
      net.pendingReplicas.filter fun a => a ∉ net.naturalReplicas (token key) :=
    List.filter_congr fun a _ => by simp
  rw [hp, eraseDups_of_nodup nodup_naturalReplicas,
    eraseDups_of_nodup (nodup_pendingReplicas.filter _)]
  rfl

end Network
end ClusterMetadata
