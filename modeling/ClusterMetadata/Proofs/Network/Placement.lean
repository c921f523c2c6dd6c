import ClusterMetadata.Proofs.Network.Replicas
import Mathlib.Data.List.Rotate

/-!
Where on the ring the replicas of a token are. They are the first members from the first position at
or after the token on, going on at the start of the ring where it ends. A member that joins finds its
place among them or stays outside, and the others move no further than it pushes them
(`replicas_follow_ring`).
-/

namespace ClusterMetadata

-- What becomes of a list of at most `limit` members when one more turns up.
inductive TakesIn {α : Type} (limit : Nat) (a : α) : List α → List α → Prop
  | unchanged (as) : TakesIn limit a as as
  | inserted (as bs) (room : (as ++ bs).length < limit) :
    TakesIn limit a (as ++ bs) (as ++ a :: bs)
  -- In a full list the last member makes room.
  | displaced (as bs) (last) (full : (as ++ bs ++ [last]).length = limit) :
    TakesIn limit a (as ++ bs ++ [last]) (as ++ a :: bs)

namespace TakesIn

variable {α β : Type} {limit : Nat} {a : α} {as bs : List α}

theorem map (h : TakesIn limit a as bs) (f : α → β) :
    TakesIn limit (f a) (as.map f) (bs.map f) := by
  cases h
  case unchanged => exact .unchanged _
  case inserted bs cs room =>
    simp only [List.map_append, List.map_cons]
    exact .inserted _ _ (by simpa using room)
  case displaced bs cs last full =>
    simp only [List.map_append, List.map_cons, List.map_nil]
    exact .displaced _ _ _ (by simpa using full)

theorem take (limit : Nat) (a : α) (as bs : List α) :
    TakesIn limit a ((as ++ bs).take limit) ((as ++ a :: bs).take limit) := by
  by_cases ha : limit ≤ as.length
  case pos =>
    rw [List.take_append_of_le_length ha, List.take_append_of_le_length ha]
    exact .unchanged _
  case neg =>
    obtain ⟨k, rfl⟩ : ∃ k, limit = as.length + (k + 1) := ⟨limit - as.length - 1, by omega⟩
    rw [List.take_length_add_append, List.take_length_add_append, List.take_succ_cons]
    by_cases hb : bs.length ≤ k
    case pos =>
      rw [List.take_of_length_le hb, List.take_of_length_le (Nat.le_succ_of_le hb)]
      exact .inserted as bs (by rw [List.length_append]; omega)
    case neg =>
      have hk : k < bs.length := Nat.lt_of_not_le hb
      rw [List.take_succ_eq_append_getElem hk, ← List.append_assoc]
      refine .displaced _ _ _ ?_
      simp only [List.length_append, List.length_take, List.length_singleton]
      omega

end TakesIn

namespace Ring

variable {ring ring' : Ring} {p q r : Int64 × Address} {t : Int64}

theorem precedes_iff :
    precedes p q = true ↔ p.1 < q.1 ∨ p.1 = q.1 ∧ (compare p.2 q.2).isLE := by
  simp [precedes]

theorem fst_le_of_precedes (h : precedes p q = true) : p.1 ≤ q.1 := by
  rcases precedes_iff.mp h with h | h
  · exact Std.le_of_lt h
  · exact h.left ▸ Std.le_refl _

theorem precedes_trans (h : precedes p q = true) (h' : precedes q r = true) :
    precedes p r = true := by
  rw [precedes_iff] at h h' ⊢
  rcases h with h | h <;> rcases h' with h' | h'
  · exact .inl (Std.lt_trans h h')
  · exact .inl (h'.left ▸ h)
  · exact .inl (h.left ▸ h')
  · exact .inr ⟨h.left.trans h'.left, Std.TransCmp.isLE_trans h.right h'.right⟩

theorem precedes_total (p q : Int64 × Address) : (precedes p q || precedes q p) = true := by
  rw [Bool.or_eq_true, precedes_iff, precedes_iff]
  rcases Std.lt_trichotomy p.1 q.1 with h | h | h
  · exact .inl (.inl h)
  · by_cases ha : (compare p.2 q.2).isLE
    case pos => exact .inl (.inr ⟨h, ha⟩)
    case neg =>
      have ha : compare q.2 p.2 = .lt := Std.OrientedCmp.lt_of_not_isLE ha
      exact .inr (.inr ⟨h.symm, by rw [ha]; rfl⟩)
  · exact .inr (.inl h)

theorem precedes_antisymm (h : precedes p q = true) (h' : precedes q p = true) : p = q := by
  have ht := Std.le_antisymm (fst_le_of_precedes h) (fst_le_of_precedes h')
  rw [precedes_iff] at h h'
  simp only [ht, Std.lt_irrefl, true_and, false_or] at h h'
  refine Prod.ext ht (Std.LawfulEqOrd.eq_of_compare ?_)
  exact Std.OrientedCmp.isLE_antisymm h h'

-- In the order of the tokens, and of the addresses where tokens are equal.
def Sorted (ring : Ring) : Prop := ring.Pairwise (precedes · ·)

theorem sorted_ofMembers (members : List Address) : (ofMembers members).Sorted := by
  have trans (p q r) (h : precedes p q = true) (h' : precedes q r = true) :
      precedes p r = true := precedes_trans h h'
  exact List.pairwise_mergeSort trans precedes_total _

theorem Sorted.eq_of_perm (h : ring.Sorted) (h' : ring'.Sorted) (hp : ring.Perm ring') :
    ring = ring' := by
  have antisymm (p q) (_ : p ∈ ring) (_ : q ∈ ring') (h : precedes p q = true)
      (h' : precedes q p = true) : p = q := precedes_antisymm h h'
  exact List.Perm.eq_of_pairwise antisymm h h' hp

-- The positions before the token come before the others.
theorem Sorted.exists_split (h : ring.Sorted) (t : Int64) : ∃ before after,
    ring = before ++ after ∧ (∀ p ∈ before, p.1 < t) ∧ ∀ p ∈ after, t ≤ p.1 := by
  induction ring
  case nil => exact ⟨[], [], rfl, nofun, nofun⟩
  case cons p ring hi =>
    obtain ⟨hp, hr⟩ := List.pairwise_cons.mp h
    by_cases ht : t ≤ p.1
    case pos =>
      refine ⟨[], p :: ring, rfl, nofun, List.forall_mem_cons.mpr ⟨ht, fun q hq => ?_⟩⟩
      exact Std.le_trans ht (fst_le_of_precedes (hp q hq))
    case neg =>
      obtain ⟨before, after, rfl, hb, ha⟩ := hi hr
      exact ⟨p :: before, after, rfl, List.forall_mem_cons.mpr ⟨Std.not_le.mp ht, hb⟩, ha⟩

theorem Sorted.startingAt_eq_rotate (h : ring.Sorted) (t : Int64) :
    ring.startingAt t = ring.rotate (ring.findIdx (t ≤ ·.1)) := by
  obtain ⟨before, after, rfl, hb, ha⟩ := h.exists_split t
  have hb' : ∀ p ∈ before, ¬t ≤ p.1 := fun p hp => Std.not_le.mpr (hb p hp)
  have ha' : ∀ p ∈ after, ¬p.1 < t := fun p hp => Std.not_lt.mpr (ha p hp)
  have start : (before ++ after).findIdx (t ≤ ·.1) = before.length := by
    have hn : before.findIdx (t ≤ ·.1) = before.length :=
      List.findIdx_eq_length.mpr fun p hp => decide_eq_false (hb' p hp)
    have hz : after.findIdx (t ≤ ·.1) = 0 := by
      cases after
      case nil      => rfl
      case cons p _ => simp [List.findIdx_cons, ha p List.mem_cons_self]
    simp [List.findIdx_append, hn, hz]
  have later : (before ++ after).filter (t ≤ ·.1) = after := by
    rw [List.filter_append, List.filter_eq_nil_iff.mpr (by simpa using hb),
      List.filter_eq_self.mpr (by simpa using ha), List.nil_append]
  have earlier : (before ++ after).filter (·.1 < t) = before := by
    rw [List.filter_append, List.filter_eq_self.mpr (by simpa using hb),
      List.filter_eq_nil_iff.mpr (by simpa using ha), List.append_nil]
  rw [start, List.rotate_append_length_eq, startingAt, later, earlier]

-- Seen from the token too, one position more stands at one place.
theorem startingAt_insert (before after : Ring) (p : Int64 × Address) (t : Int64) :
    ∃ as bs, (before ++ after : Ring).startingAt t = as ++ bs ∧
      (before ++ p :: after : Ring).startingAt t = as ++ p :: bs := by
  simp only [startingAt, List.filter_append]
  by_cases ht : t ≤ p.1
  case pos =>
    refine ⟨before.filter (t ≤ ·.1), after.filter (t ≤ ·.1) ++ (before.filter (·.1 < t) ++
      after.filter (·.1 < t)), ?_⟩
    have hl : ¬p.1 < t := Std.not_lt.mpr ht
    simp [ht, hl]
  case neg =>
    refine ⟨before.filter (t ≤ ·.1) ++ after.filter (t ≤ ·.1) ++ before.filter (·.1 < t),
      after.filter (·.1 < t), ?_⟩
    have hl : p.1 < t := Std.not_le.mp ht
    simp [ht, hl]

theorem takesIn_replicas (before after : Ring) (p : Int64 × Address) (limit : Nat) (t : Int64) :
    TakesIn limit p.2 (replicas (before ++ after) limit t)
      (replicas (before ++ p :: after) limit t) := by
  obtain ⟨as, bs, old, new⟩ := startingAt_insert before after p t
  rw [replicas, replicas, old, new]
  exact (TakesIn.take limit p as bs).map _

-- Two rings of which one has one member more differ in the place of that member.
theorem Sorted.exists_insert (h : ring.Sorted) (h' : ring'.Sorted) (hp : ring'.Perm (p :: ring)) :
    ∃ before after, ring = before ++ after ∧ ring' = before ++ p :: after := by
  obtain ⟨before, after, rfl⟩ := List.append_of_mem (hp.mem_iff.mpr List.mem_cons_self)
  have rest : (before ++ after).Perm ring := (List.perm_middle.symm.trans hp).cons_inv
  have sorted : Sorted (before ++ after) :=
    h'.sublist ((List.Sublist.refl before).append (List.sublist_cons_self p after))
  exact ⟨before, after, (sorted.eq_of_perm h rest).symm, rfl⟩

end Ring

namespace Network

variable {net net' : Network} {a : Address}

theorem sorted_ring (net : Network) : net.ring.Sorted := Ring.sorted_ofMembers _

theorem ring_perm (net : Network) : net.ring.Perm (net.replicating.map Ring.position) :=
  List.mergeSort_perm ..

theorem naturalReplicas_eq (net : Network) (t : Int64) : net.naturalReplicas t =
    ((net.ring.rotate (net.ring.findIdx (t ≤ ·.1))).take net.replicationFactor).map (·.2) := by
  rw [naturalReplicas, Ring.replicas, net.sorted_ring.startingAt_eq_rotate]

-- A member with a place on the ring is there once, whether it is new or not.
theorem mem_replicating_add {a' : Address} {version : Int} :
    a' ∈ (net.add a version false).1.replicating ↔ a' = a ∨ a' ∈ net.replicating := by
  simp only [mem_replicating, add, Std.ExtTreeMap.getElem?_insert,
    Std.LawfulEqOrd.compare_eq_iff_eq]
  by_cases ha : a = a'
  case pos => simp [ha, Member.new]
  case neg => simp [ha, Ne.symm ha]

theorem takesIn_naturalReplicas (net : Network) (a : Address) (version : Int) (t : Int64) :
    TakesIn net.replicationFactor a (net.naturalReplicas t)
      ((net.add a version false).1.naturalReplicas t) := by
  let net' := (net.add a version false).1
  have members : ∀ a', a' ∈ net'.replicating ↔ a' = a ∨ a' ∈ net.replicating :=
    fun _ => mem_replicating_add
  change TakesIn _ a _ (net'.ring.replicas net.replicationFactor t)
  by_cases ha : a ∈ net.replicating
  case pos =>
    have same : net'.replicating.Perm net.replicating :=
      (List.perm_ext_iff_of_nodup net'.nodup_replicating net.nodup_replicating).mpr fun a' =>
        (members a').trans (or_iff_right_of_imp fun h => h ▸ ha)
    have ring : net'.ring = net.ring := net'.sorted_ring.eq_of_perm net.sorted_ring
      ((net'.ring_perm.trans (same.map _)).trans net.ring_perm.symm)
    rw [ring]
    exact .unchanged _
  case neg =>
    have more : net'.replicating.Perm (a :: net.replicating) :=
      (List.perm_ext_iff_of_nodup net'.nodup_replicating
        (List.nodup_cons.mpr ⟨ha, net.nodup_replicating⟩)).mpr fun a' =>
          (members a').trans List.mem_cons.symm
    have ring : net'.ring.Perm (Ring.position a :: net.ring) :=
      (net'.ring_perm.trans (more.map _)).trans (net.ring_perm.symm.cons _)
    obtain ⟨before, after, old, new⟩ := net.sorted_ring.exists_insert net'.sorted_ring ring
    rw [naturalReplicas, old, new]
    exact Ring.takesIn_replicas before after (Ring.position a) _ t

-- In every state of a network the replicas of a token are as many of the members with a place on the
-- ring as there are to be, each once, going around the ring from the token on.
theorem replicas_follow_ring (factor capacity : Nat) (members : SortedMap Address Member)
    (pending : SortedMap Address Unit) (sent : List SentMessage) (t : Int64) :
    let net : Network := { Network.new factor capacity with members, pending, sent }
    let replicas := net.naturalReplicas t
    (replicas.length = min (max factor 1) net.replicating.length ∧ replicas.Nodup ∧
      replicas ⊆ net.replicating) ∧
    (∃ ring : Ring, ring.Sorted ∧ ring.Perm (net.replicating.map Ring.position) ∧
      replicas = ((ring.rotate (ring.findIdx (t ≤ ·.1))).take (max factor 1)).map (·.2)) ∧
    ∀ a version, TakesIn (max factor 1) a replicas
      ((net.add a version false).1.naturalReplicas t) := by
  intro net replicas
  refine ⟨⟨length_naturalReplicas, nodup_naturalReplicas, naturalReplicas_subset⟩, ?_, ?_⟩
  · exact ⟨net.ring, net.sorted_ring, net.ring_perm, net.naturalReplicas_eq t⟩
  · exact fun a version => net.takesIn_naturalReplicas a version t

end Network
end ClusterMetadata
