import ClusterMetadata.Proofs.Node.Companions

/-!
What the answer of an announcement says of what was sent. It tells that the registry enables the
entry, and an entry that is enabled still goes nowhere if no replica of its target can be addressed.
So the answers count what was sent just where this does not happen (`announcements_count_sent_iff`).
-/

namespace ClusterMetadata

-- Some replica of the key is the sender itself or on the current protocol.
def Network.Reaches (net : Network) (sender : Address) (key : Bytes) : Prop :=
  ∃ a, (a ∈ net.naturalReplicas (token key) ∨ a ∈ net.pendingReplicas) ∧
    (a = sender ∨ Protocol.current ≤ net.version a)

theorem Network.pushTargets_ne_nil_iff {net : Network} {sender : Address} {key : Bytes} :
    net.pushTargets sender key ≠ [] ↔ net.Reaches sender key := by
  rw [ne_eq, List.eq_nil_iff_forall_not_mem, not_forall_not]
  exact exists_congr (net.delivers_pushTargets sender key).mem_iff

-- A message with this entry and nothing else, whenever it was made.
def Outgoing.Brings (target : String) (kind : AuditKind) (client value : String) : Outgoing → Prop
  | .send _ _ m  => ∃ time timestamp payload,
    Wire.writeBatch Protocol.current
      [({ target, time, client, kind, value : AuditEntry }).addition timestamp] = .ok payload ∧
    m = .plain .definitionsUpdate payload
  | .advertise _ => False

namespace Node

variable {n n' n₁ : Node} {net : Network} {target client value : String} {kind : AuditKind}

theorem exists_eq_send_of_mem_copies {m : Message} {targets : List Address} {o : Outgoing}
    (h : o ∈ n.copies m targets) : ∃ a id, o = .send a id m := by
  obtain ⟨k, hk, rfl⟩ := List.mem_mapIdx.mp h
  exact ⟨_, _, rfl⟩

theorem enables_of_run_announceEntry {sent : Bool}
    (h : (n.run (announceEntry net target kind client value)).1 = .ok sent) :
    sent = n.enables (target, kind) := by
  have hf : (.ok sent : Except Failure Bool) = .ok false ↔ ¬n.enables (target, kind) = true := by
    rw [← h, announceEntry_eq_false_iff, ← Option.not_isSome_iff_eq_none]
    rfl
  cases sent <;> cases hn : n.enables (target, kind) <;> simp [hn] at hf ⊢

-- Whether there is anybody to send the entry to is not asked.
theorem announceEntry_eq_true_iff (n : Node) (net : Network) (target : String) (kind : AuditKind)
    (client value : String) :
    let e : AuditEntry := { target, time := n.clock.next, client, kind, value }
    (n.run (announceEntry net target kind client value)).1 = .ok true ↔
      n.enables (target, kind) = true ∧
      (Wire.writeBatch Protocol.current [e.addition n.clock.read.2.next]).isOk = true := by
  intro e
  constructor
  case mp =>
    intro h
    have ⟨_, payload, hw, _⟩ := run_announceEntry_eq_ok_true (Prod.ext h rfl)
    exact ⟨(enables_of_run_announceEntry h).symm, isOk_iff.mpr ⟨payload, hw⟩⟩
  case mpr =>
    rintro ⟨he, hw⟩
    have ⟨payload, hw⟩ := isOk_iff.mp hw
    have ⟨_, ht⟩ : ∃ tag, (n.registry.query n.storage target kind).1 = some tag :=
      Option.isSome_iff_exists.mp he
    have ⟨n', ran⟩ : ∃ n', n.run (announceEntry net target kind client value) = (.ok true, n') :=
      exists_run_announceEntry_of_encodes ht hw
    exact congrArg Prod.fst ran

theorem outbox_run_announceEntry_of_ne_true
    (h : (n.run (announceEntry net target kind client value)).1 ≠ .ok true) :
    (n.run (announceEntry net target kind client value)).2.outbox = n.outbox := by
  by_cases he : n.enables (target, kind)
  case neg => rw [run_announceEntry_of_disabled (Option.not_isSome_iff_eq_none.mp he)]
  case pos =>
    rw [snd_run_announceEntry_of_enables n net he]
    cases hw : Wire.writeBatch Protocol.current [AuditEntry.addition
      { target, time := n.clock.next, client, kind, value } n.clock.read.2.next]
    case error e    => exact congrArg (·.2.outbox) (run_push_of_error hw)
    case ok payload => exact absurd ((announceEntry_eq_true_iff ..).mpr ⟨he, by rw [hw]; rfl⟩) h

-- An entry goes out if its announcement succeeds and there is a replica to send it to.
theorem exists_outbox_run_announceEntry (n : Node) (net : Network) (target : String)
    (kind : AuditKind) (client value : String) :
    let announced := n.run (announceEntry net target kind client value)
    ∃ os, announced.2.outbox = n.outbox ++ os ∧ (∀ o ∈ os, o.Brings target kind client value) ∧
      (os ≠ [] ↔ announced.1 = .ok true ∧ net.Reaches n.address (Utf8.encode target)) := by
  intro announced
  by_cases ha : announced.1 = .ok true
  case neg =>
    refine ⟨[], ?_, by simp, by simp [ha]⟩
    rw [List.append_nil]
    exact outbox_run_announceEntry_of_ne_true ha
  case pos =>
    have ⟨_, payload, hw, ho⟩ := run_announceEntry_eq_ok_true (Prod.ext ha rfl)
    refine ⟨_, ho, fun o hm => ?_, ?_⟩
    · obtain ⟨a, id, rfl⟩ := exists_eq_send_of_mem_copies hm
      exact ⟨_, _, payload, hw, rfl⟩
    · rw [and_iff_right ha, copies, ne_eq, List.mapIdx_eq_nil_iff]
      exact net.pushTargets_ne_nil_iff

-- To those who announce the node is the same: it sits at the same address and enables the same.
structure SameGate (n n' : Node) : Prop where
  address : n'.address = n.address
  enables : n'.enables = n.enables

namespace SameGate

theorem refl (n : Node) : n.SameGate n := ⟨rfl, rfl⟩

theorem ignoresTalk (n : Node) : IgnoresTalk n.SameGate where
  watches _ _ _ h := ⟨h.address, h.enables⟩
  draws _ h       := ⟨h.address, h.enables⟩
  emits _ _ _ h   := ⟨h.address, h.enables⟩

theorem keeps_queryRegistry (n : Node) (target : String) (kind : AuditKind) :
    Keeps n.SameGate (queryRegistry target kind) := fun n₁ h =>
  ⟨h.address, (enables_withReadings rfl target kind n₁.clock).trans h.enables⟩

theorem run_announceEntry (n : Node) (net : Network) (target : String) (kind : AuditKind)
    (client value : String) :
    n.SameGate (n.run (announceEntry net target kind client value)).2 :=
  keeps_announceEntry (ignoresTalk n) tellsDefinitions_true (keeps_queryRegistry n target kind) net
    client value n (.refl n)

end SameGate

-- What goes out for one entry of a batch.
structure Handed (n : Node) (net : Network) (kind : AuditKind) (client : String)
    (entry : String × String) (os : List Outgoing) : Prop where
  brings     : ∀ o ∈ os, o.Brings entry.1 kind client entry.2
  ne_nil_iff : os ≠ [] ↔
    n.enables (entry.1, kind) = true ∧ net.Reaches n.address (Utf8.encode entry.1)

theorem SameGate.handed (h : n.SameGate n') {entry : String × String} {os : List Outgoing}
    (hs : n'.Handed net kind client entry os) : n.Handed net kind client entry os where
  brings     := hs.brings
  ne_nil_iff := by rw [← h.address, ← h.enables, hs.ne_nil_iff]

theorem handed_of_run_announceEntry {sent : Bool}
    (h : n.run (announceEntry net target kind client value) = (.ok sent, n')) :
    ∃ os, n'.outbox = n.outbox ++ os ∧ n.Handed net kind client (target, value) os := by
  obtain ⟨os, ho, brings, hs⟩ := exists_outbox_run_announceEntry n net target kind client value
  rw [h] at ho hs
  refine ⟨os, ho, brings, hs.trans (and_congr_left' ?_)⟩
  rw [Except.ok.injEq, enables_of_run_announceEntry (congrArg Prod.fst h)]

-- The node that announces the next entry is to it the one that began.
theorem groups_of_run_announceEntries {entries : List (String × String)} {answers : List Bool}
    (h : n.run (entries.mapM fun (target, value) => announceEntry net target kind client value) =
      (.ok answers, n')) :
    answers = entries.map (fun entry => n.enables (entry.1, kind)) ∧
      ∃ groups, n'.outbox = n.outbox ++ groups.flatten ∧
        List.Forall₂ (n.Handed net kind client) entries groups := by
  induction entries generalizing n answers
  case nil =>
    cases h
    exact ⟨rfl, [], (List.append_nil _).symm, .nil⟩
  case cons entry entries hi =>
    obtain ⟨target, value⟩ := entry
    rw [List.mapM_cons] at h
    obtain ⟨sent, n₁, first, h⟩ := run_bind_eq_ok_iff.mp h
    obtain ⟨rest, n₂, others, h⟩ := run_bind_eq_ok_iff.mp h
    cases h
    have first : n.run (announceEntry net target kind client value) = (.ok sent, n₁) := first
    have same : n.SameGate n₁ := by
      simpa only [first] using SameGate.run_announceEntry n net target kind client value
    obtain ⟨os, ho, handed⟩ := handed_of_run_announceEntry first
    obtain ⟨hr, groups, hos, all⟩ := hi others
    refine ⟨?_, os :: groups, ?_, .cons handed (all.imp fun _ _ => same.handed)⟩
    · rw [enables_of_run_announceEntry (congrArg Prod.fst first), hr, same.enables, List.map_cons]
    · rw [hos, ho, List.flatten_cons, List.append_assoc]

-- The groups that are not empty belong to enabled entries, and to all of them just where each has
-- a replica to go to.
theorem countP_handed {entries : List (String × String)} {groups : List (List Outgoing)}
    (h : List.Forall₂ (n.Handed net kind client) entries groups) :
    groups.countP (!·.isEmpty) ≤ entries.countP (fun entry => n.enables (entry.1, kind)) ∧
      (groups.countP (!·.isEmpty) = entries.countP (fun entry => n.enables (entry.1, kind)) ↔
        ∀ entry ∈ entries,
          n.enables (entry.1, kind) → net.Reaches n.address (Utf8.encode entry.1)) := by
  induction h
  case nil => simp
  case cons entry os entries groups handed _ hi =>
    obtain ⟨hle, hi⟩ := hi
    have hn : (!os.isEmpty) = true ↔ n.enables (entry.1, kind) = true ∧
        net.Reaches n.address (Utf8.encode entry.1) := by
      simpa using handed.ne_nil_iff
    rw [List.countP_cons, List.countP_cons, List.forall_mem_cons, ← hi]
    by_cases he : n.enables (entry.1, kind) = true
    case neg =>
      rw [if_neg fun h => he (hn.mp h).left, if_neg he]
      exact ⟨hle, by simp [he]⟩
    case pos =>
      by_cases hr : net.Reaches n.address (Utf8.encode entry.1)
      case pos =>
        rw [if_pos (hn.mpr ⟨he, hr⟩), if_pos he]
        exact ⟨Nat.succ_le_succ hle, by simp [hr]⟩
      case neg =>
        rw [if_neg fun h => hr (hn.mp h).right, if_pos he]
        exact ⟨Nat.le_succ_of_le hle, iff_of_false (by omega) fun h => hr (h.left he)⟩

-- Both answers are given at the gate. They tell what was sent where each enabled entry has a
-- replica to go to, and only there.
theorem announcements_count_sent_iff (n : Node) (net : Network) (kind : AuditKind)
    (client : String) :
    (∀ target value,
      let e : AuditEntry := { target, time := n.clock.next, client, kind, value }
      let announced := n.run (announceEntry net target kind client value)
      (announced.1 = .ok true ↔ n.enables (target, kind) = true ∧
        (Wire.writeBatch Protocol.current [e.addition n.clock.read.2.next]).isOk = true) ∧
      ∃ os, announced.2.outbox = n.outbox ++ os ∧ (∀ o ∈ os, o.Brings target kind client value) ∧
        (os ≠ [] ↔ announced.1 = .ok true ∧ net.Reaches n.address (Utf8.encode target))) ∧
    ∀ entries sent,
      let announced := n.run (announceEntries net entries kind client)
      announced.1 = .ok sent →
        sent = entries.countP (fun entry => n.enables (entry.1, kind)) ∧
        ∃ groups, announced.2.outbox = n.outbox ++ groups.flatten ∧
          List.Forall₂ (n.Handed net kind client) entries groups ∧
          (sent = groups.countP (!·.isEmpty) ↔ ∀ entry ∈ entries,
            n.enables (entry.1, kind) → net.Reaches n.address (Utf8.encode entry.1)) := by
  constructor
  case left =>
    exact fun target value => ⟨announceEntry_eq_true_iff n net target kind client value,
      exists_outbox_run_announceEntry n net target kind client value⟩
  case right =>
    intro entries sent announced h
    have ha : announced = (.ok sent, announced.2) := Prod.ext h rfl
    obtain ⟨answers, n₁, ran, counted⟩ := run_bind_eq_ok_iff.mp ha
    obtain ⟨rfl, groups, ho, handed⟩ := groups_of_run_announceEntries ran
    have hn : n₁ = announced.2 := congrArg Prod.snd counted
    have hc : (entries.map fun entry => n.enables (entry.1, kind)).count true = sent :=
      Except.ok.inj (congrArg Prod.fst counted)
    have hs : sent = entries.countP (fun entry => n.enables (entry.1, kind)) := by
      rw [← hc, List.count_eq_countP, List.countP_map]
      exact List.countP_congr (by simp)
    refine ⟨hs, groups, hn ▸ ho, handed, ?_⟩
    rw [hs, eq_comm]
    exact (countP_handed handed).right

-- A node on the ring of nobody that is about to own every range: it sends itself the entry that is
-- enabled.
theorem announcements_count_sent_of_pending :
    let self : Address := .v4 10 0 0 1
    let net := ((Network.new 1 0).add self Protocol.current true).1.addPending self
    let n := ((idle self .standard ∅ "node" ⟨1000, 0, 0⟩ 0).run
      (addToRegistry "app.users" .tableAltered "on")).2
    let entries := [("app.users", "x=1;"), ("app.orders", "x=2;")]
    let announced := n.run (announceEntries net entries .tableAltered "bob")
    announced.1 = .ok 1 ∧ ∃ groups, announced.2.outbox = n.outbox ++ groups.flatten ∧
      List.Forall₂ (n.Handed net .tableAltered "bob") entries groups ∧
      groups.countP (!·.isEmpty) = 1 := by
  intro self net n entries announced
  have h : announced.1.toOption = some 1 := by decide +kernel
  have h : announced.1 = .ok 1 := congrArg Prod.fst (run_eq_ok_of_toOption h)
  have hp : self ∈ net.pendingReplicas := by decide +kernel
  have ha : n.address = self := rfl
  have hr (key) : net.Reaches n.address key := ⟨self, .inr hp, .inl ha.symm⟩
  clear_value n net
  obtain ⟨-, groups, ho, handed, hs⟩ :=
    (announcements_count_sent_iff n net .tableAltered "bob").right entries 1 h
  exact ⟨h, groups, ho, handed, (hs.mpr fun _ _ _ => hr _).symm⟩

-- The one replica is on an older protocol and gets nothing, and still the entry counts as sent.
theorem announced_of_old_replica :
    let member (i : UInt8) : Address := .v4 10 0 0 i
    let net := ((Network.new 1 0).add (member 1) Protocol.current true).1
    let net := (net.add (member 2) 5 false).1
    let n := ((idle (member 1) .standard ∅ "node" ⟨1000, 0, 0⟩ 0).run
      (addToRegistry "app.users" .tableAltered "on")).2
    let announced := n.run (announceEntry net "app.users" .tableAltered "bob" "x=1;")
    let batch := n.run (announceEntries net [("app.users", "x=1;")] .tableAltered "bob")
    announced.1 = .ok true ∧ announced.2.outbox = n.outbox ∧
      batch.1 = .ok 1 ∧ batch.2.outbox = n.outbox := by
  intro member net net n announced batch
  have ht : (n.registry.query n.storage "app.users" .tableAltered).1 = some "on" := by
    decide +kernel
  let e : AuditEntry := ⟨"app.users", n.clock.next, "bob", .tableAltered, "x=1;"⟩
  obtain ⟨payload, hw⟩ := isOk_iff.mp (show (Wire.writeBatch Protocol.current
    [e.addition n.clock.read.2.next]).isOk = true by decide +kernel)
  have hl : net.replicating = [member 2] := by decide +kernel
  have hp : net.pendingReplicas = [] := by decide +kernel
  have hv : net.version (member 2) < Protocol.current := by decide +kernel
  have ha : n.address = member 1 := rfl
  clear_value n net
  have unreached : ¬net.Reaches n.address (Utf8.encode "app.users") := by
    rintro ⟨a, hm | hm, hs⟩
    case inr => simp [hp] at hm
    case inl =>
      have hm : a ∈ net.replicating := net.naturalReplicas_subset hm
      rw [hl, List.mem_singleton] at hm
      subst hm
      rw [ha] at hs
      exact hs.elim (by decide) (Int.not_le.mpr hv)
  obtain ⟨n', ran⟩ : ∃ n', n.run (announceEntry net "app.users" .tableAltered "bob" "x=1;") =
      (.ok true, n') :=
    exists_run_announceEntry_of_encodes ht hw
  obtain ⟨os, ho, -, hs⟩ :=
    exists_outbox_run_announceEntry n net "app.users" .tableAltered "bob" "x=1;"
  obtain rfl : os = [] := not_not.mp fun h => unreached (hs.mp h).right
  have unsent : announced.2.outbox = n.outbox := ho.trans (List.append_nil _)
  have hb : batch = (.ok 1, announced.2) := by
    simp only [batch, announced, announceEntries, List.mapM_cons, List.mapM_nil, run_bind,
      run_pure, ran]
    rfl
  rw [hb]
  exact ⟨congrArg Prod.fst ran, unsent, rfl, unsent⟩

end Node
end ClusterMetadata
