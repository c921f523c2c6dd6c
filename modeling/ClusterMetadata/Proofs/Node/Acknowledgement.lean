import ClusterMetadata.Proofs.Node.Relay

/-!
What a write is answered. Each of the steps may fail: reading the mutation, finding who is to be
answered, reading the list of the members to whom the write goes on, and the storage. The one
acknowledgement is sent when all of them have succeeded, and a failure leaves the storage alone
(`acknowledged_once_written`). The write goes on before it is applied here, so a storage that fails
does not hold it up.
-/

namespace ClusterMetadata

open Node

def Outgoing.verb? : Outgoing → Option Verb
  | .send _ _ m  => some m.verb
  | .advertise _ => none

-- What goes out under the verb.
def said (verb : Verb) (os : List Outgoing) : List Outgoing :=
  os.filter fun o => o.verb? = some verb

section

variable {verb verb' : Verb} {os os' : List Outgoing}

theorem said_append : said verb (os ++ os') = said verb os ++ said verb os' := List.filter_append ..

theorem said_eq_self (h : ∀ o ∈ os, o.verb? = some verb) : said verb os = os :=
  List.filter_eq_self.mpr fun o hm => decide_eq_true (h o hm)

theorem said_eq_nil (hv : verb ≠ verb') (h : ∀ o ∈ os, o.verb? = some verb) :
    said verb' os = [] := by
  refine List.filter_eq_nil_iff.mpr fun o hm he => hv ?_
  rw [h o hm] at he
  exact Option.some.inj (of_decide_eq_true he)

end

namespace Inbound

abbrev Reads (message : Inbound) (m : Mutation) : Prop :=
  Wire.run (Wire.readMutation message.version) message.payload = .ok m

-- The message has not been relayed yet and is to go to these members.
structure Lists (message : Inbound) (entries : List (Address × String)) : Prop where
  original : message.parameter? Message.forwardFrom = none
  version  : Protocol.forwarding ≤ message.version
  listed   : ∃ octets, message.parameter? Message.forwardTo = some octets ∧
    Wire.run Wire.readForwardList octets = .ok entries

def relays (message : Inbound) (entries : List (Address × String)) : List Outgoing :=
  entries.map fun e => .send e.1 e.2 message.relayed

-- This is how the message goes on, if it does.
structure GoesOn (message : Inbound) (os : List Outgoing) : Prop where
  listed : ∀ m entries, message.Reads m → message.Lists entries → os = message.relays entries
  alone  : (¬∃ m entries, message.Reads m ∧ message.Lists entries) → os = []

-- A relayed write names the member that waits; any other comes from it.
def AnsweredAt (message : Inbound) (waiting : Address) : Prop :=
  (message.parameter? Message.forwardFrom).getD message.sender.octets = waiting.octets

variable {message : Inbound} {entries entries' : List (Address × String)} {m : Mutation}
  {os : List Outgoing}

theorem Lists.unique (h : message.Lists entries) (h' : message.Lists entries') :
    entries = entries' := by
  obtain ⟨octets, ho, he⟩ := h.listed
  obtain ⟨octets', ho', he'⟩ := h'.listed
  cases ho.symm.trans ho'
  exact Except.ok.inj (he.symm.trans he')

theorem Lists.goesOn (h : message.Lists entries) (hm : message.Reads m) :
    message.GoesOn (message.relays entries) where
  listed _ _ _ h' := h.unique h' ▸ rfl
  alone hn        := absurd ⟨m, entries, hm, h⟩ hn

theorem goesOn_nil (h : ∀ m entries, message.Reads m → ¬message.Lists entries) :
    message.GoesOn [] where
  listed m entries hm hl := absurd hl (h m entries hm)
  alone _                := rfl

theorem GoesOn.verb (h : message.GoesOn os) : ∀ o ∈ os, o.verb? = some message.verb := by
  intro o ho
  by_cases hl : ∃ m entries, message.Reads m ∧ message.Lists entries
  case pos =>
    obtain ⟨m, entries, hm, hl⟩ := hl
    rw [h.listed m entries hm hl] at ho
    obtain ⟨e, _, rfl⟩ := List.mem_map.mp ho
    rfl
  case neg =>
    rw [h.alone hl] at ho
    cases ho

-- A message that is not to be relayed is answered where it came from.
theorem directs_sender (hf : message.parameter? Message.forwardFrom = none)
    (hr : Protocol.forwarding ≤ message.version → message.parameter? Message.forwardTo = none) :
    message.Directs message.sender [] := by
  intro n
  rw [replyAddress, hf, List.append_nil]
  by_cases hv : Protocol.forwarding ≤ message.version
  case pos => simp [hv, hr hv]
  case neg => simp [hv]

theorem run_replyAddress_of_badAddress {octets : Bytes} {e : WireError}
    (hf : message.parameter? Message.forwardFrom = some octets)
    (ha : Wire.asAddress octets = .error e) (n : Node) :
    n.run (replyAddress message) = (.error (.wire e), n) := by
  rw [replyAddress, hf]
  simp only [ha, lift, run_throw]

theorem run_replyAddress_of_badList {octets : Bytes} {e : WireError}
    (hf : message.parameter? Message.forwardFrom = none)
    (hv : Protocol.forwarding ≤ message.version)
    (ht : message.parameter? Message.forwardTo = some octets)
    (he : Wire.run Wire.readForwardList octets = .error e) (n : Node) :
    n.run (replyAddress message) = (.error (.wire e), n) := by
  have hr : n.run (relay message octets) = (.error (.wire e), n) := by rw [relay, he]; rfl
  rw [replyAddress, hf]
  simp only [hv, ht, if_true, run_bind]
  rw [show (some octets).forM (relay message) = relay message octets from rfl, hr]

-- Who is to be answered is found, after the message has gone on; or finding out fails before
-- anything is sent.
theorem directs_or_fails (hm : message.Reads m) :
    (∃ waiting os, message.Directs waiting os ∧ message.AnsweredAt waiting ∧ message.GoesOn os) ∨
      (∃ e, ∀ n : Node, n.run (replyAddress message) = (.error e, n)) ∧ message.GoesOn [] := by
  cases hf : message.parameter? Message.forwardFrom
  case some octets =>
    have hn : message.GoesOn [] := goesOn_nil fun _ _ _ h => by simp [h.original] at hf
    cases ha : Wire.asAddress octets
    case error e => exact .inr ⟨⟨_, run_replyAddress_of_badAddress hf ha⟩, hn⟩
    case ok waiting =>
      cases Wire.octets_of_asAddress ha
      refine .inl ⟨waiting, [], directs_of_forwardFrom hf, ?_, hn⟩
      rw [AnsweredAt, hf, Option.getD_some]
  case none =>
    have hs : message.AnsweredAt message.sender := by rw [AnsweredAt, hf, Option.getD_none]
    by_cases hv : Protocol.forwarding ≤ message.version
    case neg =>
      have hn : message.GoesOn [] := goesOn_nil fun _ _ _ h => hv h.version
      exact .inl ⟨message.sender, [], directs_sender hf (absurd · hv), hs, hn⟩
    cases ht : message.parameter? Message.forwardTo
    case none =>
      have hn : message.GoesOn [] := goesOn_nil fun _ _ _ ⟨_, _, _, h, _⟩ => by simp [h] at ht
      exact .inl ⟨message.sender, [], directs_sender hf fun _ => ht, hs, hn⟩
    case some octets =>
      cases he : Wire.run Wire.readForwardList octets
      case ok entries =>
        have hl : message.Lists entries := ⟨hf, hv, octets, ht, he⟩
        exact .inl ⟨message.sender, _, directs_of_forwardTo hf hv ht he, hs, hl.goesOn hm⟩
      case error e =>
        refine .inr ⟨⟨_, run_replyAddress_of_badList hf hv ht he⟩, goesOn_nil fun _ _ _ h => ?_⟩
        obtain ⟨octets', ht', he'⟩ := h.listed
        cases ht.symm.trans ht'
        cases he.symm.trans he'

end Inbound

namespace Node

-- The node has only told definitions since.
structure Told (n n' : Node) : Prop where
  storage : n'.storage = n.storage
  outbox  : ∃ os, n'.outbox = n.outbox ++ os ∧ ∀ o ∈ os, o.verb? = some .definitionsUpdate

variable {n n₁ n₂ : Node}

theorem Told.refl (n : Node) : n.Told n := ⟨rfl, [], (List.append_nil _).symm, nofun⟩

theorem Told.of_eq (h : n.Told n₁) (hs : n₂.storage = n₁.storage) (ho : n₂.outbox = n₁.outbox) :
    n.Told n₂ :=
  ⟨hs.trans h.storage, ho ▸ h.outbox⟩

theorem Told.admits (n : Node) : Admits (·.verb? = some .definitionsUpdate) n.Told where
  watches _ _ _ h := h.of_eq rfl rfl
  draws _ h       := h.of_eq rfl rfl
  emits n₁ o ho h := by
    obtain ⟨hs, os, hos, hd⟩ := h
    refine ⟨hs, os ++ [o], by rw [hos, List.append_assoc], ?_⟩
    exact List.forall_mem_append.mpr ⟨hd, List.forall_mem_singleton.mpr ho⟩

-- Announcing the entries of a mutation does not fail, whatever becomes of them.
theorem run_announceRows (n : Node) (net : Network) (m : Mutation) :
    ∃ n', n.run (announceRows net m) = (.ok (), n') ∧ n.Told n' := by
  have kept : Keeps n.Told (announceRows net m) :=
    keeps_announceRows (Told.admits n) (fun _ _ _ _ _ => rfl)
      (fun _ _ => keeps_modifyGet fun _ h => h.of_eq rfl rfl) net m
  exact ⟨_, Prod.ext (fst_run_forM_quietly ..) rfl, kept n (.refl n)⟩

-- What the handling of a write has come to.
structure Answers (n : Node) (message : Inbound) (id : String) (sent : List Outgoing)
    (result : Except Failure Unit) (n' : Node) : Prop where
  outbox  : n'.outbox = n.outbox ++ sent
  success : result = .ok () → ∃ m waiting, message.Reads m ∧ n.storage.apply m = .ok n'.storage ∧
    message.AnsweredAt waiting ∧ said .requestResponse sent = [.send waiting id .ack]
  failure : ∀ e, result = .error e → n'.storage = n.storage ∧ said .requestResponse sent = []
  goesOn  : message.GoesOn (said .mutation sent)

variable {message : Inbound} {id : String} {os : List Outgoing} {e : Failure}

-- A failure may come after the write has gone on.
theorem answers_of_failure (hv : message.verb = .mutation) (hg : message.GoesOn os) :
    n.Answers message id os (.error e) { n with outbox := n.outbox ++ os } where
  outbox      := rfl
  success     := nofun
  failure _ _ := ⟨rfl, said_eq_nil (by rw [hv]; decide) hg.verb⟩
  goesOn      := (said_eq_self (hv ▸ hg.verb)).symm ▸ hg

theorem answers_of_unsent (hg : message.GoesOn []) : n.Answers message id [] (.error e) n where
  outbox      := (List.append_nil _).symm
  success     := nofun
  failure _ _ := ⟨rfl, rfl⟩
  goesOn      := hg

theorem exists_answers_of_success {m : Mutation} {waiting : Address} {storage : Storage}
    (hv : message.verb = .mutation) (hm : message.Reads m) (hd : message.Directs waiting os)
    (hw : message.AnsweredAt waiting) (hg : message.GoesOn os)
    (hs : n.storage.apply m = .ok storage) (net : Network) :
    ∃ sent, n.Answers message id sent (n.run (handleMutation net message id)).1
      (n.run (handleMutation net message id)).2 := by
  let ack := Outgoing.send waiting id .ack
  let n₁ : Node := { n with storage, outbox := n.outbox ++ os ++ [ack] }
  obtain ⟨n', hr, ht⟩ : ∃ n', n.run (handleMutation net message id) = (.ok (), n') ∧
      n₁.Told n' := by
    rw [run_handleMutation hm hd hs]
    split
    case isTrue  => exact run_announceRows n₁ net m
    case isFalse => exact ⟨n₁, rfl, .refl n₁⟩
  obtain ⟨rest, ho, hrest⟩ := ht.outbox
  have responses : said .requestResponse (os ++ [ack] ++ rest) = [ack] := by
    rw [said_append, said_append, said_eq_nil (by rw [hv]; decide) hg.verb,
      said_eq_nil (by decide) hrest, List.append_nil]
    rfl
  have writes : said .mutation (os ++ [ack] ++ rest) = os := by
    rw [said_append, said_append, said_eq_self (hv ▸ hg.verb), said_eq_nil (by decide) hrest,
      List.append_nil]
    exact List.append_nil os
  rw [hr]
  refine ⟨os ++ [ack] ++ rest, ?_, fun _ => ⟨m, waiting, hm, ?_, hw, responses⟩, nofun, ?_⟩
  · rw [ho, ← List.append_assoc, ← List.append_assoc]
  · rw [ht.storage, hs]
  · rwa [writes]

theorem acknowledged_once_written (n : Node) (net : Network) (message : Inbound) (id : String)
    (hv : message.verb = .mutation) :
    ∃ sent, n.Answers message id sent (n.run (handle net message id)).1
      (n.run (handle net message id)).2 := by
  rw [handle, hv]
  dsimp only
  cases hm : Wire.run (Wire.readMutation message.version) message.payload
  case error e =>
    have hr : n.run (handleMutation net message id) = (.error (.wire e), n) := by
      rw [handleMutation, hm]
      rfl
    rw [hr]
    refine ⟨[], answers_of_unsent (Inbound.goesOn_nil fun m _ h _ => ?_)⟩
    cases h.symm.trans hm
  case ok m =>
    rcases Inbound.directs_or_fails hm with ⟨waiting, os, hd, hw, hg⟩ | ⟨⟨e, he⟩, hg⟩
    case inr =>
      have hr : n.run (handleMutation net message id) = (.error e, n) := by
        simp only [handleMutation, hm, lift, run_bind, run_pure, he n]
      rw [hr]
      exact ⟨[], answers_of_unsent hg⟩
    cases hs : n.storage.apply m
    case error e =>
      have hr : n.run (handleMutation net message id) =
          (.error (.storage e), { n with outbox := n.outbox ++ os }) := by
        simp only [handleMutation, hm, lift, run_bind, run_pure, hd n, run_get, hs, run_throw]
      rw [hr]
      exact ⟨os, answers_of_failure hv hg⟩
    case ok storage => exact exists_answers_of_success hv hm hd hw hg hs net

-- A write goes on from a node that can write it and from one that cannot.
theorem acknowledged_once_written_of_relays :
    let k : Address := .v4 10 0 0 1
    let row := Mutation.ofFamilies "app" [1] [("users", Row.write [] 5 [(Row.marker, [])])]
    let entries : List (Address × String) := [(.v4 10 0 0 3, "é"), (k, "2")]
    let payload := (Wire.writeMutation Protocol.current row).toOption.getD []
    let octets := (Wire.writeForwardList entries).toOption.getD []
    let message : Inbound :=
      { (Message.plain .mutation payload).withParameter Message.forwardTo octets with
        sender := k, version := Protocol.current }
    let config := { Config.standard with audit.rowMutations := true }
    let node (failing : Bool) := idle (.v4 10 0 0 2) config ⟨∅, failing⟩ "node" ⟨1000, 0, 0⟩ 0
    let handled (failing : Bool) := (node failing).run (handle (.new 1 0) message "1")
    message.verb = .mutation ∧ message.Reads row ∧ message.Lists entries ∧
      (handled false).1.isOk = true ∧ (handled true).1.isOk = false ∧
      ∀ failing, ∃ sent,
        (node failing).Answers message "1" sent (handled failing).1 (handled failing).2 := by
  intro k row entries payload octets message config node handled
  have hm : message.Reads row := by decide +kernel
  have he : Wire.run Wire.readForwardList octets = .ok entries := by decide +kernel
  have hl : message.Lists entries := ⟨by decide +kernel, by decide, octets, by decide +kernel, he⟩
  have hs : (handled false).1.isOk = true := by decide +kernel
  have hf : (handled true).1.isOk = false := by decide +kernel
  have hv : message.verb = .mutation := rfl
  exact ⟨hv, hm, hl, hs, hf, fun failing => acknowledged_once_written (node failing) _ message _ hv⟩

end Node
end ClusterMetadata
