import ClusterMetadata.Proofs.Node.Forgetting
import ClusterMetadata.Proofs.Node.Submission

/-!
A batch that is announced is merged in its turn. Jobs that were queued before it come first, and
whoever announces the batch hears what came of this batch and of no other (`hears_announce`).
-/

namespace ClusterMetadata.Node

variable {n n' : Node} {ticket : Nat} {ahead : List Job} {job : Job} {batch : List Mutation}
  {net : Network}

-- The job waits behind others, and the ticket is of no concern to these. Nothing has come of it
-- yet.
structure Queued (ticket : Nat) (ahead : List Job) (job : Job) (n : Node) : Prop where
  queue   : ∃ later, n.migration.queue = ahead ++ job :: later
  ahead   : ∀ j ∈ ahead, j.ticket? ≠ some ticket
  waiting : ∀ (id : String) (request : PullRequest), n.messenger.waiting[id]? = some request →
    request.ticket ≠ ticket
  pending : n.outcomes[ticket]? = none

namespace Queued

theorem of_eq (h : n.Queued ticket ahead job) (hq : n'.migration.queue = n.migration.queue)
    (hm : n'.messenger.waiting = n.messenger.waiting) (ho : n'.outcomes = n.outcomes) :
    n'.Queued ticket ahead job :=
  ⟨hq ▸ h.queue, h.ahead, hm ▸ h.waiting, ho ▸ h.pending⟩

theorem ignoresTalk : IgnoresTalk (Queued ticket ahead job) where
  watches _ _ _ h := h.of_eq rfl rfl rfl
  draws _ h       := h.of_eq rfl rfl rfl
  emits _ _ _ h   := h.of_eq rfl rfl rfl

-- Jobs are queued behind those that wait already.
theorem keeps_execute (name : StageName) (j : Job) :
    Keeps (Queued ticket ahead job) (execute name j) := by
  intro n h
  rw [run_execute]
  split
  case h_2 => exact h
  case h_1 stage hx =>
    cases name
    case mutation => exact h.of_eq rfl rfl rfl
    case response => exact h.of_eq rfl rfl rfl
    case migration =>
      have ⟨later, hq⟩ := h.queue
      refine ⟨⟨later ++ [j], ?_⟩, h.ahead, h.waiting, h.pending⟩
      change stage.queue = _
      have hq : (n.stage .migration).queue = ahead ++ job :: later := hq
      rw [Stage.queue_eq_of_execute hx, hq]
      simp

theorem keeps_settle {other : Nat} (ho : other ≠ ticket) (result : Except Failure MergeReport) :
    Keeps (Queued ticket ahead job) (settle other result) := by
  refine fun n h => ⟨h.queue, h.ahead, h.waiting, ?_⟩
  change (n.outcomes.insertIfNew other result)[ticket]? = none
  have hne : compare other ticket ≠ .eq := fun he => ho (Std.LawfulEqOrd.eq_of_compare he)
  rw [Std.ExtTreeMap.getElem?_insertIfNew, if_neg fun h => hne h.left]
  exact h.pending

theorem keeps_merge (batch : List Mutation) : Keeps (Queued ticket ahead job) (merge batch) :=
  Node.keeps_merge ignoresTalk (fun _ => trivial) (fun _ _ h => h.of_eq rfl rfl rfl)
    fun _ h => h.of_eq rfl rfl rfl

theorem handling : Handling (Queued ticket ahead job) where
  talks         := ignoresTalk
  asks _ _      := keeps_modifyGet fun _ h => h.of_eq rfl rfl rfl
  applies _ _ h := h.of_eq rfl rfl rfl
  merges        := keeps_merge
  responds message id := by
    intro n h
    have claims : Queued ticket ahead job { n with messenger := (n.messenger.claim id).2 } := by
      refine ⟨h.queue, h.ahead, fun id' request hw => ?_, h.pending⟩
      rw [Messenger.claim, Std.ExtTreeMap.getElem?_erase] at hw
      split at hw
      case isTrue  => cases hw
      case isFalse => exact h.waiting id' request hw
    exact holds_handleResponse claims fun request hw =>
      keeps_mergeResponse (keeps_settle (h.waiting id request hw)) fun _ => keeps_execute _ _

theorem keeps_requestPull {other : Nat} (ho : other ≠ ticket) (peer : Address) :
    Keeps (Queued ticket ahead job) (requestPull peer other) := by
  intro n h
  refine ⟨h.queue, h.ahead, fun id request hw => ?_, h.pending⟩
  change (n.messenger.waiting.insert n.messenger.fresh.1 ⟨peer, other⟩)[id]? = some request at hw
  rw [Std.ExtTreeMap.getElem?_insert] at hw
  split at hw
  case isTrue  => cases hw; exact ho
  case isFalse => exact h.waiting id request hw

theorem keeps_runJob {j : Job} (hj : j.ticket? ≠ some ticket) (net : Network) :
    Keeps (Queued ticket ahead job) (runJob net j) := by
  cases j
  case inbound message id arrived =>
    have hc : Keeps (Queued ticket ahead job) (countDropped message.verb) :=
      fun _ h => h.of_eq rfl rfl rfl
    exact ((handling.handle net message id).runInbound hc arrived).map _
  case merge batch other =>
    have ho : other ≠ ticket := fun h => hj (congrArg some h)
    exact (keeps_merge batch).outcome.bind fun _ => keeps_settle ho _
  case pull peer other => exact keeps_requestPull (fun h => hj (congrArg some h)) peer

-- A worker takes the job in front.
theorem runNext {j : Job} (h : n.Queued ticket (j :: ahead) job)
    (ht : (n.stage .migration).take ≠ none) (net : Network) :
    (n.run (runNext net .migration)).2.Queued ticket ahead job := by
  obtain ⟨later, hq⟩ := h.queue
  obtain ⟨hj, ha⟩ := List.forall_mem_cons.mp h.ahead
  rw [Node.runNext, run_bind, run_takeJob]
  cases hs : (n.stage .migration).take
  case none => exact absurd hs ht
  case some taken =>
    obtain ⟨j', stage⟩ := taken
    have hq' : n.migration.queue = j' :: stage.queue := Stage.queue_eq_of_take hs
    obtain ⟨rfl, hq'⟩ := List.cons.inj (hq'.symm.trans hq)
    have takes : Queued ticket ahead job (n.setStage stage .migration) :=
      ⟨⟨later, hq'⟩, ha, h.waiting, h.pending⟩
    exact holds_bind (keeps_runJob hj net _ takes) fun _ n h =>
      h.of_eq (Stage.queue_finish ..) rfl rfl

end Queued

-- No worker is free, or there is nothing to do.
theorem run_runTimes_of_take_eq_none {name : StageName} (h : (n.stage name).take = none)
    (net : Network) (k : Nat) : n.run (runTimes net name k) = (.ok (), n) := by
  have idle : n.run (runNext net name) = (.ok (), n) := by
    rw [runNext, run_bind, run_takeJob, h]
    rfl
  induction k
  case zero      => rfl
  case succ k hi => rw [runTimes, run_bind, idle]; exact hi

-- No job makes its worker fail.
theorem exists_run_runJob (n : Node) (net : Network) (j : Job) :
    ∃ n', n.run (runJob net j) = (.ok (), n') := by
  cases j
  case merge batch ticket =>
    rw [runJob, run_bind, run_outcome]
    exact ⟨_, rfl⟩
  case pull peer ticket => exact ⟨_, rfl⟩
  case inbound message id arrived =>
    obtain ⟨result, n', h⟩ : ∃ result n', n.run (runInbound net message id arrived) =
        (.ok result, n') := by
      rw [run_runInbound]
      split <;> exact ⟨_, _, rfl⟩
    exact ⟨n', run_map_eq_ok_iff.mpr ⟨result, h, rfl⟩⟩

theorem exists_run_runNext (n : Node) (net : Network) (name : StageName) :
    ∃ n', n.run (runNext net name) = (.ok (), n') := by
  rw [runNext, run_bind, run_takeJob]
  cases (n.stage name).take
  case none => exact ⟨n, rfl⟩
  case some taken =>
    obtain ⟨j, stage⟩ := taken
    obtain ⟨n₁, h⟩ := exists_run_runJob (n.setStage stage name) net j
    exact ⟨_, run_bind_eq_ok_iff.mpr ⟨(), n₁, h, rfl⟩⟩

-- The batch has been merged, and what came of the merge is recorded under the ticket.
structure Merged (ticket : Nat) (batch : List Mutation) (n n' : Node) : Prop where
  replica : n'.replica = (n.replica.attempt batch).1
  outcome : n'.outcomes[ticket]? = some ((n.replica.attempt batch).2.mapError .storage)

-- The batch is in front, and a worker is free.
theorem Queued.merged_of_runNext (h : n.Queued ticket [] (.merge batch ticket))
    (ht : (n.stage .migration).take ≠ none)
    (hr : n.run (Node.runNext net .migration) = (.ok (), n')) : n.Merged ticket batch n' := by
  obtain ⟨later, hq⟩ := h.queue
  cases hs : (n.stage .migration).take
  case none => exact absurd hs ht
  case some taken =>
    obtain ⟨j, stage⟩ := taken
    have hq' : n.migration.queue = j :: stage.queue := Stage.queue_eq_of_take hs
    obtain ⟨rfl, -⟩ := List.cons.inj (hq'.symm.trans hq)
    let n₁ := n.setStage stage .migration
    cases hm : n₁.run (Node.merge batch)
    case mk result n₂ =>
      have done : n₁.run (runJob net (.merge batch ticket)) =
          (.ok (), { n₂ with outcomes := n₂.outcomes.insertIfNew ticket result }) := by
        rw [runJob, run_bind, run_outcome, hm]
        rfl
      have ho : n₂.outcomes[ticket]? = none := by
        have hb : n₂.outcomes = n.outcomes :=
          congrArg Books.outcomes ((Work.keeps_books_merge n₁.books batch).of_run rfl hm)
        rw [hb, h.pending]
      rw [Node.runNext, run_bind, run_takeJob, hs] at hr
      change n₁.run (runJob net (.merge batch ticket) >>= fun _ => finishJob .migration) = _ at hr
      rw [run_bind, done] at hr
      cases hr
      obtain ⟨hr, hres⟩ := attempt_of_run_merge hm
      refine ⟨hr, ?_⟩
      change (n₂.outcomes.insertIfNew ticket result)[ticket]? = _
      rw [SortedMap.insertIfNew_eq_insert ho, Std.ExtTreeMap.getElem?_insert_self, hres]
      rfl

-- The jobs ahead are done, and then the batch is in front. Nothing comes of it only if no worker
-- is free any more.
theorem Queued.merged_of_runTimes (h : n.Queued ticket ahead (.merge batch ticket))
    (net : Network) : ∃ before n', n.run (runTimes net .migration ahead.length) = (.ok (), before) ∧
      n.run (runTimes net .migration (ahead.length + 1)) = (.ok (), n') ∧
      ((before.stage .migration).take = none ∧ n'.outcomes[ticket]? = none ∨
        before.Merged ticket batch n') := by
  induction ahead generalizing n
  case nil =>
    have ⟨n', hr⟩ := exists_run_runNext n net .migration
    refine ⟨n, n', rfl, run_bind_eq_ok_iff.mpr ⟨(), n', hr, rfl⟩, ?_⟩
    by_cases ht : (n.stage .migration).take = none
    case neg => exact .inr (h.merged_of_runNext ht hr)
    case pos =>
      have idle := run_runTimes_of_take_eq_none ht net 1
      obtain ⟨_, _, hr', hp⟩ := run_bind_eq_ok_iff.mp idle
      cases hp
      cases hr.symm.trans hr'
      exact .inl ⟨ht, h.pending⟩
  case cons j ahead hi =>
    by_cases ht : (n.stage .migration).take = none
    case pos =>
      have idle (k : Nat) := run_runTimes_of_take_eq_none ht net k
      exact ⟨n, n, idle _, idle _, .inl ⟨ht, h.pending⟩⟩
    case neg =>
      have ⟨n₁, hn⟩ := exists_run_runNext n net .migration
      have h₁ : n₁.Queued ticket ahead (.merge batch ticket) := by
        have h₁ := h.runNext ht net
        rwa [hn] at h₁
      have ⟨before, n', hb, hr, hm⟩ := hi h₁
      exact ⟨before, n', run_bind_eq_ok_iff.mpr ⟨(), n₁, hn, hb⟩,
        run_bind_eq_ok_iff.mpr ⟨(), n₁, hn, hr⟩, hm⟩

-- The node when a worker comes to the batch. The others have been told, and what was queued before
-- has been done.
def beforeMerge (net : Network) (batch : List Mutation) (n : Node) : Node :=
  (n.run (do
    discard (submit (.merge batch))
    quietly (broadcast net batch)
    runTimes net .migration n.migration.queue.length)).2

theorem replica_beforeMerge (hq : n.migration.queue = []) :
    (n.beforeMerge net batch).replica = n.replica := by
  have submits : Keeps (·.replica = n.replica) (submit (.merge batch)) := by
    intro n₁ h
    rw [run_submit]
    split <;> exact h
  have tells : Keeps (·.replica = n.replica) (quietly (broadcast net batch)) :=
    (keeps_broadcast ofReplica_replica.ignoresTalk (tellsDefinitions_true batch) net).quietly
  rw [beforeMerge, hq]
  exact ((submits.map _).bind fun _ => tells.bind fun _ => keeps_pure _) n rfl

theorem run_discard_await (n : Node) (ticket : Nat) (otherwise : Failure) :
    n.run (discard (await ticket otherwise)) =
      (((n.outcomes[ticket]?).getD (.error otherwise)).map fun _ => (), n) := by
  change n.run ((fun _ => ()) <$> await ticket otherwise) = _
  rw [run_map, await, run_bind, run_get]
  dsimp only
  cases n.outcomes[ticket]?
  case none        => rfl
  case some result => cases result <;> rfl

-- What whoever announces the batch hears: that the stage is closed, that no worker has come to the
-- batch, or what came of the merge.
inductive Hears (net : Network) (batch : List Mutation) (n : Node) :
    Except Failure Unit → Node → Prop
  | closed (shut : n.migration.closed = true) :
      Hears net batch n (.error (.stage (.shutDown n.migration.name)))
        { n with nextTicket := n.nextTicket + 1 }
  | abandoned (n' : Node) (name : String)
      (busy : ((n.beforeMerge net batch).stage .migration).take = none) :
      Hears net batch n (.error (.stage (.abandoned name))) n'
  | merged (n' : Node)
      (replica : n'.replica = ((n.beforeMerge net batch).replica.attempt batch).1) :
      Hears net batch n
        ((((n.beforeMerge net batch).replica.attempt batch).2.mapError .storage).map fun _ => ()) n'

section

-- No ticket that is known is yet to be drawn.
variable (hn : ∀ ticket, n.Knows ticket → ticket < n.nextTicket)

include hn

theorem queued_of_submit (h : n.run (submit (.merge batch)) = (.ok ticket, n')) :
    n'.Queued ticket n.migration.queue (.merge batch ticket) ∧
      n'.migration.queue.length = n.migration.queue.length + 1 := by
  rw [run_submit] at h
  split at h
  case h_2 => cases h
  case h_1 stage hx =>
    cases h
    have hq : stage.queue = n.migration.queue ++ [.merge batch n.nextTicket] :=
      Stage.queue_eq_of_execute hx
    have unknown : ¬n.Knows n.nextTicket := fun hk => Nat.lt_irrefl _ (hn _ hk)
    refine ⟨⟨⟨[], hq⟩, fun j hm ht => ?_, fun id request hw ht => ?_, ?_⟩, ?_⟩
    · exact unknown (.onStage .migration (List.mem_append_left _ hm) ht)
    · exact unknown (.requested id hw ht)
    · exact Std.ExtTreeMap.getElem?_eq_none fun found => unknown (.settled found)
    · exact (congrArg List.length hq).trans List.length_append

theorem hears_announce (net : Network) (batch : List Mutation) :
    n.Hears net batch (n.run (announce net batch)).1 (n.run (announce net batch)).2 := by
  cases hs : n.run (submit (.merge batch))
  case mk result n₁ =>
    cases result
    case error e =>
      have hr : n.run (announce net batch) = (.error e, n₁) := by
        rw [announce_eq, run_bind, hs]
      rw [hr]
      rw [run_submit, Stage.execute] at hs
      by_cases shut : n.migration.closed = true
      case pos =>
        simp only [shut, if_true] at hs
        cases hs
        exact .closed shut
      case neg =>
        simp only [shut] at hs
        cases hs
    case ok ticket =>
      obtain ⟨queued, hl⟩ := queued_of_submit hn hs
      let n₂ := (n₁.run (quietly (broadcast net batch))).2
      have tells {I : Node → Prop} (hI : IgnoresTalk I) : Keeps I (quietly (broadcast net batch)) :=
        (keeps_broadcast hI (tellsDefinitions_true batch) net).quietly
      have hb : n₁.run (quietly (broadcast net batch)) = (.ok (), n₂) := by simp [n₂]
      have hl : n₂.migration.queue.length = n.migration.queue.length + 1 := by
        have stays : Keeps (·.migration = n₁.migration) (quietly (broadcast net batch)) :=
          tells ofReplica_migration.ignoresTalk
        rw [stays.of_run rfl hb, hl]
      have queued := (tells Queued.ignoresTalk).of_run queued hb
      obtain ⟨before, n₃, hbefore, hr, came⟩ := queued.merged_of_runTimes net
      have hbefore : n.beforeMerge net batch = before := by
        have h : n.run (do
            discard (submit (.merge batch))
            quietly (broadcast net batch)
            runTimes net .migration n.migration.queue.length) = (.ok (), before) :=
          run_bind_eq_ok_iff.mpr ⟨(), n₁, run_map_eq_ok_iff.mpr ⟨ticket, hs, rfl⟩,
            run_bind_eq_ok_iff.mpr ⟨(), n₂, hb, hbefore⟩⟩
        rw [beforeMerge, h]
      have hr : n.run (announce net batch) = (((n₃.outcomes[ticket]?).getD
          (.error (.stage (.abandoned n₃.migration.name)))).map fun _ => (), n₃) := by
        have hr : n₂.run (runStage net .migration) = (.ok (), n₃) := by
          change n₂.run (runTimes net .migration n₂.migration.queue.length) = _
          rw [hl, hr]
        simp only [announce_eq, run_bind, hs, hb, hr, run_get]
        exact run_discard_await n₃ ticket _
      rw [hr]
      subst hbefore
      rcases came with ⟨busy, ho⟩ | done
      · rw [ho]
        exact .abandoned n₃ _ busy
      · rw [done.outcome]
        exact .merged n₃ done.replica

-- The announcement succeeds only if the merge does.
theorem merge_of_announce (h : n.run (announce net batch) = (.ok (), n')) :
    (n.beforeMerge net batch).replica.merge batch = .ok n'.replica := by
  have hears := hears_announce hn net batch
  rw [h] at hears
  generalize hr : (Except.ok () : Except Failure Unit) = result at hears
  cases hears
  case closed    => cases hr
  case abandoned => cases hr
  case merged replica =>
    generalize ha : (n.beforeMerge net batch).replica.attempt batch = attempted at hr replica
    obtain ⟨r, result⟩ := attempted
    cases result
    case error e   => cases hr
    case ok report =>
      rw [Replica.merge, Replica.merge_eq_of_attempt ha, replica]

end

end ClusterMetadata.Node
