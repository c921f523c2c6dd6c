import ClusterMetadata.Proofs.Node.Push
import ClusterMetadata.Proofs.Node.Update

/-!
The threads of a node between two of their steps. A pull is requested in four steps, a response is
answered in up to three, and a timer goes off in one or two; other threads may come in between. Done
one after the other, the steps are the whole operation (`goes_job`, `goes_response`, `goes_alarm`).
What a step does to what a node remembers of its pulls is listed once (`effect_of_goes`).
-/

namespace ClusterMetadata

open Node

-- How far a thread has come with what it does.
inductive Work where
  -- A worker of the migration stage has a job.
  | job (job : Job)
  -- A pull has an id, has registered its request, and has sent it.
  | drawn (request : PullRequest) (id : String)
  | registered (request : PullRequest) (id : String)
  | sent (id : String)
  -- A response has arrived, and has found the request it is for.
  | response (message : Inbound) (id : String)
  | claimed (request : PullRequest) (message : Inbound)
  -- The time of a request is over.
  | alarm (id : String)
  -- It is known what became of a pull or a merge.
  | settling (ticket : Nat) (result : Except Failure MergeReport)
  | done

-- What a node remembers of its pulls.
@[ext]
structure Books where
  messenger  : Messenger PullRequest
  queue      : List Job
  nextTicket : Nat
  outcomes   : SortedMap Nat (Except Failure MergeReport)

def Node.books (n : Node) : Books where
  messenger  := n.messenger
  queue      := n.migration.queue
  nextTicket := n.nextTicket
  outcomes   := n.outcomes

-- Inbound messages are with the migration stage only if they belong there.
def Job.Belongs : Job → Prop
  | inbound message _ _ => stageOf message.verb = .migration
  | _                   => True

namespace Work

-- The request that waits under the id, which then waits no more.
def claim (id : String) : NodeM (Option PullRequest) :=
  modifyGet fun n =>
    let (request, messenger) := n.messenger.claim id
    (request, { n with messenger })

-- What the thread does at one go, and how far it has come then.
def next (net : Network) : Work → NodeM Work
  | job (.inbound message id arrived) => do
    discard (runInbound net message id arrived)
    return done
  | job (.merge batch ticket) => return settling ticket (← outcome (merge batch))
  | job (.pull peer ticket) => return drawn { peer, ticket } (← freshId)
  | drawn request id => do
    modify fun n => { n with messenger := n.messenger.await id request }
    return registered request id
  | registered request id => do
    send request.peer id (.plain .migrationRequest [])
    return sent id
  | sent id => do
    schedule (← get).config.migrationRequestTimeout (.expiry id)
    return done
  | response message id => return (← claim id).elim done (claimed · message)
  | claimed request message => do
    match ← outcome (readDefinitions message) with
    | .error e  => return settling request.ticket (.error e)
    | .ok batch =>
      match ← outcome (execute .migration (.merge batch request.ticket)) with
      | .ok ()   => return done
      | .error _ => return settling request.ticket (.error (.abandonedPull request.peer))
  | alarm id =>
    return (← claim id).elim done fun r => settling r.ticket (.error (.abandonedPull r.peer))
  | settling ticket result => do
    settle ticket result
    return done
  | done => return done

-- The thread takes a step.
def Goes (net : Network) (a b : Node × Work) : Prop :=
  a.1.run (a.2.next net) = (.ok b.2, b.1)

section

variable (n : Node) (net : Network)

theorem goes_inbound (message : Inbound) (id : String) (arrived : Nat) :
    Goes net (n, job (.inbound message id arrived))
      ((n.run (runInbound net message id arrived)).2, done) := by
  have returns : ∃ result, (n.run (runInbound net message id arrived)).1 = .ok result := by
    rw [run_runInbound]
    split <;> exact ⟨_, rfl⟩
  obtain ⟨result, h⟩ := returns
  refine run_bind_eq_ok_iff.mpr ⟨(), _, run_map_eq_ok_iff.mpr ⟨result, ?_, rfl⟩, rfl⟩
  exact Prod.ext h rfl

theorem goes_merge (batch : List Mutation) (ticket : Nat) :
    Goes net (n, job (.merge batch ticket))
      ((n.run (merge batch)).2, settling ticket (n.run (merge batch)).1) :=
  run_bind_eq_ok_iff.mpr ⟨_, _, run_outcome, rfl⟩

-- A claimed response is queued to be merged, or its pull fails.
theorem goes_claimed (request : PullRequest) (message : Inbound) :
    (∃ e, Goes net (n, claimed request message) (n, settling request.ticket (.error e)) ∧
      n.run (mergeResponse request message) = n.run (settle request.ticket (.error e))) ∨
    ∃ batch stage, n.migration.execute (.merge batch request.ticket) = .ok stage ∧
      Goes net (n, claimed request message) ({ n with migration := stage }, done) ∧
      n.run (mergeResponse request message) = (.ok (), { n with migration := stage }) := by
  simp only [Goes, next, mergeResponse, readDefinitions, run_bind, run_outcome]
  cases Wire.run (Wire.readBatch message.version) message.payload
  case error e => exact .inl ⟨.wire e, rfl, rfl⟩
  case ok batch =>
    simp only [lift, run_pure, run_bind, run_outcome, run_execute, stage]
    cases hx : n.migration.execute (.merge batch request.ticket)
    case error e => exact .inl ⟨.abandonedPull request.peer, rfl, rfl⟩
    case ok s    => exact .inr ⟨batch, s, hx, rfl, rfl⟩

-- Without other threads in between, a thread does its operation as a whole.

theorem goes_job (j : Job) :
    Relation.ReflTransGen (Goes net) (n, job j) ((n.run (runJob net j)).2, done) := by
  cases j
  case inbound message id arrived =>
    have h : (n.run (runJob net (.inbound message id arrived))).2 =
        (n.run (runInbound net message id arrived)).2 := snd_run_discard
    rw [h]
    exact .single (goes_inbound n net message id arrived)
  case merge batch ticket =>
    have h : n.run (runJob net (.merge batch ticket)) =
        (n.run (merge batch)).2.run (settle ticket (n.run (merge batch)).1) := by
      rw [runJob, run_bind, run_outcome]
    rw [h]
    exact .head (goes_merge n net batch ticket) (.single rfl)
  case pull peer ticket =>
    exact .head (b := (_, drawn _ _)) rfl <| .head (b := (_, registered _ _)) rfl <|
      .head (b := (_, sent _)) rfl <| .single rfl

theorem goes_response (message : Inbound) (id : String) :
    Relation.ReflTransGen (Goes net) (n, response message id)
      ((n.run (handleResponse message id)).2, done) := by
  let n₁ : Node := { n with messenger := (n.messenger.claim id).2 }
  have claims : Goes net (n, response message id)
      (n₁, n.messenger.waiting[id]?.elim done (claimed · message)) := rfl
  have h : n.run (handleResponse message id) =
      n₁.run (n.messenger.waiting[id]?.forM (mergeResponse · message)) := rfl
  rw [h]
  cases hw : n.messenger.waiting[id]?
  case none =>
    rw [hw] at claims
    exact .single claims
  case some request =>
    rw [hw] at claims
    have hf : n₁.run ((some request).forM (mergeResponse · message)) =
        n₁.run (mergeResponse request message) := rfl
    rw [hf]
    rcases goes_claimed n₁ net request message with ⟨e, hg, hm⟩ | ⟨batch, stage, _, hg, hm⟩
    case inl =>
      rw [hm]
      exact .head claims (.head hg (.single rfl))
    case inr =>
      rw [hm]
      exact .head claims (.single hg)

theorem goes_alarm (id : String) :
    Relation.ReflTransGen (Goes net) (n, alarm id) ((n.run (expire id)).2, done) ∧
      (n.run (expire id)).1 = .ok n.messenger.waiting[id]?.isSome := by
  let n₁ : Node := { n with messenger := (n.messenger.claim id).2 }
  have claims : Goes net (n, alarm id) (n₁, n.messenger.waiting[id]?.elim done fun r =>
      settling r.ticket (.error (.abandonedPull r.peer))) := rfl
  have h : n.run (expire id) = n₁.run (do
      n.messenger.waiting[id]?.forM fun r => settle r.ticket (.error (.abandonedPull r.peer))
      return n.messenger.waiting[id]?.isSome) := rfl
  rw [h]
  cases hw : n.messenger.waiting[id]?
  case none =>
    rw [hw] at claims
    exact ⟨.single claims, rfl⟩
  case some request =>
    rw [hw] at claims
    exact ⟨.head claims (.single rfl), rfl⟩

end

-- Merging definitions, and answering a request for them, is nothing to the pulls.
theorem keeps_books_merge (b : Books) (batch : List Mutation) :
    Keeps (·.books = b) (merge batch) := by
  intro n h
  rw [run_merge]
  exact keeps_tell (I := (·.books = b)) (fun _ _ _ h => h) (fun _ _ h => h) (fun _ _ h => h) _ _ h

theorem keeps_books_inbound (b : Books) (net : Network) {message : Inbound}
    (hv : stageOf message.verb = .migration) (id : String) (arrived : Nat) :
    Keeps (·.books = b) (runInbound net message id arrived) := by
  have definitions : Keeps (·.books = b) (handleDefinitions message) :=
    (keeps_lift _).bind fun _ => (keeps_books_merge b _).map _
  have request : Keeps (·.books = b) (handleMigrationRequest message id) :=
    keeps_get.bind fun _ => (keeps_lift _).bind fun _ _ h => h
  have handles : Keeps (·.books = b) (handle net message id) := by
    rw [handle]
    split
    case h_1 h => rw [h] at hv; cases hv
    case h_2 h => rw [h] at hv; cases hv
    case h_3   => exact definitions
    case h_4   => exact request
  exact handles.runInbound (fun _ h => h) arrived

-- What a step of a thread does to the books.
inductive Effect (b : Books) : Work → Work → Books → Prop
  | handles {message : Inbound} {id : String} {arrived : Nat} :
      Effect b (job (.inbound message id arrived)) done b
  | merges {batch : List Mutation} {ticket : Nat} {result : Except Failure MergeReport} :
      Effect b (job (.merge batch ticket)) (settling ticket result) b
  | draws {peer : Address} {ticket : Nat} :
      Effect b (job (.pull peer ticket)) (drawn { peer, ticket } (b.messenger.idAfter 0))
        { b with messenger := b.messenger.skip 1 }
  | registers {request : PullRequest} {id : String} :
      Effect b (drawn request id) (registered request id)
        { b with messenger := b.messenger.await id request }
  | sends {request : PullRequest} {id : String} : Effect b (registered request id) (sent id) b
  | schedules {id : String} : Effect b (sent id) done b
  | misses {message : Inbound} {id : String} : Effect b (response message id) done b
  | claims {message : Inbound} {id : String} {request : PullRequest}
      (h : b.messenger.waiting[id]? = some request) :
      Effect b (response message id) (claimed request message)
        { b with messenger := (b.messenger.claim id).2 }
  | fails {message : Inbound} {request : PullRequest} {e : Failure} :
      Effect b (claimed request message) (settling request.ticket (.error e)) b
  | queues {message : Inbound} {request : PullRequest} {batch : List Mutation} :
      Effect b (claimed request message) done
        { b with queue := b.queue ++ [.merge batch request.ticket] }
  | late {id : String} : Effect b (alarm id) done b
  | expires {id : String} {request : PullRequest} {e : Failure}
      (h : b.messenger.waiting[id]? = some request) :
      Effect b (alarm id) (settling request.ticket (.error e))
        { b with messenger := (b.messenger.claim id).2 }
  | settles {ticket : Nat} {result : Except Failure MergeReport} :
      Effect b (settling ticket result) done
        { b with outcomes := b.outcomes.insertIfNew ticket result }
  | rests : Effect b done done b

variable {n n' : Node} {w w' : Work} {net : Network}

-- Nobody waits under the id, so that nothing changes.
theorem claim_eq_self {m : Messenger PullRequest} {id : String} (h : m.waiting[id]? = none) :
    (m.claim id).2 = m := by
  rw [Messenger.claim, SortedMap.erase_eq_self h]

theorem effect_of_goes (hj : ∀ j, w = job j → j.Belongs) (h : Goes net (n, w) (n', w')) :
    Effect n.books w w' n'.books := by
  cases w
  case job j =>
    cases j
    case inbound message id arrived =>
      have hg := goes_inbound n net message id arrived
      cases hg.symm.trans h
      have hb := keeps_books_inbound n.books net (hj _ rfl) id arrived n rfl
      rw [hb]
      exact .handles
    case merge batch ticket =>
      cases (goes_merge n net batch ticket).symm.trans h
      have hb := keeps_books_merge n.books batch n rfl
      rw [hb]
      exact .merges
    case pull peer ticket =>
      cases h
      change Effect n.books _ (drawn _ n.messenger.fresh.1)
        { n.books with messenger := n.messenger.fresh.2 }
      rw [Messenger.fresh_eq]
      exact .draws
  case drawn request id =>
    cases h
    exact .registers
  case registered request id =>
    cases h
    exact .sends
  case sent id =>
    cases h
    exact .schedules
  case response message id =>
    cases h
    change Effect n.books _ _ { n.books with messenger := (n.messenger.claim id).2 }
    change Effect n.books _ (n.messenger.waiting[id]?.elim _ _) _
    cases hw : n.messenger.waiting[id]?
    case none =>
      rw [claim_eq_self hw]
      exact .misses
    case some request => exact .claims hw
  case claimed request message =>
    rcases goes_claimed n net request message with ⟨e, hg, _⟩ | ⟨batch, stage, hx, hg, _⟩
    case inl =>
      cases hg.symm.trans h
      exact .fails
    case inr =>
      cases hg.symm.trans h
      have hq := Stage.queue_eq_of_execute hx
      change Effect n.books _ _ { n.books with queue := stage.queue }
      rw [hq]
      exact .queues
  case alarm id =>
    cases h
    change Effect n.books _ (n.messenger.waiting[id]?.elim _ _)
      { n.books with messenger := (n.messenger.claim id).2 }
    cases hw : n.messenger.waiting[id]?
    case none =>
      rw [claim_eq_self hw]
      exact .late
    case some request => exact .expires hw
  case settling ticket result =>
    cases h
    exact .settles
  case done =>
    cases h
    exact .rests

-- Only merges are queued, and no thread takes a job while it has another.
theorem Effect.belong {b b' : Books} (h : Effect b w w' b') :
    (∀ j ∈ b'.queue, j ∈ b.queue ∨ j.Belongs) ∧ ∀ j, w' ≠ job j := by
  cases h
  case queues message request batch =>
    refine ⟨fun j hm => (List.mem_append.mp hm).imp_right fun hm => ?_, nofun⟩
    rw [List.mem_singleton.mp hm]
    trivial
  all_goals exact ⟨fun j hm => .inl hm, nofun⟩

end Work
end ClusterMetadata
