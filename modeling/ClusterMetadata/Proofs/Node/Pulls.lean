import ClusterMetadata.Proofs.Node.Work

/-!
Pulls while all threads of a node work at the same time. Their steps come in any order, so that a
response can arrive at any moment, also when its request is still being made or has been given up,
and it can come twice. The operations of the node are runs of such steps
(`exists_steps_response`, `exists_steps_alarm`, `exists_steps_runNext`).
-/

namespace ClusterMetadata

open Node

inductive PullEvent where
  | requested (id : String)
  | sent (id : String)
  | claimed (id : String)
  | expired (id : String)
  | merged (ticket : Nat)
  | settled (ticket : Nat) (result : Except Failure MergeReport)

namespace PullEvent

def requested? : PullEvent → Option String
  | requested id => some id
  | _            => none

def sent? : PullEvent → Option String
  | sent id => some id
  | _       => none

def claimed? : PullEvent → Option String
  | claimed id => some id
  | _          => none

def expired? : PullEvent → Option String
  | expired id => some id
  | _          => none

def merged? : PullEvent → Option Nat
  | merged ticket => some ticket
  | _             => none

def settled? : PullEvent → Option (Nat × Except Failure MergeReport)
  | settled ticket result => some (ticket, result)
  | _                     => none

end PullEvent

def Job.ticket? : Job → Option Nat
  | inbound ..     => none
  | merge _ ticket => some ticket
  | pull _ ticket  => some ticket

namespace Work

-- What has happened once the thread has come from here to there.
def event : Work → Work → Option PullEvent
  | drawn _ id, _             => some (.requested id)
  | registered _ id, _        => some (.sent id)
  | response _ id, claimed .. => some (.claimed id)
  | alarm id, settling ..     => some (.expired id)
  | job (.merge _ ticket), _  => some (.merged ticket)
  | settling ticket result, _ => some (.settled ticket result)
  | _, _                      => none

-- How many ids are drawn in the next step.
def draws : Work → Nat
  | job (.pull ..) => 1
  | _              => 0

-- The request is registered, but not sent yet.
def unsent? : Work → Option String
  | registered _ id => some id
  | _               => none

end Work

-- A node, its threads, how many ids have been drawn, and what has happened to the pulls.
structure Pulls where
  node    : Node
  works   : List Work
  drawn   : Nat
  history : List PullEvent

namespace Pulls

variable {p p' : Pulls}

def start (n : Node) : Pulls where
  node    := n
  works   := []
  drawn   := 0
  history := []

section

variable (p : Pulls)

def requested : List String := p.history.filterMap (·.requested?)

def sent : List String := p.history.filterMap (·.sent?)

def claimed : List String := p.history.filterMap (·.claimed?)

def expired : List String := p.history.filterMap (·.expired?)

def merged : List Nat := p.history.filterMap (·.merged?)

def settled : List (Nat × Except Failure MergeReport) := p.history.filterMap (·.settled?)

-- The requests that are registered and about to be sent.
def unsent : List String := p.works.filterMap (·.unsent?)

end

-- One thread has gone on. The order of the threads is of no account.
def after (p : Pulls) (n : Node) (w w' : Work) (rest : List Work) : Pulls where
  node    := n
  works   := w' :: rest
  drawn   := p.drawn + w.draws
  history := p.history ++ (w.event w').toList

inductive Step : Pulls → Pulls → Prop
  -- A pull is asked for, or a batch is announced.
  | submits (p : Pulls) (peer : Address) :
      Step p { p with node := (p.node.run (submitPull peer)).2 }
  | announces (p : Pulls) (batch : List Mutation) :
      Step p { p with node := (p.node.run do execute .migration (.merge batch (← newTicket))).2 }
  -- Another member tells its definitions, or asks for those of the node.
  | receives (p : Pulls) (message : Inbound) (id : String)
      (verb : stageOf message.verb = .migration) :
      Step p { p with node := (p.node.run (receive message id)).2 }
  -- A worker of the migration stage takes a job.
  | takes {p : Pulls} {n : Node} {j : Job}
      (taken : p.node.run (takeJob .migration) = (.ok (some j), n)) :
      Step p { p with node := n, works := .job j :: p.works }
  -- Any response comes to a worker, under any id.
  | hears (p : Pulls) (message : Inbound) (id : String) :
      Step p { p with works := .response message id :: p.works }
  -- A timer goes off.
  | fires (p : Pulls) (id : String) : Step p { p with works := .alarm id :: p.works }
  -- One of the threads goes on.
  | works {p : Pulls} {n : Node} {net : Network} {w w' : Work} {rest : List Work}
      (one : p.works.Perm (w :: rest)) (goes : Work.Goes net (p.node, w) (n, w')) :
      Step p (p.after n w w' rest)
  -- Whatever else the node does, it may draw ids for it.
  | elsewhere {p : Pulls} {n : Node} {k : Nat}
      (apart : n.books = { p.node.books with messenger := p.node.messenger.skip k }) :
      Step p { p with node := n, drawn := p.drawn + k }

variable {n n' : Node} {w w' : Work} {works : List Work} {drawn : Nat}
  {history : List PullEvent}

-- The thread in front goes on.
theorem Step.goes (net : Network) (h : Work.Goes net (n, w) (n', w')) :
    Step ⟨n, w :: works, drawn, history⟩
      ⟨n', w' :: works, drawn + w.draws, history ++ (w.event w').toList⟩ :=
  .works (p := ⟨n, w :: works, drawn, history⟩) (.refl _) h

-- A thread that nobody interrupts comes to the same as its whole operation.

theorem exists_steps_of_goes {net : Network} {a b : Node × Work}
    (h : Relation.ReflTransGen (Work.Goes net) a b) (works : List Work) (drawn : Nat)
    (history : List PullEvent) :
    ∃ p, Relation.ReflTransGen Step ⟨a.1, a.2 :: works, drawn, history⟩ p ∧ p.node = b.1 ∧
      p.works = b.2 :: works := by
  induction h
  case refl => exact ⟨_, .refl, rfl, rfl⟩
  case tail b c _ goes hi =>
    have ⟨⟨n, ws, drawn', history'⟩, steps, hn, hw⟩ := hi
    subst hn hw
    exact ⟨_, steps.tail (.goes net goes), rfl, rfl⟩

theorem exists_steps_response (p : Pulls) (message : Inbound) (id : String) :
    ∃ p', Relation.ReflTransGen Step p p' ∧
      p'.node = (p.node.run (handleResponse message id)).2 := by
  have goes := Work.goes_response p.node (Network.new 1 0) message id
  have ⟨p', steps, hn, _⟩ := exists_steps_of_goes goes p.works p.drawn p.history
  exact ⟨p', .head (.hears p message id) steps, hn⟩

theorem exists_steps_alarm (p : Pulls) (id : String) :
    ∃ p', Relation.ReflTransGen Step p p' ∧ p'.node = (p.node.run (expire id)).2 := by
  have goes := (Work.goes_alarm p.node (Network.new 1 0) id).left
  have ⟨p', steps, hn, _⟩ := exists_steps_of_goes goes p.works p.drawn p.history
  exact ⟨p', .head (.fires p id) steps, hn⟩

theorem books_finishJob (n : Node) : (n.run (finishJob .migration)).2.books = n.books := by
  have hq : (n.migration.finish (n.migration.running.length - 1)).queue = n.migration.queue := by
    rw [Stage.finish]
    split <;> rfl
  change { n.books with queue := (n.migration.finish (n.migration.running.length - 1)).queue } = _
  rw [hq]
  rfl

theorem exists_steps_runNext (p : Pulls) (net : Network) :
    ∃ p', Relation.ReflTransGen Step p p' ∧ p'.node = (p.node.run (runNext net .migration)).2 := by
  cases ht : (p.node.stage .migration).take
  case none =>
    rw [runNext, run_bind, run_takeJob, ht]
    exact ⟨p, .refl, rfl⟩
  case some taken =>
    obtain ⟨j, stage⟩ := taken
    let n := p.node.setStage stage .migration
    have ht : p.node.run (takeJob .migration) = (.ok (some j), n) := by rw [run_takeJob, ht]
    rw [runNext, run_bind, ht]
    change ∃ p', _ ∧ _ = (n.run (runJob net j >>= fun _ => finishJob .migration)).2
    have goes := Work.goes_job n net j
    obtain ⟨p', steps, hn, _⟩ := exists_steps_of_goes goes p.works p.drawn p.history
    have steps := steps.head (.takes ht)
    rw [run_bind]
    cases hr : n.run (runJob net j)
    case mk result n' =>
      rw [hr] at hn
      cases result
      case error e => exact ⟨p', steps, hn⟩
      case ok _ =>
        have finishes : Step p' { p' with
            node  := (n'.run (finishJob .migration)).2
            drawn := p'.drawn + 0 } := by
          refine .elsewhere ?_
          rw [books_finishJob, hn, Messenger.skip_zero]
          rfl
        exact ⟨_, steps.tail finishes, rfl⟩

-- The jobs of the migration stage belong there.
structure Sorted (p : Pulls) : Prop where
  queued : ∀ j ∈ p.node.books.queue, j.Belongs
  taken  : ∀ j, .job j ∈ p.works → j.Belongs

-- What a step comes to for the books.
inductive Change (p : Pulls) : Pulls → Prop
  | queues {n : Node} (js : List Job) (k : Nat)
      (books : n.books = { p.node.books with
        queue      := p.node.books.queue ++ js
        nextTicket := p.node.books.nextTicket + k })
      (belong : ∀ j ∈ js, j.Belongs)
      (tickets : (js.filterMap (·.ticket?)).Sublist (List.range' p.node.books.nextTicket k)) :
      Change p { p with node := n }
  | takes {n : Node} {j : Job} {js : List Job} (queue : p.node.books.queue = j :: js)
      (books : n.books = { p.node.books with queue := js }) :
      Change p { p with node := n, works := .job j :: p.works }
  | hears (message : Inbound) (id : String) :
      Change p { p with works := .response message id :: p.works }
  | fires (id : String) : Change p { p with works := .alarm id :: p.works }
  | works {n : Node} {w w' : Work} {rest : List Work} (one : p.works.Perm (w :: rest))
      (effect : Work.Effect p.node.books w w' n.books) :
      Change p (p.after n w w' rest)
  | elsewhere {n : Node} {k : Nat}
      (books : n.books = { p.node.books with messenger := p.node.books.messenger.skip k }) :
      Change p { p with node := n, drawn := p.drawn + k }

theorem books_execute (n : Node) (j : Job) : ∃ js : List Job, js.Sublist [j] ∧
    (n.run (execute .migration j)).2.books = { n.books with queue := n.books.queue ++ js } := by
  rw [run_execute, stage]
  cases hx : n.migration.execute j
  case error e => exact ⟨[], List.nil_sublist _, by simp [Node.books]⟩
  case ok s =>
    refine ⟨[j], .refl _, ?_⟩
    simp [Node.books, setStage, Stage.queue_eq_of_execute hx]

theorem Change.submits {n n' : Node} {j : Job} (hb : j.Belongs) (ht : j.ticket? = some n.nextTicket)
    (hn : n' = ({ n with nextTicket := n.nextTicket + 1 }.run (execute .migration j)).2)
    (works : List Work) (drawn : Nat) (history : List PullEvent) :
    Change ⟨n, works, drawn, history⟩ ⟨n', works, drawn, history⟩ := by
  have ⟨js, hs, hx⟩ := books_execute { n with nextTicket := n.nextTicket + 1 } j
  rw [← hn] at hx
  refine .queues js 1 hx (fun j' hm => ?_) ?_
  · rwa [List.mem_singleton.mp (hs.subset hm)]
  · have hf := hs.filterMap Job.ticket?
    rwa [List.filterMap_cons_some ht] at hf

theorem Sorted.change (hs : p.Sorted) (h : Step p p') : Change p p' := by
  cases h
  case submits peer =>
    refine .submits (j := .pull peer p.node.nextTicket) trivial rfl ?_ ..
    change ({ p.node with nextTicket := p.node.nextTicket + 1 }.run
      (execute .migration (.pull peer p.node.nextTicket) >>= fun _ => pure p.node.nextTicket)).2 = _
    rw [run_bind]
    split <;> simp_all
  case announces batch =>
    exact .submits (j := .merge batch p.node.nextTicket) trivial rfl rfl ..
  case receives message id verb =>
    have ⟨js, hs, hx⟩ := books_execute p.node (.inbound message id p.node.clock.elapsed)
    have hr : p.node.run (receive message id) =
        p.node.run (execute .migration (.inbound message id p.node.clock.elapsed)) := by
      rw [← verb]
      rfl
    rw [← hr] at hx
    refine .queues js 0 hx (fun j' hm => ?_) ?_
    · rwa [List.mem_singleton.mp (hs.subset hm)]
    · exact hs.filterMap Job.ticket?
  case takes n j taken =>
    rw [run_takeJob] at taken
    split at taken <;> cases taken
    case h_1 stage ht => exact .takes (Stage.queue_eq_of_take ht) rfl
  case hears message id => exact .hears message id
  case fires id => exact .fires id
  case works n net w w' rest one goes =>
    refine .works one (Work.effect_of_goes ?_ goes)
    intro j hj
    subst hj
    exact hs.taken j (one.mem_iff.mpr List.mem_cons_self)
  case elsewhere n k apart => exact .elsewhere apart

theorem Sorted.of_change (hs : p.Sorted) (h : Change p p') : p'.Sorted := by
  cases h
  case queues n js k books belong tickets =>
    refine ⟨fun j hm => ?_, hs.taken⟩
    rw [books] at hm
    rcases List.mem_append.mp hm with hm | hm
    · exact hs.queued j hm
    · exact belong j hm
  case takes n j js queue books =>
    refine ⟨fun j' hm => ?_, fun j' hm => ?_⟩
    · rw [books] at hm
      exact hs.queued j' (queue ▸ List.mem_cons_of_mem j hm)
    · rcases List.mem_cons.mp hm with he | hm
      · cases he
        exact hs.queued j (queue ▸ List.mem_cons_self)
      · exact hs.taken j' hm
  case hears message id =>
    exact ⟨hs.queued, fun j hm => hs.taken j (by simpa using hm)⟩
  case fires id =>
    exact ⟨hs.queued, fun j hm => hs.taken j (by simpa using hm)⟩
  case works n w w' rest one effect =>
    have ⟨hq, hw⟩ := effect.belong
    refine ⟨fun j hm => (hq j hm).elim (hs.queued j) id, fun j hm => ?_⟩
    have hm := (List.mem_cons.mp hm).resolve_left (hw j).symm
    exact hs.taken j (one.mem_iff.mpr (List.mem_cons_of_mem w hm))
  case elsewhere n k books =>
    exact ⟨fun j hm => hs.queued j (by rwa [books] at hm), hs.taken⟩

end Pulls
end ClusterMetadata
