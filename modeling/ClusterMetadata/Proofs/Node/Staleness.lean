import ClusterMetadata.Proofs.Node.Tally
import ClusterMetadata.Proofs.Node.Turn

/-!
Messages that have waited too long. Whatever messages come to a node and whenever its workers come
to them, by whatever clock: a message that has waited for the timeout of its verb leaves nothing but
its count, any other that was accepted is handled once (`accounted_after`).
-/

namespace ClusterMetadata

-- A message with its id, and the time at which it came.
structure Arrival where
  message : Inbound
  id : String
  time : Nat

def Job.arrival? : Job → Option Arrival
  | .inbound message id time => some ⟨message, id, time⟩
  | _                        => none

namespace Node

variable {n n' n₀ : Node} {net : Network} {name : StageName} {message : Inbound} {id : String}
  {clock : Clock}

def waiting (n : Node) (name : StageName) : List Arrival :=
  (n.stage name).queue.filterMap Job.arrival?

-- The message that a free worker of the stage comes to.
def next? (n : Node) (name : StageName) : Option Arrival :=
  (n.stage name).take.bind (·.1.arrival?)

-- What a worker comes to: first it was `before`, and `after` when the worker was free again.
structure Execution where
  stage : StageName
  arrival : Arrival
  net : Network
  before : Node
  after : Node

namespace Execution

variable (e : Execution)

def verb : Verb := e.arrival.message.verb

-- A message has waited for no time by a clock that shows less than at its arrival.
def IsStale : Prop :=
  (e.before.config.timeout e.verb : Int) ≤
    max ((e.before.clock.elapsed : Int) - (e.arrival.time : Int)) 0

instance : Decidable e.IsStale := inferInstanceAs (Decidable (_ ≤ _))

theorem isStale_iff : e.IsStale ↔
    e.before.config.timeout e.verb ≤ e.before.clock.elapsed - e.arrival.time := by
  rw [IsStale]
  omega

-- The message has left its stage and been counted. Nothing else is different.
structure Skipped : Prop where
  still   : ∃ metrics stage, e.after = { e.before with metrics }.setStage stage e.stage
  counted : e.before.metrics.Tallies e.after.metrics fun verb => if e.verb = verb then 1 else 0

-- The message has left its stage, and the handler has run once, whether or not it failed.
def Through (handler : NodeM Unit) : Prop :=
  e.after = (((e.before.run (takeJob e.stage)).2.run handler).2.run (finishJob e.stage)).2

-- The message has been handled as its verb says, and nothing has been counted.
structure Handled : Prop where
  write       : e.verb = .mutation →
    e.Through (handleMutation e.net e.arrival.message e.arrival.id)
  response    : e.verb = .requestResponse →
    e.Through (handleResponse e.arrival.message e.arrival.id)
  definitions : e.verb = .definitionsUpdate → e.Through (handleDefinitions e.arrival.message)
  request     : e.verb = .migrationRequest →
    e.Through (handleMigrationRequest e.arrival.message e.arrival.id)
  uncounted   : e.after.metrics = e.before.metrics

end Execution

-- A message comes in, or a worker of a stage looks for something to do. The clock shows anything.
inductive Moment where
  | arrives (clock : Clock) (message : Inbound) (id : String)
  | works (clock : Clock) (net : Network) (name : StageName)

namespace Moment

def run : Moment → NodeM Unit
  | arrives clock message id => do
    modify ({ · with clock })
    receive message id
  | works clock net name     => do
    modify ({ · with clock })
    runNext net name

-- The messages that are let in, each on the stage of its verb.
def accepted (n : Node) : Moment → StageName → List Arrival
  | moment@(arrives clock message id), name =>
    if stageOf message.verb = name ∧ (n.run moment.run).1.isOk then
      [⟨message, id, clock.elapsed⟩]
    else []
  | works .., _                             => []

def executed (n : Node) : Moment → List Execution
  | arrives ..                    => []
  | moment@(works clock net name) =>
    let before := { n with clock }
    (before.next? name).toList.map fun arrival =>
      { stage := name, arrival, net, before, after := (n.run moment.run).2 }

end Moment

def after (n : Node) (moments : List Moment) : Node :=
  moments.foldl (fun n moment => (n.run moment.run).2) n

def accepted (n : Node) : List Moment → StageName → List Arrival
  | [],                _    => []
  | moment :: moments, name => moment.accepted n name ++ accepted (n.run moment.run).2 moments name

def executed (n : Node) : List Moment → List Execution
  | []                => []
  | moment :: moments => moment.executed n ++ executed (n.run moment.run).2 moments

-- To the messages that wait the node is the same, and it has counted the same.
structure SameWork (n n' : Node) : Prop where
  config  : n'.config = n.config
  metrics : n'.metrics = n.metrics
  waiting : n'.waiting = n.waiting

namespace SameWork

theorem refl (n : Node) : n.SameWork n := ⟨rfl, rfl, rfl⟩

theorem aside (h : n₀.SameWork n) (config : n'.config = n.config)
    (metrics : n'.metrics = n.metrics) (stages : n'.stage = n.stage) : n₀.SameWork n' where
  config  := config.trans h.config
  metrics := metrics.trans h.metrics
  waiting := by
    rw [← h.waiting]
    funext name
    rw [Node.waiting, Node.waiting, stages]

theorem setStage {stage : Stage Job} (h : n₀.SameWork n)
    (hq : stage.queue.filterMap Job.arrival? = n.waiting name) :
    n₀.SameWork (n.setStage stage name) where
  config  := by cases name <;> exact h.config
  metrics := by cases name <;> exact h.metrics
  waiting := by
    rw [← h.waiting]
    funext name'
    rw [Node.waiting, stage_setStage]
    split
    case isTrue he => rw [hq, he]
    case isFalse   => rfl

theorem ignoresTalk : IgnoresTalk n₀.SameWork where
  watches _ _ _ h := h.aside rfl rfl rfl
  draws _ h       := h.aside rfl rfl rfl
  emits _ _ _ h   := h.aside rfl rfl rfl

-- Only messages count that wait.
theorem keeps_execute {job : Job} (hj : job.arrival? = none) :
    Keeps n₀.SameWork (execute name job) := by
  intro n h
  rw [run_execute]
  split
  case h_2 => exact h
  case h_1 stage hx =>
    refine h.setStage ?_
    rw [Stage.queue_eq_of_execute hx, List.filterMap_append]
    simp [hj, Node.waiting]

theorem keeps_settle (ticket : Nat) (result : Except Failure MergeReport) :
    Keeps n₀.SameWork (settle ticket result) :=
  fun _ h => h.aside rfl rfl rfl

theorem keeps_merge (batch : List Mutation) : Keeps n₀.SameWork (merge batch) :=
  Node.keeps_merge ignoresTalk (fun _ => trivial) (fun _ _ h => h.aside rfl rfl rfl)
    fun _ h => h.aside rfl rfl rfl

theorem handling : Handling n₀.SameWork where
  talks                 := ignoresTalk
  asks _ _              := keeps_modifyGet fun _ h => h.aside rfl rfl rfl
  applies _ _ h         := h.aside rfl rfl rfl
  merges                := keeps_merge
  responds _ _ _ h      :=
    holds_handleResponse (h.aside rfl rfl rfl) fun _ _ =>
      keeps_mergeResponse (keeps_settle _) fun _ => keeps_execute rfl

-- What a worker does that does not come to a message.
theorem keeps_runJob {job : Job} (hj : job.arrival? = none) (net : Network) :
    Keeps n₀.SameWork (runJob net job) := by
  cases job
  case inbound message id arrived => cases hj
  case merge batch ticket => exact (keeps_merge batch).outcome.bind fun _ => keeps_settle _ _
  case pull peer ticket =>
    exact keeps_requestPull ignoresTalk (fun _ => trivial) (fun _ _ h => h.aside rfl rfl rfl)
      (fun _ _ h => h.aside rfl rfl rfl) ticket

theorem keeps_finishJob (name : StageName) : Keeps n₀.SameWork (finishJob name) := by
  intro n h
  exact h.setStage (by rw [Stage.queue_finish]; rfl)

end SameWork

theorem waiting_of_take {job : Job} {stage : Stage Job}
    (h : (n.stage name).take = some (job, stage)) (other : StageName) :
    n.waiting other = (if name = other then job.arrival?.toList else []) ++
      (n.setStage stage name).waiting other := by
  rw [waiting, waiting, stage_setStage]
  by_cases he : name = other
  case neg => rw [if_neg he, if_neg fun h => he h.symm, List.nil_append]
  case pos =>
    subst he
    rw [if_pos rfl, if_pos rfl, Stage.queue_eq_of_take h, List.filterMap_cons]
    cases job.arrival? <;> rfl

theorem snd_run_runNext_of_take {job : Job} {stage : Stage Job} (net : Network)
    (h : (n.stage name).take = some (job, stage)) : (n.run (runNext net name)).2 =
      (((n.setStage stage name).run (runJob net job)).2.run (finishJob name)).2 := by
  have ⟨n', hr⟩ := exists_run_runJob (n.setStage stage name) net job
  simp only [runNext, run_bind, run_takeJob, h, hr]

-- What a worker of the stage does to the node that turns to it.
structure Turned (net : Network) (name : StageName) (n n' : Node) : Prop where
  config  : n'.config = n.config
  waiting : ∀ other, n.waiting other =
    (if name = other then (n.next? name).toList else []) ++ n'.waiting other
  counts  : n.next? name = none → n'.metrics = n.metrics
  does    : ∀ arrival, n.next? name = some arrival →
    let e : Execution := ⟨name, arrival, net, n, n'⟩
    (e.IsStale → e.Skipped) ∧ (¬e.IsStale → e.Handled)

theorem turned_of_take_eq_none (h : (n.stage name).take = none) :
    n.Turned net name (n.run (runNext net name)).2 := by
  have hn : n.next? name = none := by rw [next?, h]; rfl
  have hr : (n.run (runNext net name)).2 = n := by
    rw [runNext, run_bind, run_takeJob, h]
    rfl
  rw [hr]
  constructor
  case config  => rfl
  case waiting => simp [hn]
  case counts  => exact fun _ => rfl
  case does    => simp [hn]

theorem turned_of_other_job {job : Job} {stage : Stage Job}
    (h : (n.stage name).take = some (job, stage)) (hj : job.arrival? = none) :
    n.Turned net name (n.run (runNext net name)).2 := by
  have hn : n.next? name = none := by rw [next?, h]; exact hj
  have same : (n.setStage stage name).SameWork (n.run (runNext net name)).2 := by
    rw [snd_run_runNext_of_take net h]
    exact SameWork.keeps_finishJob name _ (SameWork.keeps_runJob hj net _ (.refl _))
  constructor
  case config => exact same.config.trans (by cases name <;> rfl)
  case waiting =>
    intro other
    rw [waiting_of_take h, same.waiting, hj, hn]
  case counts => exact fun _ => same.metrics.trans (by cases name <;> rfl)
  case does   => simp [hn]

section

variable {arrival : Arrival} {stage : Stage Job}
  (h : (n.stage name).take = some (.inbound arrival.message arrival.id arrival.time, stage))

include h

theorem next?_of_message : n.next? name = some arrival := by rw [next?, h]; rfl

theorem snd_run_runNext_of_message (net : Network) : (n.run (runNext net name)).2 =
    (((n.setStage stage name).run
      (runInbound net arrival.message arrival.id arrival.time)).2.run (finishJob name)).2 := by
  rw [snd_run_runNext_of_take net h, runJob, snd_run_discard]

-- Whatever came of the message, the others still wait.
theorem Turned.of_message {m : Node} (config : m.config = n.config)
    (waiting : m.waiting = (n.setStage stage name).waiting)
    (does : let e : Execution := ⟨name, arrival, net, n, (m.run (finishJob name)).2⟩
      (e.IsStale → e.Skipped) ∧ (¬e.IsStale → e.Handled)) :
    n.Turned net name (m.run (finishJob name)).2 := by
  have hn := next?_of_message h
  have same : m.SameWork (m.run (finishJob name)).2 := SameWork.keeps_finishJob name m (.refl m)
  constructor
  case config => exact same.config.trans config
  case waiting =>
    intro other
    rw [waiting_of_take h, same.waiting, waiting, hn]
    rfl
  case counts => simp [hn]
  case does =>
    intro arrival' ha
    obtain rfl := Option.some.inj (hn.symm.trans ha)
    exact does

omit h in
theorem skipped_of_counted (net : Network) (arrival : Arrival) (stage : Stage Job) :
    let taken := n.setStage stage name
    let m : Node := { taken with
      metrics := taken.metrics.countDropped arrival.message.verb }
    (⟨name, arrival, net, n, (m.run (finishJob name)).2⟩ : Execution).Skipped := by
  intro taken m
  have hm : taken.metrics = n.metrics := by cases name <;> rfl
  constructor
  case still =>
    refine ⟨m.metrics, stage.finish (stage.running.length - 1), ?_⟩
    cases name <;> rfl
  case counted =>
    change n.metrics.Tallies _ _
    rw [(SameWork.keeps_finishJob name m (.refl m)).metrics, ← hm]
    exact Metrics.tallies_countDropped _ _

theorem handled_of_message (net : Network) :
    let m := ((n.setStage stage name).run (handle net arrival.message arrival.id)).2
    (⟨name, arrival, net, n, (m.run (finishJob name)).2⟩ : Execution).Handled := by
  intro m
  have same : (n.setStage stage name).SameWork m := SameWork.handling.handle net _ _ _ (.refl _)
  have through : Execution.Through ⟨name, arrival, net, n, (m.run (finishJob name)).2⟩
      (handle net arrival.message arrival.id) := by
    rw [Execution.Through, run_takeJob, h]
  rw [handle] at through
  constructor
  case uncounted =>
    change _ = n.metrics
    rw [(SameWork.keeps_finishJob name m (.refl m)).metrics, same.metrics]
    cases name <;> rfl
  all_goals
    intro hv
    have hv : arrival.message.verb = _ := hv
    rwa [hv] at through

theorem turned_of_message : n.Turned net name (n.run (runNext net name)).2 := by
  have hc : (n.setStage stage name).config = n.config := by cases name <;> rfl
  have hk : (n.setStage stage name).clock = n.clock := by cases name <;> rfl
  rw [snd_run_runNext_of_message h, run_runInbound, hc, hk]
  split
  case isTrue stale =>
    refine .of_message h hc rfl ⟨fun _ => skipped_of_counted net arrival stage, fun fresh => ?_⟩
    exact absurd ((Execution.isStale_iff _).mpr stale) fresh
  case isFalse fresh =>
    have same := SameWork.handling.handle net arrival.message arrival.id (n.setStage stage name)
      (.refl _)
    refine .of_message h (same.config.trans hc) same.waiting ⟨fun stale => ?_, fun _ => ?_⟩
    case refine_1 => exact absurd ((Execution.isStale_iff _).mp stale) fresh
    case refine_2 => exact handled_of_message h net

end

theorem turned_run_runNext (n : Node) (net : Network) (name : StageName) :
    n.Turned net name (n.run (runNext net name)).2 := by
  cases h : (n.stage name).take
  case none => exact turned_of_take_eq_none h
  case some taken =>
    obtain ⟨job, stage⟩ := taken
    cases job
    case inbound message id time =>
      let arrival : Arrival := ⟨message, id, time⟩
      have h : (n.stage name).take =
          some (.inbound arrival.message arrival.id arrival.time, stage) := h
      exact turned_of_message h
    case merge batch ticket => exact turned_of_other_job h rfl
    case pull peer ticket   => exact turned_of_other_job h rfl

-- What was accepted on each stage, after what waited there, is what workers came to, each message
-- once and in this order, and what waits now.
structure Accounted (n n' : Node) (accepted : StageName → List Arrival)
    (executed : List Execution) : Prop where
  config  : n'.config = n.config
  waiting : ∀ name, n.waiting name ++ accepted name =
    (executed.filter (·.stage = name)).map (·.arrival) ++ n'.waiting name
  does    : ∀ e ∈ executed, e.before.config = n.config ∧
    (e.IsStale → e.Skipped) ∧ (¬e.IsStale → e.Handled)
  counts  : n.metrics.Tallies n'.metrics fun verb =>
    executed.countP fun e => e.IsStale ∧ e.verb = verb

namespace Accounted

variable {n₁ : Node} {accepted accepted' : StageName → List Arrival}
  {executed executed' : List Execution}

theorem refl (n : Node) : n.Accounted n (fun _ => []) [] where
  config    := rfl
  waiting _ := by simp
  does      := by simp
  counts    := Metrics.tallies_zero

theorem trans (h : n.Accounted n₁ accepted executed)
    (h₁ : n₁.Accounted n' accepted' executed') :
    n.Accounted n' (fun name => accepted name ++ accepted' name) (executed ++ executed') where
  config := h₁.config.trans h.config
  waiting name := by
    rw [← List.append_assoc, h.waiting, List.append_assoc, h₁.waiting, List.filter_append,
      List.map_append, List.append_assoc]
  does e he := by
    cases List.mem_append.mp he
    case inl he => exact h.does e he
    case inr he => exact h.config ▸ h₁.does e he
  counts := by
    simp only [List.countP_append]
    exact h.counts.trans h₁.counts

end Accounted

theorem run_arrives (n : Node) (clock : Clock) (message : Inbound) (id : String) :
    n.run (Moment.arrives clock message id).run =
      match (n.stage (stageOf message.verb)).execute (.inbound message id clock.elapsed) with
      | .ok stage => (.ok (), { n with clock }.setStage stage (stageOf message.verb))
      | .error e  => (.error (.stage e), { n with clock }) :=
  run_execute { n with clock } _ _

theorem accounted_arrives (n : Node) (clock : Clock) (message : Inbound) (id : String) :
    let moment : Moment := .arrives clock message id
    n.Accounted (n.run moment.run).2 (moment.accepted n) (moment.executed n) := by
  intro moment
  have hr := run_arrives n clock message id
  cases hx : (n.stage (stageOf message.verb)).execute (.inbound message id clock.elapsed)
  case error e =>
    simp only [hx] at hr
    have ha : moment.accepted n = fun _ => [] := by
      funext name
      simp [moment, Moment.accepted, hr, Except.isOk, Except.toBool]
    rw [hr, ha]
    exact { Accounted.refl n with }
  case ok stage =>
    simp only [hx] at hr
    rw [hr]
    constructor
    case config => cases stageOf message.verb <;> rfl
    case counts =>
      have hm : ({ n with clock }.setStage stage (stageOf message.verb)).metrics = n.metrics := by
        cases stageOf message.verb <;> rfl
      rw [hm]
      exact Metrics.tallies_zero
    case does => simp [moment, Moment.executed]
    case waiting =>
      intro name
      have ha : moment.accepted n name =
          if name = stageOf message.verb then [⟨message, id, clock.elapsed⟩] else [] := by
        simp [moment, Moment.accepted, hr, Except.isOk, Except.toBool, eq_comm]
      change _ = Node.waiting _ name
      rw [ha, Node.waiting, Node.waiting, stage_setStage]
      split
      case isFalse => exact List.append_nil _
      case isTrue he =>
        rw [Stage.queue_eq_of_execute hx, List.filterMap_append, he]
        rfl

theorem accounted_works (n : Node) (clock : Clock) (net : Network) (name : StageName) :
    let moment : Moment := .works clock net name
    n.Accounted (n.run moment.run).2 (moment.accepted n) (moment.executed n) := by
  intro moment
  let before := { n with clock }
  have turned : before.Turned net name (n.run moment.run).2 := turned_run_runNext before net name
  constructor
  case config => exact turned.config
  case waiting =>
    intro other
    have hw : n.waiting other = before.waiting other := rfl
    rw [hw, turned.waiting]
    simp only [moment, Moment.accepted, Moment.executed]
    cases before.next? name <;> by_cases he : name = other <;> simp [he]
  case does =>
    intro e he
    simp only [moment, Moment.executed, List.mem_map, Option.mem_toList] at he
    obtain ⟨arrival, hn, rfl⟩ := he
    exact ⟨rfl, turned.does arrival hn⟩
  case counts =>
    simp only [moment, Moment.executed]
    cases hn : before.next? name
    case none =>
      rw [turned.counts hn]
      exact Metrics.tallies_zero
    case some arrival =>
      have ⟨skipped, handled⟩ := turned.does arrival hn
      let e : Execution := ⟨name, arrival, net, before, (n.run moment.run).2⟩
      change before.metrics.Tallies e.after.metrics fun verb =>
        [e].countP fun e => e.IsStale ∧ e.verb = verb
      by_cases hs : e.IsStale
      case pos => simpa [List.countP_singleton, hs] using (skipped hs).counted
      case neg =>
        rw [(handled hs).uncounted]
        simpa [List.countP_singleton, hs] using Metrics.tallies_zero

theorem accounted_moment (n : Node) (moment : Moment) :
    n.Accounted (n.run moment.run).2 (moment.accepted n) (moment.executed n) := by
  cases moment
  case arrives clock message id => exact accounted_arrives n clock message id
  case works clock net name     => exact accounted_works n clock net name

theorem accounted_after (n : Node) (moments : List Moment) :
    n.Accounted (n.after moments) (accepted n moments) (executed n moments) := by
  induction moments generalizing n
  case nil => exact .refl n
  case cons moment moments hi => exact (accounted_moment n moment).trans (hi _)

end Node
end ClusterMetadata
