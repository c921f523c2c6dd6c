import ClusterMetadata.Proofs.Node.Advertised
import ClusterMetadata.Proofs.Node.Conduct

/-!
The threads of a node that change its schema or tell its version, between two of their steps. A
merge changes the schema under a lock, tells the observers, and advertises the version that it has
left in the schema. A reset and a start change the schema and look up the version before they
advertise it. Other threads may come in between. What a step can do to the node is listed once
(`does_of_goes`), and so is what that means for the version of the schema (`Does.effect`).
-/

namespace ClusterMetadata

open Node

-- How far a thread has come that changes the schema or tells its version.
inductive Publisher where
  -- The worker of the migration stage has a batch, has written it and read it back, has told the
  -- observers, and has made the registry forget.
  | merging (batch : List Mutation)
  | written (report : MergeReport)
  | told (report : MergeReport)
  | forgot (report : MergeReport)
  -- A reset clears the schema and a start reads it. Then the version is looked up.
  | resetting
  | starting
  | changed
  -- This version is to be advertised.
  | holding (version : Uuid)
  | done

namespace Publisher

-- The version that the thread has taken and not told yet.
def version? : Publisher → Option Uuid
  | written report  => some report.version
  | told report     => some report.version
  | forgot report   => some report.version
  | holding version => some version
  | _               => none

def isNew : Publisher → Bool
  | merging _ => true
  | resetting => true
  | starting  => true
  | holding _ => true
  | _         => false

def isMerge : Publisher → Bool
  | merging _ => true
  | written _ => true
  | told _    => true
  | forgot _  => true
  | _         => false

-- In its next step the thread takes a version, or tells the one that it has taken.

def takes : Publisher → Bool
  | merging _ => true
  | changed   => true
  | _         => false

def tells : Publisher → Bool
  | forgot _  => true
  | holding _ => true
  | _         => false

-- The part of a merge that other threads wait for.
def write (batch : List Mutation) : NodeM MergeReport := do
  let n ← get
  let (storage, schema, report) := n.schema.merge n.storage batch
  set { n with storage, schema }
  lift .storage report

theorem merge_eq (batch : List Mutation) : merge batch = (do
    let report ← write batch
    notify report.events
    publish report
    return report) := by
  simp only [merge, commit, write, bind_assoc, pure_bind]

-- What the thread does at one go, and how far it has come then.
def next : Publisher → NodeM Publisher
  | merging batch => do
    match ← outcome (write batch) with
    | .ok report => return written report
    | .error _   => return done
  | written report => do
    notify report.events
    return told report
  | told report => do
    modify fun n => { n with registry := report.registryTargets.foldl (·.invalidate) n.registry }
    return forgot report
  | forgot report => do
    advertise report.version
    return done
  | resetting => do
    match ← outcome clearSchema with
    | .ok _    => return changed
    | .error _ => return done
  | starting => do
    match ← outcome loadSchema with
    | .ok _    => return changed
    | .error _ => return done
  | changed => return holding (← get).schema.version
  | holding version => do
    advertise version
    return done
  | done => return done

-- The thread takes a step.
def Goes (a b : Node × Publisher) : Prop := a.1.run a.2.next = (.ok b.2, b.1)

-- What the node and the thread are after a step of the thread.
inductive Does (n : Node) : Publisher → Node → Publisher → Prop
  | writes {batch : List Mutation} {r : Replica} {report : MergeReport}
      (h : n.replica.attempt batch = (r, .ok report)) :
      Does n (merging batch) (n.withReplica r) (written report)
  | stops {batch : List Mutation} {r : Replica} {e : StorageError}
      (h : n.replica.attempt batch = (r, .error e)) :
      Does n (merging batch) (n.withReplica r) done
  | notifies {report : MergeReport} {clock : Clock} {notes : List Note}
      (h : n.run (notify report.events) = (.ok (), { n with clock, notes })) :
      Does n (written report) { n with clock, notes } (told report)
  | forgets (report : MergeReport) : Does n (told report)
      { n with registry := report.registryTargets.foldl (·.invalidate) n.registry } (forgot report)
  | publishes (report : MergeReport) : Does n (forgot report)
      { n with outbox := n.outbox ++ [.advertise report.version] } done
  | clears {r : Replica} (h : n.replica.clear = .ok r) :
      Does n resetting (n.withReplica r) changed
  | remains {e : StorageError} (h : n.replica.clear = .error e) : Does n resetting n done
  | loads {schema : Schema} (h : Schema.load n.storage = .ok schema) :
      Does n starting { n with schema } changed
  | fails {e : StorageError} (h : Schema.load n.storage = .error e) : Does n starting n done
  | looks : Does n changed n (holding n.schema.version)
  | announces (version : Uuid) : Does n (holding version)
      { n with outbox := n.outbox ++ [.advertise version] } done
  | rests : Does n done n done

variable {n n' : Node} {w w' : Publisher} {batch : List Mutation} {report : MergeReport}
  {r : Replica} {version version' : Uuid} {os : List Outgoing}

theorem run_write (n : Node) (batch : List Mutation) : n.run (write batch) =
    ((n.replica.attempt batch).2.mapError .storage,
      n.withReplica (n.replica.attempt batch).1) := by
  have he : n.schema.merge n.storage batch = ((n.replica.attempt batch).1.storage,
      (n.replica.attempt batch).1.schema, (n.replica.attempt batch).2) := rfl
  simp only [write, run_bind, run_get, run_set, he, withReplica]
  cases (n.replica.attempt batch).2 <;> rfl

theorem run_loadSchema (n : Node) : n.run loadSchema = match Schema.load n.storage with
    | .ok schema => (.ok (), { n with schema })
    | .error e   => (.error (.storage e), n) := by
  rw [loadSchema, run_bind, run_get]
  dsimp only
  cases Schema.load n.storage <;> rfl

theorem goes_of_does (h : Does n w n' w') : Goes (n, w) (n', w') := by
  cases h
  case writes h   => simp only [Goes, next, run_bind, run_outcome, run_write, h]; rfl
  case stops h    => simp only [Goes, next, run_bind, run_outcome, run_write, h]; rfl
  case clears h   => simp only [Goes, next, run_bind, run_outcome, run_clearSchema, h]; rfl
  case remains h  => simp only [Goes, next, run_bind, run_outcome, run_clearSchema, h]; rfl
  case loads h    => simp only [Goes, next, run_bind, run_outcome, run_loadSchema, h]; rfl
  case fails h    => simp only [Goes, next, run_bind, run_outcome, run_loadSchema, h]; rfl
  case notifies h => exact run_bind_eq_ok_iff.mpr ⟨(), _, h, rfl⟩
  all_goals rfl

theorem exists_does (n : Node) (w : Publisher) : ∃ n' w', Does n w n' w' := by
  cases w
  case merging batch =>
    cases h : n.replica.attempt batch
    case mk r result =>
      cases result
      case ok report => exact ⟨_, _, .writes h⟩
      case error e   => exact ⟨_, _, .stops h⟩
  case written report =>
    have ⟨_, _, h⟩ := exists_run_notify n report.events
    exact ⟨_, _, .notifies h⟩
  case told report   => exact ⟨_, _, .forgets report⟩
  case forgot report => exact ⟨_, _, .publishes report⟩
  case resetting =>
    cases h : n.replica.clear
    case ok r    => exact ⟨_, _, .clears h⟩
    case error e => exact ⟨_, _, .remains h⟩
  case starting =>
    cases h : Schema.load n.storage
    case ok schema => exact ⟨_, _, .loads h⟩
    case error e   => exact ⟨_, _, .fails h⟩
  case changed         => exact ⟨_, _, .looks⟩
  case holding version => exact ⟨_, _, .announces version⟩
  case done            => exact ⟨_, _, .rests⟩

-- A step comes out in one way.
theorem does_of_goes (h : Goes (n, w) (n', w')) : Does n w n' w' := by
  obtain ⟨n₁, w₁, hd⟩ := exists_does n w
  cases (goes_of_does hd).symm.trans h
  exact hd

-- Without other threads in between, a thread does its operation as a whole.

theorem goes_merge (n : Node) (batch : List Mutation) :
    Relation.ReflTransGen Goes (n, merging batch) ((n.run (merge batch)).2, done) := by
  rw [run_merge]
  cases ha : n.replica.attempt batch
  case mk r result =>
    cases result
    case error e => exact .single (goes_of_does (.stops ha))
    case ok report =>
      have ⟨clock, notes, hn⟩ := exists_run_notify (n.withReplica r) report.events
      dsimp only
      rw [run_tell hn]
      exact .head (goes_of_does (.writes ha)) <| .head (goes_of_does (.notifies hn)) <|
        .head (goes_of_does (.forgets report)) <| .single (goes_of_does (.publishes report))

theorem goes_tell (n : Node) : Relation.ReflTransGen Goes (n, changed)
    ((n.run (advertise n.schema.version)).2, done) :=
  .head (goes_of_does .looks) <| .single (goes_of_does (.announces _))

theorem goes_reset (h : n.replica.clear = .ok r) : Relation.ReflTransGen Goes (n, resetting)
    (((n.withReplica r).run (advertise r.schema.version)).2, done) :=
  .head (goes_of_does (.clears h)) (goes_tell _)

-- What a step of a thread does to the version of the schema, and what it says.
inductive Effect (version : Uuid) : Publisher → Publisher → Uuid → List Outgoing → Prop
  | writes {batch : List Mutation} {report : MergeReport} :
      Effect version (merging batch) (written report) report.version []
  | fails {w : Publisher} (begun : w.isNew) (blank : w.version? = none) :
      Effect version w done version []
  | notifies {report : MergeReport} : Effect version (written report) (told report) version []
  | forgets {report : MergeReport} : Effect version (told report) (forgot report) version []
  | changes {w : Publisher} {version' : Uuid} (begun : w.isNew) (blank : w.version? = none) :
      Effect version w changed version' []
  | reads : Effect version changed (holding version) version []
  | tells {w : Publisher} {taken : Uuid} (last : w.tells) (took : w.version? = some taken) :
      Effect version w done version [.advertise taken]
  | rests : Effect version done done version []

theorem Does.effect (h : Does n w n' w') : n'.address = n.address ∧
    ∃ os, n'.outbox = n.outbox ++ os ∧ Effect n.schema.version w w' n'.schema.version os := by
  have nothing : n.outbox = n.outbox ++ [] := (List.append_nil _).symm
  cases h
  case writes batch r report h =>
    have left : report.version = r.schema.version := Replica.version_of_attempt_ok h
    have effect : Effect n.schema.version (merging batch) (written report) report.version [] :=
      .writes
    exact ⟨rfl, [], nothing, left ▸ effect⟩
  case stops batch r e h =>
    have same : r.schema.version = n.schema.version := Replica.version_of_attempt_error h
    have effect : Effect n.schema.version (merging batch) done n.schema.version [] :=
      .fails rfl rfl
    exact ⟨rfl, [], nothing, same ▸ effect⟩
  case notifies  => exact ⟨rfl, [], nothing, .notifies⟩
  case forgets   => exact ⟨rfl, [], nothing, .forgets⟩
  case publishes => exact ⟨rfl, _, rfl, .tells rfl rfl⟩
  case clears    => exact ⟨rfl, [], nothing, .changes rfl rfl⟩
  case remains   => exact ⟨rfl, [], nothing, .fails rfl rfl⟩
  case loads     => exact ⟨rfl, [], nothing, .changes rfl rfl⟩
  case fails     => exact ⟨rfl, [], nothing, .fails rfl rfl⟩
  case looks     => exact ⟨rfl, [], nothing, .reads⟩
  case announces => exact ⟨rfl, _, rfl, .tells rfl rfl⟩
  case rests     => exact ⟨rfl, [], nothing, .rests⟩

-- What the node has said before is nothing to its threads.
theorem Does.unsaid (h : Does n w n' w') :
    ∃ n₁, Does { n with outbox := [] } w n₁ w' ∧ n₁.address = n'.address ∧
      n₁.schema.version = n'.schema.version ∧ n'.outbox = n.outbox ++ n₁.outbox := by
  have nothing : n.outbox = n.outbox ++ [] := (List.append_nil _).symm
  cases h
  case writes h          => exact ⟨_, .writes h, rfl, rfl, nothing⟩
  case stops h           => exact ⟨_, .stops h, rfl, rfl, nothing⟩
  case forgets report    => exact ⟨_, .forgets report, rfl, rfl, nothing⟩
  case publishes report  => exact ⟨_, .publishes report, rfl, rfl, rfl⟩
  case clears h          => exact ⟨_, .clears h, rfl, rfl, nothing⟩
  case remains h         => exact ⟨_, .remains h, rfl, rfl, nothing⟩
  case loads h           => exact ⟨_, .loads h, rfl, rfl, nothing⟩
  case fails h           => exact ⟨_, .fails h, rfl, rfl, nothing⟩
  case looks             => exact ⟨_, .looks, rfl, rfl, nothing⟩
  case announces version => exact ⟨_, .announces version, rfl, rfl, rfl⟩
  case rests             => exact ⟨_, .rests, rfl, rfl, nothing⟩
  case notifies report _ _ _ =>
    have ⟨_, _, hn⟩ := exists_run_notify { n with outbox := [] } report.events
    exact ⟨_, .notifies hn, rfl, rfl, nothing⟩

end Publisher
end ClusterMetadata
