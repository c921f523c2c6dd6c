/-!
A stage: a queue of jobs and the workers that take them, first come first served. A job is in flight
from its acceptance until its worker has accounted for it. A closed stage accepts nothing, and its
workers leave when the queue is empty.
-/

namespace ClusterMetadata

inductive StageError where
  | shutDown (stage : String)
  | wouldDeadlock (stage : String)
  | abandoned (stage : String)
  | timeout (stage : String) (milliseconds : Nat)
  deriving DecidableEq, Repr

def StageError.message : StageError → String
  | shutDown stage => s!"stage {stage} is shut down"
  | wouldDeadlock stage => s!"waiting on stage {stage} from its own worker would deadlock"
  | abandoned stage => s!"task on stage {stage} ended without a result"
  | timeout stage milliseconds =>
    s!"task on stage {stage} did not finish within {milliseconds}ms"

@[ext]
structure Stage (Job : Type) where
  name : String
  queue : List Job
  -- Taken and not yet accounted for.
  running : List Job
  inFlight : Nat
  -- Workers that have not left.
  workers : Nat
  closed : Bool

namespace Stage

variable {Job : Type}

-- There is at least one worker.
def new (name : String) (workers : Nat) : Stage Job where
  name := name
  queue := []
  running := []
  inFlight := 0
  workers := max workers 1
  closed := false

def execute (s : Stage Job) (job : Job) : Except StageError (Stage Job) :=
  if s.closed then .error (.shutDown s.name)
  else .ok { s with queue := s.queue ++ [job], inFlight := s.inFlight + 1 }

-- A worker that is free takes the first job.
def take (s : Stage Job) : Option (Job × Stage Job) :=
  match s.queue with
  | []         => none
  | job :: jobs =>
    if s.running.length < s.workers then
      some (job, { s with queue := jobs, running := s.running ++ [job] })
    else none

-- The worker of the `i`th running job is done with it, whether the job succeeded or not.
def finish (s : Stage Job) (i : Nat) : Stage Job :=
  if i < s.running.length then
    { s with running := s.running.eraseIdx i, inFlight := s.inFlight - 1 }
  else s

def shutdown (s : Stage Job) : Stage Job :=
  { s with closed := true }

-- Lets the free workers work. A worker that takes a job that does not end is busy from then on.
-- Gives the jobs that ended, in the order in which they were taken.
def work (s : Stage Job) (ends : Job → Bool) : List Job × Stage Job :=
  go s.queue.length s
where
  go : Nat → Stage Job → List Job × Stage Job
    | 0,     s => ([], s)
    | k + 1, s =>
      match s.take with
      | none          => ([], s)
      | some (job, t) =>
        if ends job then
          let (done, t) := go k (t.finish s.running.length)
          (job :: done, t)
        else go k t

-- A worker without a job leaves a closed stage once the queue is empty.
def leave (s : Stage Job) : Stage Job :=
  if s.closed ∧ s.queue.isEmpty ∧ s.running.length < s.workers then
    { s with workers := s.workers - 1 }
  else s

end Stage
end ClusterMetadata
