/-!
Tasks that wait for their time. Tasks that are due fire by their deadline, and tasks of one deadline
in the order in which they were scheduled. Once shut down, nothing more is scheduled and nothing
fires.
-/

namespace ClusterMetadata

structure Timer (Task : Type) where
  delay : Nat
  due : Nat
  task : Task

structure Timers (Task : Type) where
  -- In the order of scheduling.
  entries : List (Timer Task)
  closed : Bool

namespace Timers

variable {Task : Type}

def empty : Timers Task := ⟨[], false⟩

def schedule (t : Timers Task) (now delay : Nat) (task : Task) : Timers Task :=
  if t.closed then t
  else { t with entries := t.entries ++ [{ delay, due := now + delay, task }] }

def pending (t : Timers Task) : Nat := t.entries.length

def delays (t : Timers Task) : List Nat := t.entries.map (·.delay)

-- Of the tasks with the earliest deadline, the position of the first.
def earliest (entries : List (Timer Task)) : Option Nat := do
  let due ← (entries.map (·.due)).min?
  entries.findIdx? (·.due == due)

def next (t : Timers Task) : Option (Timer Task × Timers Task) := do
  if t.closed then none
  else
    let i ← earliest t.entries
    let timer ← t.entries[i]?
    return (timer, { t with entries := t.entries.eraseIdx i })

-- Fires what is due by now. Then waits for the next tasks until as many as `wanted` of those that
-- count have fired. Gives what fired and the time that it is then.
def run (t : Timers Task) (now wanted : Nat) (counts : Task → Bool) :
    List Task × Nat × Timers Task :=
  go t.entries.length t now wanted
where
  go : Nat → Timers Task → Nat → Nat → List Task × Nat × Timers Task
    | 0,     t, now, _      => ([], now, t)
    | k + 1, t, now, wanted =>
      match t.next with
      | none               => ([], now, t)
      | some (timer, rest) =>
        if 0 < wanted ∨ timer.due ≤ now then
          let left := if counts timer.task then wanted - 1 else wanted
          let (fired, now, t) := go k rest (max now timer.due) left
          (timer.task :: fired, now, t)
        else ([], now, t)

-- Takes out the tasks that were scheduled with the given delay.
def takeDelay (t : Timers Task) (delay : Nat) : List (Timer Task) × Timers Task :=
  (t.entries.filter (·.delay = delay), { t with entries := t.entries.filter (·.delay ≠ delay) })

def shutdown (t : Timers Task) : Timers Task :=
  { t with closed := true }

end Timers
end ClusterMetadata
