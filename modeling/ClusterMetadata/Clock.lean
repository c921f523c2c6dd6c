/-!
The clock that stamps writes. Readings are microseconds and strictly increase: when the wall clock
stands still or goes back, the next reading is one past the latest.
-/

namespace ClusterMetadata

@[ext]
structure Clock where
  wall : Int64
  latest : Int64
  -- Milliseconds that never go back, for measuring how long something has waited.
  elapsed : Nat

namespace Clock

def next (c : Clock) : Int64 :=
  if c.latest < c.wall then c.wall else c.latest + 1

def read (c : Clock) : Int64 × Clock :=
  (c.next, { c with latest := c.next })

-- The next readings.
def readings (c : Clock) : Nat → List Int64
  | 0     => []
  | n + 1 => c.next :: readings c.read.2 n

-- Whole seconds, as far as they fit.
def seconds (c : Clock) : Int32 :=
  .ofInt (min (max (c.wall.toInt / 1000000) 0) Int32.maxValue.toInt)

def advance (c : Clock) (milliseconds : Nat) : Clock :=
  { c with
    wall := c.wall + .ofInt (milliseconds * 1000)
    elapsed := c.elapsed + milliseconds }

end Clock
end ClusterMetadata
