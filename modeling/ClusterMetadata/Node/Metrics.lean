import ClusterMetadata.Network.Message
import ClusterMetadata.SortedMap

/-!
Counters and gauges under the namespace of a node. A name that already has the namespace is taken as
it is. Counters stop at the greatest value they can hold.
-/

namespace ClusterMetadata

structure Metrics where
  -- Ends with a dot.
  namespacePath : String
  counters : SortedMap String UInt64
  gauges : SortedMap String UInt64

namespace Metrics

def new (name : String) : Metrics where
  namespacePath := if name.endsWith "." then name else name ++ "."
  counters := ∅
  gauges := ∅

def qualify (m : Metrics) (name : String) : String :=
  if m.namespacePath.toList.isPrefixOf name.toList then name else m.namespacePath ++ name

def saturatingAdd (a b : UInt64) : UInt64 :=
  if a ≤ UInt64.ofNat (UInt64.size - 1) - b then a + b else UInt64.ofNat (UInt64.size - 1)

def counter (m : Metrics) (name : String) : UInt64 :=
  m.counters[m.qualify name]?.getD 0

def increment (m : Metrics) (name : String) (delta : UInt64) : Metrics :=
  { m with counters := m.counters.insert (m.qualify name) (saturatingAdd (m.counter name) delta) }

def setGauge (m : Metrics) (name : String) (value : UInt64) : Metrics :=
  { m with gauges := m.gauges.insert (m.qualify name) value }

def droppedName (verb : Verb) : String := "messaging.dropped." ++ verb.toText

def dropped (m : Metrics) (verb : Verb) : UInt64 := m.counter (droppedName verb)

def countDropped (m : Metrics) (verb : Verb) : Metrics := m.increment (droppedName verb) 1

end Metrics
end ClusterMetadata
