import Std.Data.ExtTreeMap

/-!
Maps that list their entries in the order of their keys. Two such maps are equal when they hold the
same entries, whatever was done to them before.
-/

namespace ClusterMetadata

abbrev SortedMap (α β : Type) [Ord α] := Std.ExtTreeMap α β compare

-- The members of a list in order, each once.
def distinct {α : Type} [Ord α] [Std.TransOrd α] (as : List α) : List α :=
  (Std.ExtTreeMap.ofList (as.map (·, ())) compare).keys

end ClusterMetadata
