import ClusterMetadata.Proofs.Node.Conduct

/-!
Where writes wait. A message is put on the stage of its verb, and nothing takes a job from one stage
to another. So whatever becomes of a node after its start, a write waits on no stage but its own
(`sorted_of_evolves`).
-/

namespace ClusterMetadata.Node

variable {n n' : Node} {net : Network} {name : StageName} {batch : List Mutation}

namespace Upkeep

variable {permitted : Outgoing → Prop} {I : Node → Prop} (hI : Upkeep permitted I)

include hI

theorem sorted : Upkeep permitted fun n => I n ∧ n.Sorted where
  talks := {
    watches := fun n _ _ h => ⟨hI.talks.watches n _ _ h.left, h.right.congr rfl⟩
    draws   := fun n h => ⟨hI.talks.draws n h.left, h.right.congr rfl⟩
    emits   := fun n o ho h => ⟨hI.talks.emits n o ho h.left, h.right.congr rfl⟩ }
  permits               := hI.permits
  merges n batch h      := ⟨hI.merges n batch h.left, h.right.congr rfl⟩
  stages n _ _ hn hq h  := ⟨hI.stages n hn hq h.left, h.right.setStage fun _ => hq⟩
  books n _ _ _ _ _ _ h := ⟨hI.books n _ _ _ _ _ _ h.left, h.right.congr rfl⟩

-- On the migration stage waits no write.
theorem keeps_announce (ht : Tells permitted batch) (net : Network) :
    Keeps (fun n => I n ∧ n.Sorted) (announce net batch) :=
  hI.sorted.routine.keeps_announce ht fun _ h =>
    hI.sorted.routine.holds_runNext (fun _ _ _ => hI.sorted.keeps_merge) (by decide) h.right h

end Upkeep

namespace Sorted

theorem upkeep : Upkeep (fun _ => True) Sorted where
  talks                 := ⟨fun _ _ _ h => h.congr rfl, fun _ h => h.congr rfl,
    fun _ _ _ h => h.congr rfl⟩
  permits _ _           := trivial
  merges _ _ h          := h.congr rfl
  stages _ _ _ _ hq h   := h.setStage fun _ => hq
  books _ _ _ _ _ _ _ h := h.congr rfl

theorem keeps_start (parts : List NodePart) : Keeps Sorted (start parts) := by
  have loads : Keeps Sorted loadSchema :=
    keeps_replace (fun _ _ _ h => h.congr rfl) fun _ _ => keeps_pure _
  exact Node.keeps_start upkeep.talks loads (fun _ _ h => h.congr rfl) parts

theorem conduct : Conduct (fun _ => True) Sorted where
  routine            := upkeep.routine
  sends              := sendsAll_true
  starts             := keeps_start
  resets             := upkeep.routine.keeps_startReset fun _ _ _ h => h.congr rfl
  queues _ _ _ hq h := h.setStage hq
  stores _ _ _ h     := h.congr rfl
  writes _ _ h       := h.congr rfl

theorem evolves (hn : n.Sorted) (h : n.Evolves n') : n'.Sorted := by
  cases h
  case adjusted => exact hn.congr rfl
  case acts h   =>
    cases h
    case does net activity _ => exact conduct.holds_run hn (fun _ => hn.congr rfl) net activity

end Sorted

theorem sorted_idle (address : Address) (config : Config) (storage : Storage) (metrics : String)
    (clock : Clock) (startedAt : Int) :
    (idle address config storage metrics clock startedAt).Sorted := by
  intro name _ job hm
  cases name <;> cases hm

section

variable {address : Address} {config : Config} {storage : Storage} {metrics : String}
  {clock : Clock} {startedAt : Int}
  (h : Relation.ReflTransGen Evolves (idle address config storage metrics clock startedAt) n)

include h

theorem cautious_of_evolves : n.Cautious := by
  induction h
  case refl        => exact cautious_idle address config storage metrics clock startedAt
  case tail _ h hi => exact hi.evolves h

theorem sorted_of_evolves : n.Sorted := by
  induction h
  case refl        => exact sorted_idle address config storage metrics clock startedAt
  case tail _ h hi => exact hi.evolves h

end

end ClusterMetadata.Node
