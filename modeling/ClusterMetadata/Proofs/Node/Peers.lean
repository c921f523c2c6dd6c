import ClusterMetadata.Proofs.Node.Record
import Mathlib.Logic.Relation

/-!
Several nodes that update tables and hear of each other's updates late, more than once or never.
Whatever a step is, it makes something of one node alone, and what that node announces is what it
has planned (`Step.exists_effect`). Hence no node ever loses a record but for one that supersedes it
(`Effect.exists_le_recordCell`), and what comes to be known of a record is the next step of a node
that may take it (`Effect.next`).
-/

namespace ClusterMetadata

-- Nodes, and the batches that they have announced to each other.
structure Peers (ι : Type) where
  node : ι → Node
  announced : List (List Mutation)

namespace Peers

open Node

variable {ι : Type} {p p' : Peers ι} {i j : ι} {target : String} {parts : List String}
  {c : Stamped} {batch : List Mutation} {batches : List (List Mutation)}
  {P Q : Peers ι → ι → String → Prop}

-- What a node reads of the record of a column.
def Reads (p : Peers ι) (i : ι) (parts : List String) (value : Bytes) : Prop :=
  (Tag.load (p.node i).storage .columnDrop parts).value = some value

-- Nothing but records is where the records of dropped columns are.
structure Orderly (p : Peers ι) : Prop where
  idle    : ∀ i, (p.node i).migration.IsIdle
  tidy    : ∀ i, Tag.IsTidy (p.node i).storage
  records : ∀ batch ∈ p.announced, Tag.IsRecording (batchOn batch (Tag.partition .columnDrop))

theorem Orderly.reads_iff (ho : p.Orderly) {value : Bytes} : p.Reads i parts value ↔
    ∃ c, Tag.recordCell? (p.node i).storage (joinTarget parts) = some c ∧ c.value = value := by
  rw [Reads, Tag.load_value (ho.tidy i), Option.map_eq_some_iff]

theorem Orderly.rests (ho : p.Orderly) (i : ι) : (p.node i).Rests (p.node i).replica [] [] :=
  ⟨ho.idle i, rfl⟩

-- A value of the record that has been announced or that a node holds.
inductive Known (p : Peers ι) (target : String) (c : Stamped) : Prop
  | announced {batch : List Mutation} (mem : batch ∈ p.announced)
    (write : .write [target, Tag.valueLeaf] c ∈ batchOn batch (Tag.partition .columnDrop))
  | stored (i : ι) (cell : Tag.recordCell? (p.node i).storage target = some c)

-- What the node may announce where `P` holds of the records of the columns that it drops.
def Announces (P : Peers ι → ι → String → Prop) (p : Peers ι) (i : ι) (batch : List Mutation) :
    Prop :=
  ∃ t old d drops, (p.node i).Plans t old d drops ∧ batch = old.alteration t d :: drops ∧
    ∀ target, old.Drops t target → P p i target

-- What a step makes of a node, and the batches that the node announces then. The node stores what
-- it stored before, or that and the whole of one batch.
structure Effect (P : Peers ι → ι → String → Prop) (p : Peers ι) (i : ι)
    (batches : List (List Mutation)) (p' : Peers ι) : Prop where
  others    : ∀ j ≠ i, p'.node j = p.node j
  idle      : (p'.node i).migration.IsIdle
  storage   : (p'.node i).storage = (p.node i).storage ∨
    ∃ batch ∈ p'.announced, (p.node i).storage.Writes (batchOn batch) (p'.node i).storage
  announced : p'.announced = batches ++ p.announced
  planned   : ∀ batch ∈ batches, p.Announces P i batch

namespace Effect

variable (h : p.Effect P i batches p')

include h

theorem orderly (ho : p.Orderly) : p'.Orderly := by
  have records : ∀ batch ∈ p'.announced,
      Tag.IsRecording (batchOn batch (Tag.partition .columnDrop)) := by
    rw [h.announced, List.forall_mem_append]
    refine ⟨fun batch hm => ?_, ho.records⟩
    obtain ⟨_, _, _, _, hp, rfl, -⟩ := h.planned batch hm
    exact hp.isRecording
  refine ⟨fun j => ?_, fun j => ?_, records⟩
  all_goals by_cases hj : j = i
  · exact hj ▸ h.idle
  · exact h.others j hj ▸ ho.idle j
  · subst hj
    rcases h.storage with hs | ⟨batch, hm, hw⟩
    · exact hs ▸ ho.tidy j
    · exact (ho.tidy j).writes hw (records batch hm)
  · exact h.others j hj ▸ ho.tidy j

-- No node loses a record but for what supersedes it.
theorem exists_le_recordCell (ho : p.Orderly)
    (hc : Tag.recordCell? (p.node j).storage target = some c) :
    ∃ c', Tag.recordCell? (p'.node j).storage target = some c' ∧ c ≤ c' := by
  by_cases hj : j = i
  case neg => exact ⟨c, by rwa [h.others j hj], le_rfl⟩
  case pos =>
    subst hj
    rcases h.storage with hs | ⟨batch, hm, hw⟩
    · exact ⟨c, by rwa [hs], le_rfl⟩
    · exact Tag.exists_le_recordCell hw ((h.orderly ho).records batch hm) hc

-- What comes to be known has been announced.
theorem known (hk : p'.Known target c) : p.Known target c ∨ ∃ batch ∈ batches,
    .write [target, Tag.valueLeaf] c ∈ batchOn batch (Tag.partition .columnDrop) := by
  have of_announced {batch : List Mutation} (hm : batch ∈ p'.announced)
      (hw : .write [target, Tag.valueLeaf] c ∈ batchOn batch (Tag.partition .columnDrop)) :
      p.Known target c ∨ ∃ batch ∈ batches,
        .write [target, Tag.valueLeaf] c ∈ batchOn batch (Tag.partition .columnDrop) := by
    rcases List.mem_append.mp (h.announced ▸ hm) with hm | hm
    · exact .inr ⟨batch, hm, hw⟩
    · exact .inl (.announced hm hw)
  cases hk
  case announced hm hw => exact of_announced hm hw
  case stored j hc =>
    by_cases hj : j = i
    case neg => exact .inl (.stored j (h.others j hj ▸ hc))
    case pos =>
      subst hj
      rcases h.storage with hs | ⟨batch, hm, hw⟩
      · exact .inl (.stored j (hs ▸ hc))
      · rw [Tag.recordCell?, hw.partition] at hc
        rcases Partition.live_or_write_of_foldl hc with hc | hc
        · exact .inl (.stored j hc)
        · exact of_announced hm hc

-- It is the next step of the node, which may take it.
theorem next (ho : p.Orderly) (hk : p'.Known target c) :
    p.Known target c ∨ P p i target ∧ (p.node i).IsNextStep target c := by
  refine (h.known hk).imp_right fun ⟨batch, hm, hw⟩ => ?_
  obtain ⟨t, old, d, drops, hp, rfl, hP⟩ := h.planned batch hm
  have ⟨hc, hs⟩ := (hp.write_mem_iff (ho.tidy i)).mp hw
  exact ⟨hP target hc, hs⟩

end Effect

-- A node that merges a batch stores what it stored before, or the whole batch too.
theorem storage_of_attempt {n n' : Node} (hr : n'.replica = (n.replica.attempt batch).1)
    (hm : batch ∈ batches) : n'.storage = n.storage ∨
      ∃ batch ∈ batches, n.storage.Writes (batchOn batch) n'.storage := by
  rw [← storage_replica n', hr]
  exact (Replica.storage_attempt n.replica batch).imp_right fun hw => ⟨batch, hm, hw⟩

section

variable [DecidableEq ι]

-- The node has become another and has announced the batches.
def after (p : Peers ι) (i : ι) (n : Node) (batches : List (List Mutation)) : Peers ι where
  node      := Function.update p.node i n
  announced := batches ++ p.announced

-- What can happen to a node. It may drop the column of a record where `P` holds. The readings by
-- which it stamps what it announces increase.
inductive Step (P : Peers ι → ι → String → Prop) : Peers ι → Peers ι → Prop
  | waits (p : Peers ι) (i : ι) {clock : Clock} (later : (p.node i).clock.next ≤ clock.next) :
    Step P p (p.after i { p.node i with clock } [])
  | updates (p : Peers ι) (i : ι) {net : Network} {t old : Table} {client : Option String}
      {batch : List Mutation} {n : Node} {clock : Clock}
      (planned : (p.node i).run (planUpdate t) = (.ok (old, batch), n))
      (drops : ∀ target, old.Drops t target → P p i target)
      (later : (p.node i).clock.next < clock.next) :
    Step P p (p.after i { ((p.node i).run (updateTable net t client)).2 with clock } [batch])
  | refuses (p : Peers ι) (i : ι) {net : Network} {t : Table} {client : Option String}
      {e : Failure} {n : Node} (planned : (p.node i).run (planUpdate t) = (.error e, n)) :
    Step P p (p.after i ((p.node i).run (updateTable net t client)).2 [])
  | hears (p : Peers ι) (i : ι) {batch : List Mutation} (announced : batch ∈ p.announced) :
    Step P p (p.after i ((p.node i).run (merge batch)).2 [])

theorem Step.mono (hPQ : ∀ p i target, P p i target → Q p i target) (h : Step P p p') :
    Step Q p p' := by
  cases h
  case waits later     => exact .waits _ _ later
  case refuses planned => exact .refuses _ _ planned
  case hears announced => exact .hears _ _ announced
  case updates planned drops later =>
    exact .updates _ _ planned (fun target hc => hPQ _ _ _ (drops target hc)) later

theorem node_after_self {n : Node} : (p.after i n batches).node i = n :=
  Function.update_self ..

theorem effect_after {n : Node} (hi : n.migration.IsIdle)
    (hs : n.storage = (p.node i).storage ∨
      ∃ batch ∈ batches ++ p.announced, (p.node i).storage.Writes (batchOn batch) n.storage)
    (hp : ∀ batch ∈ batches, p.Announces P i batch) :
    p.Effect P i batches (p.after i n batches) where
  others _ hj := Function.update_of_ne hj _ _
  idle        := (node_after_self (p := p)).symm ▸ hi
  storage     := (node_after_self (p := p)).symm ▸ hs
  announced   := rfl
  planned     := hp

theorem Orderly.effect_of_planned (ho : p.Orderly) {t old : Table} {n : Node}
    (planned : (p.node i).run (planUpdate t) = (.ok (old, batch), n))
    (drops : ∀ target, old.Drops t target → P p i target) (net : Network)
    (client : Option String) (clock : Clock) : p.Effect P i [batch]
      (p.after i { ((p.node i).run (updateTable net t client)).2 with clock } [batch]) := by
  have hr := (ho.rests i).updateTable net client planned
  obtain ⟨d, ds, hp, rfl⟩ := run_planUpdate_eq_ok planned
  refine effect_after hr.stage (storage_of_attempt hr.replica List.mem_cons_self) ?_
  exact List.forall_mem_singleton.mpr ⟨t, old, d, ds, hp, rfl, drops⟩

theorem Step.exists_effect (h : Step P p p') (ho : p.Orderly) :
    ∃ i batches, p.Effect P i batches p' := by
  cases h
  case waits i clock later => exact ⟨i, [], effect_after (ho.idle i) (.inl rfl) (by simp)⟩
  case refuses i net t client e n planned =>
    have hr := (ho.rests i).updateTable_of_refused net client planned
    exact ⟨i, [], effect_after hr.stage (.inl (congrArg Replica.storage hr.replica)) (by simp)⟩
  case hears i batch announced =>
    have hr := (ho.rests i).merge batch
    exact ⟨i, [], effect_after hr.stage (storage_of_attempt hr.replica announced) (by simp)⟩
  case updates i net t old client batch n clock planned drops later =>
    exact ⟨i, [batch], ho.effect_of_planned planned drops net client clock⟩

end
end Peers
end ClusterMetadata
