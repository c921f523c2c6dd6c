import ClusterMetadata.Proofs.Storage.Writes
import Mathlib.Data.List.DropRight

/-!
Runs of calls on an empty storage, among them truncations and injected failures. What can be read
after a run is what is live in the effective modifications: those of the calls that succeeded after
the last truncation of their table (`observes_live`).
-/

namespace ClusterMetadata.Storage

inductive Call where
  | write (id : PartitionId) (name : CellName) (cell : Stamped)
  | delete (id : PartitionId) (path : CellName) (d : DeletionTime)
  | apply (m : Mutation)
  | truncate (keyspace table : String)
  | failWrites (on : Bool)

namespace Call

def run (s : Storage) : Call → Except StorageError Storage
  | write id name cell      => s.write id name cell
  | delete id path d        => s.delete id path d
  | apply m                 => s.apply m
  | truncate keyspace table => s.truncate keyspace table
  | failWrites on           => .ok { s with failing := on }

-- The modifications meant for a partition.
def on (id : PartitionId) : Call → List Modification
  | write id' name cell => if id' = id then [.write name cell] else []
  | delete id' path d   => if id' = id then [.rangeTombstone path d] else []
  | apply m             => m.on id
  | _                   => []

def clears (id : PartitionId) : Call → Bool
  | truncate keyspace table => id.keyspace = keyspace ∧ id.table = table
  | _                       => false

def isTruncation : Call → Bool
  | truncate .. => true
  | _           => false

theorem not_clears_of_not_isTruncation {c : Call} (h : c.isTruncation = false) (id : PartitionId) :
    c.clears id = false := by
  cases c <;> first | rfl | cases h

end Call

-- The storage after the calls. One that fails leaves no trace.
def after (s : Storage) : List Call → Storage
  | []      => s
  | c :: cs =>
    match c.run s with
    | .ok s'   => s'.after cs
    | .error _ => s.after cs

-- The calls that do not fail.
def succeeding (s : Storage) : List Call → List Call
  | []      => []
  | c :: cs =>
    match c.run s with
    | .ok s'   => c :: s'.succeeding cs
    | .error _ => s.succeeding cs

-- What calls that all succeed leave in a partition's history.
def standing (calls : List Call) (id : PartitionId) : List Modification :=
  (calls.rtakeWhile (!·.clears id)).flatMap (·.on id)

def effective (calls : List Call) (id : PartitionId) : List Modification :=
  standing (succeeding ∅ calls) id

variable {s s' : Storage} {c : Call} {done calls calls' : List Call} {id : PartitionId}

theorem standing_append_singleton :
    standing (done ++ [c]) id = if c.clears id then [] else standing done id ++ c.on id := by
  rw [standing, List.rtakeWhile_concat]
  cases c.clears id <;> simp [standing]

theorem standing_eq_flatMap (h : ∀ c ∈ calls, c.isTruncation = false) :
    standing calls id = calls.flatMap (·.on id) := by
  have hs : calls.rtakeWhile (!·.clears id) = calls := by
    rw [List.rtakeWhile_eq_self_iff]
    intro c hc
    simp [c.not_clears_of_not_isTruncation (h c hc)]
  rw [standing, hs]

-- One call that succeeds.
theorem Reflects.run (hr : s.Reflects (standing done)) (h : c.run s = .ok s') :
    s'.Reflects (standing (done ++ [c])) := by
  have extends_of {w} (hw : Writes s w s') (hc : ∀ id, c.clears id = false)
      (ho : ∀ id, c.on id = w id) : s'.Reflects (standing (done ++ [c])) := fun id => by
    simpa [standing_append_singleton, hc, ho] using hr.writes hw id
  cases c
  case write       => exact extends_of (writes_write h) (fun _ => rfl) (fun _ => rfl)
  case delete      => exact extends_of (writes_delete h) (fun _ => rfl) (fun _ => rfl)
  case apply       => exact extends_of (writes_apply h) (fun _ => rfl) (fun _ => rfl)
  case failWrites on =>
    cases h
    have hs : standing (done ++ [.failWrites on]) = standing done := by
      funext id
      simp [standing_append_singleton, Call.clears, Call.on]
    exact hs ▸ hr
  case truncate ks t =>
    intro id
    rw [partition_truncate h, standing_append_singleton]
    by_cases hc : id.keyspace = ks ∧ id.table = t
    case pos => simpa [Call.clears, hc] using Partition.reflects_empty
    case neg => simpa [Call.clears, Call.on, hc] using hr id

theorem Reflects.after (hr : s.Reflects (standing done)) :
    (s.after calls).Reflects (standing (done ++ s.succeeding calls)) := by
  induction calls generalizing s done
  case nil => simpa [Storage.after, succeeding] using hr
  case cons c calls hi =>
    cases h : c.run s
    case error => simpa [Storage.after, succeeding, h] using hi hr
    case ok s' => simpa [Storage.after, succeeding, h] using hi (hr.run h)

theorem reflects_after (calls : List Call) : (after ∅ calls).Reflects (effective calls) :=
  have h : (∅ : Storage).Reflects (standing []) := reflects_empty
  h.after

theorem succeeding_sublist : (s.succeeding calls).Sublist calls := by
  induction calls generalizing s
  case nil => exact List.Sublist.slnil
  case cons c calls hi =>
    simp only [succeeding]
    split
    case h_1 => exact hi.cons_cons c
    case h_2 => exact hi.cons c

-- While writes do not fail, no call does.
theorem exists_run_eq_ok (hf : s.failing = false) (hc : c ≠ .failWrites true) :
    ∃ s', c.run s = .ok s' ∧ s'.failing = false := by
  cases c
  case write id n c =>
    have ⟨s', hs⟩ := exists_modify_eq_ok hf id [.write n c]
    exact ⟨s', hs, (writes_modify hs).failing.trans hf⟩
  case delete id path d =>
    have ⟨s', hs⟩ := exists_modify_eq_ok hf id [.rangeTombstone path d]
    exact ⟨s', hs, (writes_modify hs).failing.trans hf⟩
  case apply m =>
    have ⟨s', hs⟩ := exists_apply_eq_ok hf m
    exact ⟨s', hs, (writes_apply hs).failing.trans hf⟩
  case truncate ks t =>
    refine ⟨_, if_neg ?_, hf⟩
    simp [hf]
  case failWrites on =>
    cases on
    case false => exact ⟨_, rfl, rfl⟩
    case true  => exact absurd rfl hc

theorem succeeding_eq_self (hf : s.failing = false) (hc : ∀ c ∈ calls, c ≠ .failWrites true) :
    s.succeeding calls = calls := by
  induction calls generalizing s
  case nil => rfl
  case cons c calls hi =>
    have ⟨s', hs, hf'⟩ := exists_run_eq_ok hf (hc c List.mem_cons_self)
    simp only [succeeding, hs]
    rw [hi hf' fun c hm => hc c (List.mem_cons_of_mem _ hm)]

-- Without truncation only the modifications that were made count, not their order and repetition.
theorem agree_of_mem_iff (ht : ∀ c ∈ calls ++ calls', c.isTruncation = false)
    (hm : ∀ m, m ∈ (succeeding ∅ calls).flatMap (·.on id) ↔
      m ∈ (succeeding ∅ calls').flatMap (·.on id)) : Agree (after ∅ calls) (after ∅ calls') id := by
  have he : effective calls id = (succeeding ∅ calls).flatMap (·.on id) :=
    standing_eq_flatMap fun c hc => ht c (List.mem_append_left _ (succeeding_sublist.subset hc))
  have he' : effective calls' id = (succeeding ∅ calls').flatMap (·.on id) :=
    standing_eq_flatMap fun c hc => ht c (List.mem_append_right _ (succeeding_sublist.subset hc))
  exact (reflects_after calls).agree (reflects_after calls') fun m => by rw [he, he', hm]

theorem observes_live (calls : List Call) :
    (∀ id range, Ascending (((after ∅ calls).read id range).map (·.name)) ∧
      ∀ cell, cell ∈ (after ∅ calls).read id range ↔
        range.contains cell.name ∧ IsLive (effective calls id) cell.name cell.toStamped) ∧
    (∀ keyspace table, Ascending ((after ∅ calls).keys keyspace table) ∧
      ∀ key, key ∈ (after ∅ calls).keys keyspace table ↔
        ∃ n c, IsLive (effective calls ⟨keyspace, table, key⟩) n c) ∧
    ∀ calls', (∀ c ∈ calls ++ calls', c.isTruncation = false) →
      (∀ id m, m ∈ (succeeding ∅ calls).flatMap (·.on id) ↔
        m ∈ (succeeding ∅ calls').flatMap (·.on id)) →
      (∀ id range, (after ∅ calls).read id range = (after ∅ calls').read id range) ∧
      ∀ keyspace table, (after ∅ calls).keys keyspace table = (after ∅ calls').keys keyspace table := by
  have hr := reflects_after calls
  refine ⟨fun id range => ⟨Partition.ascending_read, fun cell => ?_⟩,
    fun keyspace table => ⟨ascending_keys .., fun key => ?_⟩, fun calls' ht hm => ?_⟩
  · rw [read, Partition.mem_read, (hr id).getElem?_eq_some_iff]
  · simp only [mem_keys, (hr _).getElem?_eq_some_iff]
  · have ha id := agree_of_mem_iff ht (hm id)
    exact ⟨fun id range => (ha id).read_eq range,
      fun keyspace table => keys_eq_of_agree fun key => ha _⟩

-- A write that comes after the deletion that hides it, and the deletion once more.
theorem read_eq_of_late_write :
    let id : PartitionId := ⟨"ks", "t", [107]⟩
    let old := Call.write id ["a", "x"] ⟨[1], 4⟩
    let gone := Call.delete id ["a"] ⟨5, 0⟩
    let new := Call.write id ["a", "x"] ⟨[2], 6⟩
    (after ∅ [old, gone, new]).read id .all = (after ∅ [new, gone, old, gone]).read id .all := by
  intro id old gone new
  refine ((observes_live [old, gone, new]).right.right [new, gone, old, gone] ?_ ?_).left id .all
  · simp [old, gone, new, Call.isTruncation]
  · intro id' m
    rw [succeeding_eq_self rfl (by simp [old, gone, new]),
      succeeding_eq_self rfl (by simp [old, gone, new])]
    simp only [List.flatMap_cons, List.flatMap_nil, List.mem_append, List.not_mem_nil]
    tauto

end ClusterMetadata.Storage
