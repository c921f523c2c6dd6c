import ClusterMetadata.Proofs.Node.Gate
import ClusterMetadata.Proofs.Node.Report
import ClusterMetadata.Proofs.Node.Update

/-!
Merges that fail, and the registry. What such a merge has written stays, but the registry is not
told to forget the targets that it wrote to. So an answer is right afterwards if and only if what
the registry keeps of a touched target is still stored (`failed_merge_answers_iff`).
-/

namespace ClusterMetadata.Node

variable {n n' : Node} {batch : List Mutation} {report : MergeReport} {e : Failure}

-- Observers that are told leave nothing but notes.
theorem exists_run_notify (n : Node) (events : List SchemaEvent) :
    ∃ clock notes, n.run (notify events) = (.ok (), { n with clock, notes }) := by
  have ⟨_, n₁, hr, _⟩ := run_notify n (n.observers.calls events)
  have hr : n.run (notify events) = (.ok (), n₁) := hr
  have keeps : Keeps (fun n₁ => ∃ clock notes, n₁ = { n with clock, notes }) (notify events) := by
    refine keeps_notify ?_ _
    rintro _ clock notes ⟨_, _, rfl⟩
    exact ⟨clock, notes, rfl⟩
  obtain ⟨clock, notes, rfl⟩ := keeps.of_run ⟨n.clock, n.notes, rfl⟩ hr
  exact ⟨clock, notes, hr⟩

-- Once a batch has been written and read, nothing can fail.
theorem run_tell {clock : Clock} {notes : List Note}
    (h : n.run (notify report.events) = (.ok (), { n with clock, notes })) :
    n.run (tell (.ok report)) = (.ok report, { n with
      clock, notes
      registry := report.registryTargets.foldl (·.invalidate) n.registry
      outbox   := n.outbox ++ [.advertise report.version] }) :=
  run_bind_eq_ok_iff.mpr ⟨report, n, rfl, run_bind_eq_ok_iff.mpr ⟨(), _, h, rfl⟩⟩

-- What comes of a merge comes of writing the batch and reading it back.
theorem attempt_of_run_merge {result : Except Failure MergeReport}
    (h : n.run (merge batch) = (result, n')) : n'.replica = (n.replica.attempt batch).1 ∧
      result = (n.replica.attempt batch).2.mapError .storage := by
  have kept : n'.replica = (n.replica.attempt batch).1 := by
    have tells : Keeps (·.replica = (n.replica.attempt batch).1)
        (tell (n.replica.attempt batch).2) :=
      keeps_tell ofReplica_replica.ignoresTalk.watches (fun _ _ h => h)
        (fun _ => keeps_advertise ofReplica_replica.ignoresTalk trivial) _
    exact tells.of_run rfl (run_merge n batch ▸ h)
  refine ⟨kept, ?_⟩
  rw [run_merge] at h
  cases ha : (n.replica.attempt batch).2
  case error e =>
    rw [ha] at h
    cases h
    rfl
  case ok report =>
    have ⟨_, _, hn⟩ := exists_run_notify (n.withReplica (n.replica.attempt batch).1) report.events
    rw [ha, run_tell hn] at h
    cases h
    rfl

-- A merge fails if its batch cannot be written or read back. Then the node has what was written and
-- read until then, and all else is as it was.
theorem run_merge_eq_error_iff : n.run (merge batch) = (.error e, n') ↔
    ∃ r e', n.replica.attempt batch = (r, .error e') ∧ e = .storage e' ∧ n' = n.withReplica r := by
  rw [run_merge]
  cases h : n.replica.attempt batch
  case mk r result =>
    cases result
    case error e' =>
      have ht : (n.withReplica r).run (tell (.error e')) = (.error (.storage e'), n.withReplica r) :=
        rfl
      rw [ht]
      simp only [Prod.mk.injEq, Except.error.injEq]
      grind
    case ok report =>
      have ⟨_, _, hn⟩ := exists_run_notify (n.withReplica r) report.events
      rw [run_tell hn]
      simp

-- Answers for targets that the batch does not touch are right, and all are right when nothing was
-- written. What is missing otherwise is that the registry forgets the targets of the batch.
theorem failed_merge_answers_iff (ha : n.registry.Agrees n.storage)
    (h : n.run (merge batch) = (.error e, n')) :
    (∀ target kind,
      (n'.registry.query n'.storage target kind).1 =
          ((∅ : Registry).query n'.storage target kind).1 ↔
        (target ∈ Schema.touchedTargets batch →
          ∀ tag, n.registry.cached target kind.code = some tag →
            Registry.stored n'.storage target kind = some tag)) ∧
    (e = .storage .writeFailure → n'.registry.Agrees n'.storage) ∧
    ((Schema.touchedTargets batch).foldl (·.invalidate) n'.registry).Agrees n'.storage := by
  obtain ⟨r, e', hr, rfl, rfl⟩ := run_merge_eq_error_iff.mp h
  simp only [withReplica, Registry.query_eq_iff]
  cases Replica.outcome_attempt hr
  case refused =>
    exact ⟨fun target kind => iff_of_true (ha target kind) fun _ => ha target kind, fun _ => ha,
      ha.invalidateAll _⟩
  case rejected _ took _ =>
    refine ⟨fun target kind => ?_, by simp, ha.merge took.writes⟩
    constructor
    case mp  => exact fun h _ => h
    case mpr =>
      intro h tag hc
      by_cases ht : target ∈ Schema.touchedTargets batch
      case pos => exact h ht tag hc
      case neg => exact Registry.stored_eq_of_not_mem_touched took.writes ht ▸ ha target kind tag hc

-- The tag of an entry is replaced by a batch that makes a keyspace unreadable. The old tag stays the
-- answer for its kind.
theorem failed_merge_answers_iff_of_replacement :
    let n := ((idle (.v4 10 0 0 1) .standard ∅ "node" ⟨1000, 0, 0⟩ 0).run
      (addToRegistry "app.users" .tableAltered "on")).2
    let batch := [Registry.addition "app.users" .tableAltered "off" 2000,
      Mutation.ofFamilies Catalog.system (Utf8.encode "app")
        [(Catalog.keyspaces, Row.write [] 1 [(Row.strategyOptions, Utf8.encode "x")])]]
    ∃ e n', n.registry.Agrees n.storage ∧ n.run (merge batch) = (.error e, n') ∧
      (∀ target kind,
        (n'.registry.query n'.storage target kind).1 =
            ((∅ : Registry).query n'.storage target kind).1 ↔
          (target ∈ Schema.touchedTargets batch →
            ∀ tag, n.registry.cached target kind.code = some tag →
              Registry.stored n'.storage target kind = some tag)) ∧
      (e = .storage .writeFailure → n'.registry.Agrees n'.storage) ∧
      ((Schema.touchedTargets batch).foldl (·.invalidate) n'.registry).Agrees n'.storage := by
  intro n batch
  have ha : n.registry.Agrees n.storage :=
    ((audited_of_empty rfl fun _ => congrArg _ (Storage.partition_empty _)).add
      (by decide +kernel)).agrees
  have hm : (n.run (merge batch)).1.isOk = false := by decide +kernel
  have ⟨e, he⟩ := exists_of_isOk_eq_false hm
  have h : n.run (merge batch) = (.error e, (n.run (merge batch)).2) := Prod.ext he rfl
  exact ⟨e, _, ha, h, failed_merge_answers_iff ha h⟩

-- The entry is removed by such a batch, and its kind still passes.
theorem stale_answer_of_removal :
    let n := ((idle (.v4 10 0 0 1) .standard ∅ "node" ⟨1000, 0, 0⟩ 0).run
      (addToRegistry "app.users" .tableAltered "on")).2
    let batch := [Registry.removal "app.users" ⟨2000, 0⟩,
      Mutation.ofFamilies Catalog.system (Utf8.encode "mmm")
        [(Catalog.keyspaces, Row.write [] 1 [(Row.strategyOptions, Utf8.encode "x")])]]
    ∃ e n', n.registry.Agrees n.storage ∧ n.run (merge batch) = (.error e, n') ∧
      (n'.registry.query n'.storage "app.users" .tableAltered).1 = some "on" ∧
      ((∅ : Registry).query n'.storage "app.users" .tableAltered).1 = none := by
  intro n batch
  have ha : n.registry.Agrees n.storage :=
    ((audited_of_empty rfl fun _ => congrArg _ (Storage.partition_empty _)).add
      (by decide +kernel)).agrees
  have hm : (n.run (merge batch)).1.isOk = false := by decide +kernel
  have ⟨e, he⟩ := exists_of_isOk_eq_false hm
  exact ⟨e, _, ha, Prod.ext he rfl, by decide +kernel, by decide +kernel⟩

end ClusterMetadata.Node
