import ClusterMetadata.Proofs.Node.Views
import ClusterMetadata.Proofs.Schema.Difference
import ClusterMetadata.Proofs.Schema.Observer
import ClusterMetadata.Proofs.Schema.Rejection

/-!
What a merge reports. The events are the difference of the definitions before and after, and every
registered observer is told of them, one by one and in order, by the callback for what has happened
(`commit_reports_difference`).
-/

namespace ClusterMetadata

namespace Replica

variable {r r' : Replica} {batch : List Mutation} {report : MergeReport}

theorem merge_eq_of_attempt {result : Except StorageError MergeReport}
    (h : r.attempt batch = (r', result)) :
    r.schema.merge r.storage batch = (r'.storage, r'.schema, result) := by
  cases h
  rfl

theorem InSync.isDifference (hs : InSync r) (h : r.attempt batch = (r', .ok report)) :
    SchemaEvent.IsDifference r.schema.keyspaces r'.schema.keyspaces report.events := by
  cases outcome_attempt h
  case accepted ht he =>
    rw [he]
    exact Schema.isDifference_changes hs.consistent (ht.consistent hs.consistent)
      (Schema.nodup_touchedKeyspaces batch) ht.kept

end Replica

namespace Node

variable {n n' : Node} {batch : List Mutation} {report : MergeReport}

-- What an observer leaves behind when it is called.
inductive Noted : Observer → Callback → List Note → Prop
  | recorder (name : String) (callback : Callback) :
      Noted (.recorder name) callback [.call name callback]
  | created (definition k : Keyspace) (result : Except Failure Unit) :
      Noted (.companion definition) (.createKeyspace k) [.companion k.name result]
  | other (definition : Keyspace) (callback : Callback) (h : ∀ k, callback ≠ .createKeyspace k) :
      Noted (.companion definition) callback []

theorem run_react (n : Node) (callback : Callback) (o : Observer) :
    ∃ notes n', n.run (react callback o) = (.ok (), n') ∧ Noted o callback notes ∧
      n'.notes = n.notes ++ notes := by
  cases o
  case recorder name => exact ⟨_, _, rfl, .recorder name callback, rfl⟩
  case companion definition =>
    cases callback
    case createKeyspace k =>
      -- What the companion tries on its own does not show in the notes.
      have hread : Keeps (fun n' => n'.notes = n.notes) readClock := fun _ h => h
      have hkeeps : Keeps (fun n' => n'.notes = n.notes) (announceFromWorker definition) :=
        (hread.map _).bind fun _ => (keeps_checkNewKeyspace _).bind fun _ =>
          keeps_get.bind fun _ => keeps_throw _
      let result := (n.run (announceFromWorker definition)).1
      let n₁ := (n.run (announceFromWorker definition)).2
      have hn : n₁.notes = n.notes := hkeeps n rfl
      refine ⟨_, { n₁ with notes := n₁.notes ++ [.companion k.name result] }, ?_,
        .created definition k result, congrArg (· ++ _) hn⟩
      rw [react, run_bind, run_outcome]
      rfl
    all_goals exact ⟨_, _, rfl, .other _ _ (by simp), (List.append_nil _).symm⟩

-- All calls are made, in their order.
theorem run_notify (n : Node) (calls : List (Observer × Callback)) :
    ∃ notes n', n.run (calls.forM fun (o, callback) => react callback o) = (.ok (), n') ∧
      List.Forall₂ (fun (o, callback) => Noted o callback) calls notes ∧
      n'.notes = n.notes ++ notes.flatten := by
  induction calls generalizing n
  case nil => exact ⟨[], n, rfl, .nil, (List.append_nil _).symm⟩
  case cons call calls hi =>
    have ⟨notes, n₁, hr, hn, he⟩ := run_react n call.2 call.1
    have ⟨rest, n₂, hr', hn', he'⟩ := hi n₁
    refine ⟨notes :: rest, n₂, ?_, .cons hn hn', ?_⟩
    · change n.run (react call.2 call.1 >>= fun _ => calls.forM _) = _
      rw [run_bind, hr]
      exact hr'
    · rw [he', he, List.flatten_cons, List.append_assoc]

-- Telling the observers does not fail.
theorem exists_run_commit {storage : Storage} {schema : Schema}
    (h : n.schema.merge n.storage batch = (storage, schema, .ok report)) :
    ∃ notes n', n.run (commit batch) = (.ok report, n') ∧
      List.Forall₂ (fun (o, callback) => Noted o callback) (n.observers.calls report.events) notes ∧
      n'.notes = n.notes ++ notes.flatten := by
  let n₁ : Node := { n with storage, schema }
  have ⟨notes, n', hr, hn, he⟩ := run_notify n₁ (n.observers.calls report.events)
  refine ⟨notes, n', ?_, hn, he⟩
  have hnotify : n₁.run (notify report.events) = (.ok (), n') := hr
  rw [commit, run_bind, run_get]
  simp only [h]
  change n₁.run (notify report.events >>= fun _ => pure report) = _
  rw [run_bind, hnotify]
  rfl

-- The events of a merge are the difference that it makes, and each registered observer gets one
-- callback for each of them, in their order. What a callback says has happened.
theorem commit_reports_difference {r : Replica} {calls : List Replica.Call}
    (ho : Replica.Opened r) (hr : r.runAll calls = .ok ⟨n.storage, n.schema⟩)
    (hn : n.observers.Reached) (h : n.run (commit batch) = (.ok report, n')) :
    SchemaEvent.IsDifference n.schema.keyspaces n'.schema.keyspaces report.events ∧
      (∀ id o, (id, o) ∈ n.observers.entries →
        n.observers.received report.events id = report.events.map (·.callback)) ∧
      (∀ e ∈ report.events, e.callback.Tells n.schema.keyspaces n'.schema.keyspaces) ∧
      ∃ notes,
        List.Forall₂ (fun (o, callback) => Noted o callback)
          (n.observers.calls report.events) notes ∧
        n'.notes = n.notes ++ notes.flatten := by
  have hs : Replica.InSync ⟨n.storage, n.schema⟩ := ho.inSync.runAll hr
  have ha : Replica.attempt ⟨n.storage, n.schema⟩ batch =
      (⟨n'.storage, n'.schema⟩, .ok report) := by
    simp only [Replica.attempt, (run_commit_eq_ok h).left]
  obtain ⟨notes, n₁, hr, hnoted, he⟩ := exists_run_commit (run_commit_eq_ok h).left
  cases h.symm.trans hr
  have differs := hs.isDifference ha
  exact ⟨differs, fun id o hm => Observers.received_eq hn hm _,
    fun e hm => (differs.tells e hm).callback, notes, hnoted, he⟩

-- One batch that drops a keyspace with its table and creates another one. Two observers watch.
theorem commit_reports_difference_of_drop :
    let users := Table.new "app" "users" ⟨List.replicate 16 0, rfl⟩
    let app := (Keyspace.simple "app" 1).withTable users
    let web := Keyspace.simple "web" 1
    let batch := [app.removal ⟨5, 0⟩, web.creation 6]
    let watch := (Observers.register ∅ (Observer.recorder "watch")).2
    let observers := (watch.register (.companion web)).2
    ∃ r report n', (Replica.empty 0).runAll [.merge [app.creation 1]] = .ok r ∧
      let n : Node := { idle (.v4 10 0 0 1) .standard r.storage "node" ⟨1000, 0, 0⟩ 0 with
        schema := r.schema, observers }
      n.run (commit batch) = (.ok report, n') ∧
        SchemaEvent.IsDifference n.schema.keyspaces n'.schema.keyspaces report.events ∧
        (∀ id o, (id, o) ∈ n.observers.entries →
          n.observers.received report.events id = report.events.map (·.callback)) ∧
        (∀ e ∈ report.events, e.callback.Tells n.schema.keyspaces n'.schema.keyspaces) ∧
        ∃ notes,
          List.Forall₂ (fun (o, callback) => Noted o callback)
            (n.observers.calls report.events) notes ∧
          n'.notes = n.notes ++ notes.flatten := by
  intro users app web batch watch observers
  have hr : ((Replica.empty 0).runAll [.merge [app.creation 1]]).toOption.any
      (fun r => (r.attempt batch).2.isOk) = true := by
    decide +kernel
  have ⟨r, hr, hm⟩ := exists_of_any_toOption hr
  have ⟨report, hm⟩ := isOk_iff.mp hm
  let n : Node := { idle (.v4 10 0 0 1) .standard r.storage "node" ⟨1000, 0, 0⟩ 0 with
    schema := r.schema, observers }
  have hm : r.attempt batch = ((r.attempt batch).1, .ok report) := Prod.ext rfl hm
  have hm : n.schema.merge n.storage batch = _ := Replica.merge_eq_of_attempt hm
  have ⟨_, n', hc, _⟩ := exists_run_commit hm
  have ho : n.observers.Reached := .register (.register .empty _) _
  exact ⟨r, report, n', hr, hc, commit_reports_difference (.new 0) hr ho hc⟩

end Node
end ClusterMetadata
