import ClusterMetadata.Proofs.Node.Announced
import ClusterMetadata.Proofs.Node.Refusal
import ClusterMetadata.Proofs.Schema.Naming

/-!
A node that is left to itself and has merged nothing but valid definitions. Then no merge fails, and
a change that is planned is made (`Steady.run_of_plan`), so that a request has one of two outcomes
(`Steady.outcome`).
-/

namespace ClusterMetadata

variable {table column : String} {cells : List (String × Bytes)}

theorem Table.HasRow.isPlain {t : Table} (hv : t.validate = .ok ())
    (hr : t.HasRow [table, column] cells) : IsPlain column := by
  cases hr
  case column key c hc =>
    have hc := (Table.validate_eq_ok_iff.mp hv).right.right key c hc
    exact isPlain_of_checkName (seq_eq_ok_iff.mp hc).left

theorem Keyspace.HasRow.isPlain {k : Keyspace} (hv : k.validate = .ok ())
    (hr : k.HasRow [table, column] cells) : IsPlain column := by
  cases hr
  case table key t ht hr =>
    exact hr.isPlain ((Keyspace.validate_eq_ok_iff.mp hv).right.right key t ht).right

namespace Request

open Node

variable {n n' : Node} {p : Plan} {request : Request}

-- The definition that the request brings is accepted.
def IsValid : Request → Prop
  | createKeyspace k _ => k.validate = .ok ()
  | createTable t      => t.validate = .ok ()
  | updateKeyspace k   => k.validate = .ok ()
  | updateTable t      => t.validate = .ok ()
  | dropKeyspace _     => True
  | dropTable _ _      => True

theorem isValid_of_plan (h : n.run request.plan = (.ok p, n')) : request.IsValid := by
  cases makes_of_plan h
  case createKeyspace valid _ => exact valid
  case createTable valid _ _  => exact valid
  case updateKeyspace valid _ => exact valid
  case updateTable plans      => exact plans.valid
  case dropKeyspace           => trivial
  case dropTable              => trivial

theorem isWhole_footprint (n : Node) (request : Request) :
    Rows.IsWhole (request.footprint n).puts := by
  cases request
  case createKeyspace k _ => exact k.isWhole
  case createTable t      => exact t.isWhole
  case updateKeyspace k   => exact k.isWhole_cells
  case updateTable t      => exact t.isWhole
  case dropKeyspace       => exact Rows.isWhole_empty
  case dropTable          => exact Rows.isWhole_empty

theorem isPlain_of_puts (hv : request.IsValid)
    (hr : (request.footprint n).puts [table, column] cells) : IsPlain column := by
  cases request
  case createKeyspace k _ => exact Keyspace.HasRow.isPlain hv hr
  case createTable t      => exact Table.HasRow.isPlain hv hr
  case updateKeyspace k   => cases hr.left
  case updateTable t      => exact Table.HasRow.isPlain hv hr
  case dropKeyspace       => exact hr.elim
  case dropTable          => exact hr.elim

section

variable (hn : Definitions.Consistent n.schema.keyspaces)
  (h : n.run request.plan = (.ok p, n'))

include hn h

theorem regular_of_plan : Regular (batchOn p.batch) := by
  obtain ⟨m, hw, he⟩ := describes_of_plan hn h
  exact (hw.regular (request.isWhole_footprint n)).congr fun family hf key =>
    (he family hf key).symm

theorem isPlain_of_plan {key : Bytes} {leaf : String} {c : Stamped}
    (hm : .write [table, column, leaf] c ∈
      batchOn p.batch ⟨Catalog.system, Catalog.columns, key⟩) : IsPlain column := by
  obtain ⟨m, hw, he⟩ := describes_of_plan hn h
  rw [he _ Catalog.columns_mem_schema] at hm
  obtain rfl := hw.key_eq hm
  obtain ⟨-, path, cells, leaf', hr, -, -, hpath⟩ :=
    (hw.write _ Catalog.columns_mem_schema _ c).mp hm
  obtain ⟨rfl, -⟩ : path = [table, column] ∧ leaf' = leaf := CellName.child_inj.mp hpath.symm
  exact isPlain_of_puts (isValid_of_plan h) hr

end

end Request

theorem Schema.load_empty : load ∅ = .ok empty := by
  have none : (∅ : Storage).keys Catalog.system Catalog.keyspaces = [] := by
    refine List.eq_nil_iff_forall_not_mem.mpr fun key hm => ?_
    simp [Storage.mem_keys] at hm
  simp [load, reload, none, refreshAll, SchemaVersion.ofStorage_empty, empty]

theorem Replica.exists_attempt_of_merge_eq_ok {r r' : Replica} {batch : List Mutation}
    (h : r.merge batch = .ok r') : ∃ report, r.attempt batch = (r', .ok report) := by
  cases ha : r.attempt batch
  case mk r₁ result =>
    rw [merge, merge_eq_of_attempt ha] at h
    cases result
    case error e   => cases h
    case ok report => cases h; exact ⟨report, rfl⟩

namespace Node

variable {n n' n₀ : Node} {r r' : Replica} {net : Network} {client : Option String}
  {batch : List Mutation} {request : Request} {p : Plan}

-- An idle node comes to the batch at once.
theorem Rests.beforeMerge (h : n.Rests r [] []) (net : Network) (batch : List Mutation) :
    (n.beforeMerge net batch).Rests r [.merge batch n.nextTicket] [] := by
  have ⟨stage, hs, holds⟩ := h.stage.execute (.merge batch n.nextTicket)
  let n₁ : Node := { n with nextTicket := n.nextTicket + 1, migration := stage }
  have submits : n.run (submit (.merge batch)) = (.ok n.nextTicket, n₁) := by
    rw [run_submit, hs]
  have h₁ : n₁.Rests r [.merge batch n.nextTicket] [] := ⟨holds, h.replica⟩
  have tells : Keeps (Rests r [.merge batch n.nextTicket] []) (quietly (broadcast net batch)) :=
    (keeps_broadcast ofReplica_rests.ignoresTalk (tellsDefinitions_true batch) net).quietly
  have discards : n.run (discard (submit (.merge batch))) = (.ok ⟨⟩, n₁) :=
    run_map_eq_ok_iff.mpr ⟨_, submits, rfl⟩
  rw [Node.beforeMerge, h.stage.queue, run_bind, discards]
  exact (tells.bind fun _ => keeps_pure _) n₁ h₁

-- What an idle node announces is merged.
theorem Rests.run_announce (h : n.Rests r [] []) (hn : n.Cautious) (hm : r.merge batch = .ok r')
    (net : Network) :
    ∃ n', n.run (Node.announce net batch) = (.ok (), n') ∧ n'.Rests r' [] [] := by
  have ⟨report, ha⟩ := Replica.exists_attempt_of_merge_eq_ok hm
  have before := h.beforeMerge net batch
  have rests := h.announce net batch
  have hears := hears_announce hn.tickets net batch
  rw [ha] at rests
  cases hr : n.run (Node.announce net batch)
  case mk result n' =>
    rw [hr] at rests hears
    suffices result = .ok () by exact ⟨n', by rw [this], rests⟩
    dsimp only at hears
    cases hears
    case closed shut => cases h.stage.opened.symm.trans shut
    case abandoned busy =>
      obtain ⟨_, takes, -⟩ := before.stage.take
      cases busy.symm.trans takes
    case merged =>
      rw [before.replica, ha]
      rfl

-- A request that is planned on an idle node is made, if its batch can be merged.
theorem Rests.run_of_plan (h : n.Rests r [] []) (hn : n.Cautious)
    (planned : n.run request.plan = (.ok p, n₀)) (hm : r.merge p.batch = .ok r') (net : Network)
    (client : Option String) :
    ∃ n', n.run (request.run net client) = (.ok (), n') ∧ n'.Rests r' [] [] := by
  have plans {I : Node → Prop} (hI : IgnoresNotes I) : Keeps I request.plan :=
    request.keeps_plan (keeps_readClock hI)
  have h₀ := (plans ofReplica_rests.ignoresTalk.watches).of_run h planned
  have hn₀ := (plans cautious_ignoresNotes).of_run hn planned
  obtain ⟨n₁, announced, h₁⟩ := h₀.run_announce hn₀ hm net
  obtain ⟨n₂, audited⟩ := exists_run_audits n₁ net client p.entries
  have h₂ : n₂.Rests r' [] [] := by
    refine Keeps.of_run ?_ h₁ audited
    exact .forM fun _ _ => keeps_audit ofReplica_rests.ignoresTalk tellsDefinitions_true
      (fun n => ofReplica_rests n _ rfl rfl) _ _ _
  refine ⟨n₂, ?_, h₂⟩
  rw [Request.run_eq]
  exact run_bind_eq_ok_iff.mpr ⟨p, n₀, planned, run_bind_eq_ok_iff.mpr ⟨(), n₁, announced, audited⟩⟩

-- Nothing is under way, and what is stored can be read.
structure Steady (n : Node) : Prop where
  idle     : n.migration.IsIdle
  cautious : n.Cautious
  sound    : n.replica.Sound
  plain    : n.storage.HasPlainColumns

-- A node that starts with nothing stored.
theorem Steady.of_start {address : Address} {config : Config} {metrics : String} {clock : Clock}
    {startedAt : Int} {parts : List NodePart}
    (h : (Node.idle address config ∅ metrics clock startedAt).run (start parts) = (.ok (), n)) :
    n.Steady ∧ n.replica = Replica.empty 0 := by
  have loads : Keeps (Rests (Replica.empty 0) [] []) loadSchema := by
    refine keeps_replace (fun n schema hl h => ⟨h.stage, ?_⟩) fun _ _ => keeps_pure _
    have stored : n.storage = ∅ := congrArg Replica.storage h.replica
    rw [stored, Schema.load_empty] at hl
    cases hl
    exact Replica.ext stored rfl
  have starts : Keeps (Rests (Replica.empty 0) [] []) (start parts) :=
    keeps_start ofReplica_rests.ignoresTalk loads (fun n _ => ofReplica_rests n _ rfl rfl) parts
  have acts := @Acts.does (Node.idle address config ∅ metrics clock startedAt)
    (Network.new 1 Network.defaultCapacity) (.starts parts) trivial
  rw [Activity.run, h] at acts
  have rests := starts.of_run ⟨Stage.isIdle_new .., rfl⟩ h
  refine ⟨⟨rests.stage, (cautious_idle ..).acts acts, ?_, ?_⟩, rests.replica⟩
  · exact rests.replica ▸ Replica.sound_empty 0
  · rw [← storage_replica, rests.replica]
    exact Storage.hasPlainColumns_empty

namespace Steady

theorem of_eq (h : n.Steady) (hn : n'.Cautious) (hr : n'.replica = n.replica)
    (hm : n'.migration = n.migration) : n'.Steady where
  idle     := hm ▸ h.idle
  cautious := hn
  sound    := hr ▸ h.sound
  plain    := by
    rw [← storage_replica, hr]
    exact h.plain

theorem withClock (h : n.Steady) (clock : Clock) : Steady { n with clock } :=
  h.of_eq (cautious_ignoresNotes n clock n.notes h.cautious) rfl rfl

-- What is planned is made.
theorem run_of_plan (h : n.Steady) (planned : n.run request.plan = (.ok p, n₀)) (net : Network)
    (client : Option String) : ∃ n', n.run (request.run net client) = (.ok (), n') ∧ n'.Steady ∧
      n.replica.merge p.batch = .ok n'.replica := by
  obtain ⟨r, hm, sound⟩ := h.sound.merge (Request.regular_of_plan h.cautious.names planned)
  have rests : n.Rests n.replica [] [] := ⟨h.idle, rfl⟩
  obtain ⟨n', ran, rests⟩ := rests.run_of_plan h.cautious planned hm net client
  obtain rfl := rests.replica
  refine ⟨n', ran, ⟨rests.stage, ?_, sound, ?_⟩, hm⟩
  · have acts := @Acts.does n net (.changes request client) trivial
    rw [Activity.run, ran] at acts
    exact h.cautious.acts acts
  · exact h.plain.writes (Replica.writes_merge hm) fun _ _ _ _ _ =>
      Request.isPlain_of_plan h.cautious.names planned

-- A request is made, or it has not been planned and nothing but the clock has been read.
theorem outcome {result : Except Failure Unit} (h : n.Steady)
    (ran : n.run (request.run net client) = (result, n')) :
    n'.Steady ∧ ((∃ e clock, result = .error e ∧ n' = { n with clock }) ∨
      result = .ok () ∧ ∃ p n₀, n.run request.plan = (.ok p, n₀) ∧
        n.replica.merge p.batch = .ok n'.replica) := by
  cases hp : n.run request.plan
  case mk planned n₀ =>
    cases planned
    case error e =>
      obtain ⟨clock, hclock⟩ := exists_run_plan n request
      rw [Request.run_eq, run_bind, hp] at ran
      rw [hp] at hclock
      cases ran
      obtain rfl : n' = { n with clock } := hclock
      exact ⟨h.withClock clock, .inl ⟨e, clock, rfl, rfl⟩⟩
    case ok p =>
      obtain ⟨n₁, ran', steady, hm⟩ := h.run_of_plan hp net client
      obtain ⟨rfl, rfl⟩ := Prod.mk.inj (ran.symm.trans ran')
      exact ⟨steady, .inr ⟨rfl, p, n₀, rfl, hm⟩⟩

end Steady

end Node
end ClusterMetadata
