import ClusterMetadata.Proofs.Node.Update

/-!
The changes of definitions that a node can be asked for. Whatever the change, it is checked against
what the node shows, the batch that it comes to is announced, and entries accompany it (`run_eq`,
`makes_of_plan`).
-/

namespace ClusterMetadata

inductive Request where
  | createKeyspace (k : Keyspace) (timestamp : Int64)
  | createTable (t : Table)
  | updateKeyspace (k : Keyspace)
  | updateTable (t : Table)
  | dropKeyspace (name : String)
  | dropTable (keyspace name : String)

-- The batch that is announced, and the entries that go out after it.
structure Plan where
  batch   : List Mutation
  entries : List (String × AuditKind × String)

namespace Request

open Node

def run (net : Network) (client : Option String) : Request → NodeM Unit
  | createKeyspace k timestamp => newKeyspaceAt net k timestamp
  | createTable t              => newTable net t
  | updateKeyspace k           => Node.updateKeyspace net k client
  | updateTable t              => Node.updateTable net t client
  | dropKeyspace name          => Node.dropKeyspace net name client
  | dropTable keyspace name    => Node.dropTable net keyspace name client

def plan : Request → NodeM Plan
  | createKeyspace k timestamp => do
    checkNewKeyspace k
    return ⟨[k.creation timestamp], []⟩
  | createTable t => do
    lift (.definition ∘ .invalid) t.validate
    discard (requireKeyspace t.keyspace)
    if ((← get).schema.table t.keyspace t.name).isSome then
      throw (.definition (.tableExists t.keyspace t.name))
    return ⟨[t.creation (← readClock)], []⟩
  | updateKeyspace k => do
    lift (.definition ∘ .invalid) k.validate
    let old ← requireKeyspace k.name
    return ⟨[k.alteration (← readClock)], [(k.name, .keyspaceAltered,
      changeText old.describeReplication k.describeReplication)]⟩
  | updateTable t => do
    let (old, batch) ← planUpdate t
    let target := t.qualifiedName
    return ⟨batch, (target, .tableAltered, changeText old.toText t.toText) ::
      (old.addedColumns t).map (fun column => (joinTarget [target, column], .columnAdded,
        t.columns[column]?.elim "" (·.validator))) ++
      (old.droppedColumns t).map (fun column => (joinTarget [target, column], .columnDropped, ""))⟩
  | dropKeyspace name => do
    let old ← requireKeyspace name
    return ⟨[old.removal (← deletionAt (← readClock))],
      [(name, .keyspaceDropped, old.describeReplication)]⟩
  | dropTable keyspace name => do
    let old ← requireTable keyspace name
    return ⟨[old.removal (← deletionAt (← readClock))], [(old.qualifiedName, .tableDropped, "")]⟩

theorem run_eq (net : Network) (client : Option String) (request : Request) :
    request.run net client = (do
      let p ← request.plan
      announce net p.batch
      p.entries.forM fun (target, kind, value) => audit net target kind client value) := by
  cases request
  case createKeyspace k timestamp => simp [run, plan, newKeyspaceAt]
  case createTable t =>
    simp only [run, plan, newTable, bind_assoc]
    refine bind_congr fun _ => bind_congr fun _ => bind_congr fun _ => ?_
    split <;> simp
  case updateKeyspace k   => simp [run, plan, Node.updateKeyspace]
  case updateTable t      => simp [run, plan, updateTable_eq, auditUpdate]
  case dropKeyspace name  => simp [run, plan, Node.dropKeyspace]
  case dropTable name     => simp [run, plan, Node.dropTable]

section

variable {n n' : Node} {p : Plan} {request : Request} {k : Keyspace}

theorem run_requireKeyspace_eq_ok {name : String}
    (h : n.run (requireKeyspace name) = (.ok k, n')) :
    n.schema.keyspace name = some k ∧ n' = n := by
  have ⟨_, _, hg, h⟩ := run_bind_eq_ok_iff.mp h
  cases hg
  split at h
  case h_1 hk => cases h; exact ⟨hk, rfl⟩
  case h_2    => cases h

theorem run_checkNewKeyspace_eq_ok (h : n.run (checkNewKeyspace k) = (.ok (), n')) :
    k.validate = .ok () ∧ n.schema.keyspace k.name = none := by
  obtain ⟨_, _, hv, hnew⟩ := run_bind_eq_ok_iff.mp h
  obtain ⟨valid, rfl⟩ := run_lift_eq_ok_iff.mp hv
  obtain ⟨_, _, hg, hnew⟩ := run_bind_eq_ok_iff.mp hnew
  cases hg
  split at hnew
  case isTrue         => cases hnew
  case isFalse absent => exact ⟨valid, Option.not_isSome_iff_eq_none.mp absent⟩

-- What is announced for the request, and why it is not refused.
inductive Makes (n : Node) : Request → Plan → Prop
  | createKeyspace {k : Keyspace} {timestamp : Int64} (valid : k.validate = .ok ())
      (absent : n.schema.keyspace k.name = none) :
      Makes n (createKeyspace k timestamp) ⟨[k.creation timestamp], []⟩
  | createTable {t : Table} {k : Keyspace} (valid : t.validate = .ok ())
      (within : n.schema.keyspace t.keyspace = some k)
      (absent : n.schema.table t.keyspace t.name = none) :
      Makes n (createTable t) ⟨[t.creation n.clock.next], []⟩
  | updateKeyspace {k old : Keyspace} (valid : k.validate = .ok ())
      (shown : n.schema.keyspace k.name = some old) :
      Makes n (updateKeyspace k) ⟨[k.alteration n.clock.next],
        [(k.name, .keyspaceAltered,
          changeText old.describeReplication k.describeReplication)]⟩
  | updateTable {t old : Table} {d : DeletionTime} {drops : List Mutation}
      (plans : n.Plans t old d drops) :
      Makes n (updateTable t) ⟨old.alteration t d :: drops,
        (t.qualifiedName, .tableAltered, changeText old.toText t.toText) ::
        (old.addedColumns t).map (fun column => (joinTarget [t.qualifiedName, column],
          .columnAdded, t.columns[column]?.elim "" (·.validator))) ++
        (old.droppedColumns t).map fun column =>
          (joinTarget [t.qualifiedName, column], .columnDropped, "")⟩
  | dropKeyspace {name : String} {old : Keyspace} {d : DeletionTime}
      (markedAt : d.markedAt = n.clock.next) (shown : n.schema.keyspace name = some old) :
      Makes n (dropKeyspace name) ⟨[old.removal d],
        [(name, .keyspaceDropped, old.describeReplication)]⟩
  | dropTable {keyspace name : String} {old : Table} {d : DeletionTime}
      (markedAt : d.markedAt = n.clock.next) (shown : n.schema.table keyspace name = some old) :
      Makes n (dropTable keyspace name) ⟨[old.removal d], [(old.qualifiedName, .tableDropped, "")]⟩

theorem makes_of_plan (h : n.run request.plan = (.ok p, n')) : request.Makes n p := by
  cases request
  case createKeyspace k timestamp =>
    obtain ⟨_, _, checked, h⟩ := run_bind_eq_ok_iff.mp h
    obtain ⟨valid, absent⟩ := run_checkNewKeyspace_eq_ok checked
    cases h
    exact .createKeyspace valid absent
  case createTable t =>
    simp only [plan, run_bind_eq_ok_iff, run_lift_eq_ok_iff, run_get, Prod.mk.injEq,
      Except.ok.injEq] at h
    obtain ⟨_, _, ⟨valid, rfl⟩, _, _, hk, _, _, ⟨rfl, rfl⟩, h⟩ := h
    obtain ⟨k, hk, -⟩ := run_map_eq_ok_iff.mp hk
    obtain ⟨within, rfl⟩ := run_requireKeyspace_eq_ok hk
    split at h
    case isTrue         => cases h
    case isFalse absent =>
      cases h
      exact .createTable valid within (Option.not_isSome_iff_eq_none.mp absent)
  case updateKeyspace k =>
    simp only [plan, run_bind_eq_ok_iff, run_lift_eq_ok_iff] at h
    obtain ⟨_, _, ⟨valid, rfl⟩, _, _, hk, _, _, hr, hp⟩ := h
    obtain ⟨shown, rfl⟩ := run_requireKeyspace_eq_ok hk
    cases hr
    cases hp
    exact .updateKeyspace valid shown
  case updateTable t =>
    obtain ⟨⟨old, batch⟩, _, hp, h⟩ := run_bind_eq_ok_iff.mp h
    cases h
    obtain ⟨d, drops, plans, rfl⟩ := run_planUpdate_eq_ok hp
    exact .updateTable plans
  case dropKeyspace name =>
    simp only [plan, run_bind_eq_ok_iff] at h
    obtain ⟨old, _, hk, _, _, hr, _, _, hd, hp⟩ := h
    obtain ⟨shown, rfl⟩ := run_requireKeyspace_eq_ok hk
    cases hr
    cases hd
    cases hp
    exact .dropKeyspace rfl shown
  case dropTable keyspace name =>
    simp only [plan, run_bind_eq_ok_iff] at h
    obtain ⟨old, _, ht, _, _, hr, _, _, hd, hp⟩ := h
    obtain ⟨shown, rfl⟩ := run_requireTable_eq_ok ht
    cases hr
    cases hd
    cases hp
    exact .dropTable rfl shown

-- An update of a table is refused for nothing else.
theorem exists_run_plan_updateTable {t old : Table} (hv : t.validate = .ok ())
    (shown : n.schema.table t.keyspace t.name = some old) (hc : old.checkReplacement t = .ok ())
    (can : ∀ column ∈ old.droppedColumns t, n.CanDrop t column) :
    ∃ p n', n.run (updateTable t).plan = (.ok p, n') := by
  obtain ⟨batch, hb⟩ := exists_run_planUpdate hv shown hc can
  have planned : n.run (planUpdate t) = (.ok (old, batch), (n.run (planUpdate t)).2) :=
    Prod.ext hb rfl
  exact ⟨_, _, run_bind_eq_ok_iff.mpr ⟨_, _, planned, rfl⟩⟩

end

section

variable {I : Node → Prop} (request : Request)

theorem keeps_plan (clock : Keeps I readClock) : Keeps I request.plan := by
  cases request
  case createKeyspace k timestamp =>
    exact (keeps_checkNewKeyspace k).bind fun _ => keeps_pure _
  case createTable t =>
    refine (keeps_lift _).bind fun _ => ((keeps_requireKeyspace _).map _).bind fun _ =>
      keeps_get.bind fun _ => ?_
    split
    case isTrue  => exact keeps_throw _
    case isFalse => exact clock.bind fun _ => keeps_pure _
  case updateKeyspace k =>
    exact (keeps_lift _).bind fun _ => (keeps_requireKeyspace _).bind fun _ =>
      clock.bind fun _ => keeps_pure _
  case updateTable t => exact (keeps_planUpdate clock t).bind fun _ => keeps_pure _
  case dropKeyspace name =>
    exact (keeps_requireKeyspace _).bind fun _ => clock.bind fun _ =>
      keeps_get.bind fun _ => keeps_pure _
  case dropTable keyspace name =>
    exact (keeps_requireTable _ _).bind fun _ => clock.bind fun _ =>
      keeps_get.bind fun _ => keeps_pure _

theorem keeps_run {net : Network} {client : Option String} (hI : IgnoresNotes I)
    (announces : ∀ batch, Keeps I (announce net batch))
    (audits : ∀ target kind value, Keeps I (audit net target kind client value)) :
    Keeps I (request.run net client) := by
  rw [run_eq]
  exact (keeps_plan request (keeps_readClock hI)).bind fun p => (announces p.batch).bind fun _ =>
    .forM fun _ _ => audits _ _ _

end

end Request
end ClusterMetadata
