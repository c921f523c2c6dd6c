import ClusterMetadata.Proofs.Audit.Log
import ClusterMetadata.Proofs.Node.Delivery
import ClusterMetadata.Proofs.Node.Sorting
import ClusterMetadata.Proofs.Schema.Naming

/-!
The entries of the audit log that accompany a change of definitions. Nothing of the log goes out
before the change is merged, so that a change that fails leaves no entry. After that one entry goes
out for each part of the change that the registry enables, and no other (`companions_match`).
-/

namespace ClusterMetadata

-- A mutation of the keyspace of the log, as a push sends it.
def Outgoing.CarriesLog : Outgoing → Prop
  | .send _ _ m  => ∃ mutation payload, mutation.keyspace = Catalog.metadata ∧
    Wire.writeBatch Protocol.current [mutation] = .ok payload ∧
    m = .plain .definitionsUpdate payload
  | .advertise _ => False

theorem Outgoing.IsExchange.not_carriesLog {o : Outgoing} (h : o.IsExchange) : ¬o.CarriesLog := by
  cases h
  case advertise version => exact id
  case request a id      => rintro ⟨_, _, -, -, he⟩; cases congrArg Message.verb he
  case answer a id _ _   => rintro ⟨_, _, -, -, he⟩; cases congrArg Message.verb he

def AuditEntry.part (e : AuditEntry) : String × AuditKind := (e.target, e.kind)

-- What the entries are about that accompany the change.
def Plan.parts (p : Plan) : List (String × AuditKind) :=
  p.entries.map fun e => (e.1, e.2.1)

namespace Node

variable {n n₁ n' : Node}

-- The registry enables entries of the kind on the target.
def enables (n : Node) (part : String × AuditKind) : Bool :=
  (n.registry.query n.storage part.1 part.2).1.isSome

-- Another registry has been asked, and the clock has been read further.
def withReadings (n : Node) (registry : Registry) (clock : Clock) : Node :=
  { n with registry, clock }

-- What the registry has been asked before makes no difference.
theorem enables_withReadings (hs : n₁.storage = n.storage) (target : String) (kind : AuditKind)
    (clock : Clock) :
    (n₁.withReadings (n.registry.query n.storage target kind).2 clock).enables = n.enables := by
  funext part
  change ((n.registry.query n.storage target kind).2.query n₁.storage _ _).1.isSome = _
  rw [hs, Registry.query_query_fst]
  rfl

section

variable (n : Node) (net : Network)

-- To push asks neither the registry nor the clock.
theorem snd_run_push_withReadings (m : Mutation) (registry : Registry) (clock : Clock) :
    ((n.withReadings registry clock).run (push net m)).2 =
      (n.run (push net m)).2.withReadings registry clock := by
  simp only [push, definitionsMessage, bind_assoc, pure_bind, run_bind, run_get]
  cases Wire.writeBatch Protocol.current [m]
  case error e    => rfl
  case ok payload => simp only [lift, run_pure, run_sendFreshAll]; rfl

theorem storage_run_push (m : Mutation) : (n.run (push net m)).2.storage = n.storage := by
  have hI : OfViews (·.storage = n.storage) := fun _ _ hs _ _ h => hs.trans h
  exact keeps_push hI.ignoresTalk tellsDefinitions_true net m n rfl

def pushAll (entries : List (AuditEntry × Int64)) : NodeM Unit :=
  entries.forM fun (e, timestamp) => quietly (push net (e.addition timestamp))

theorem snd_run_pushAll_cons (e : AuditEntry) (timestamp : Int64)
    (entries : List (AuditEntry × Int64)) :
    (n.run (pushAll net ((e, timestamp) :: entries))).2 =
      ((n.run (push net (e.addition timestamp))).2.run (pushAll net entries)).2 := by
  rw [pushAll, List.forM, run_bind, run_quietly]
  rfl

theorem snd_run_pushAll_withReadings (entries : List (AuditEntry × Int64)) (registry : Registry)
    (clock : Clock) : ((n.withReadings registry clock).run (pushAll net entries)).2 =
      (n.run (pushAll net entries)).2.withReadings registry clock := by
  induction entries generalizing n
  case nil => rfl
  case cons entry entries hi =>
    rw [snd_run_pushAll_cons, snd_run_pushAll_cons, snd_run_push_withReadings, hi]

theorem snd_run_announceEntry_of_enables {target : String} {kind : AuditKind}
    (h : n.enables (target, kind)) (client value : String) :
    let e : AuditEntry := { target, time := n.clock.next, client, kind, value }
    (n.run (announceEntry net target kind client value)).2 =
      (n.run (push net (e.addition n.clock.read.2.next))).2.withReadings
        (n.registry.query n.storage target kind).2 n.clock.read.2.read.2 := by
  intro e
  let asked : Node := { n with registry := (n.registry.query n.storage target kind).2 }
  let n₁ := n.withReadings (n.registry.query n.storage target kind).2 n.clock.read.2.read.2
  obtain ⟨tag, ht⟩ := Option.isSome_iff_exists.mp h
  have asks : n.run (queryRegistry target kind) = (.ok (some tag), asked) :=
    Prod.ext (congrArg Except.ok ht) rfl
  have time : asked.run readClock =
      (.ok n.clock.next, { asked with clock := n.clock.read.2 }) := rfl
  have timestamp : Node.run { asked with clock := n.clock.read.2 } readClock =
      (.ok n.clock.read.2.next, n₁) := rfl
  rw [← snd_run_push_withReadings, announceEntry, run_bind, asks]
  simp only [Option.isNone_some, Bool.false_eq_true, if_false, run_bind, time, timestamp]
  rw [← snd_run_discard]
  cases n₁.run (discard (push net (e.addition n.clock.read.2.next)))
  case mk result n' => cases result <;> rfl

-- Of the entries those that are enabled are pushed, and nothing else happens.
theorem exists_snd_run_audits (client : Option String)
    (entries : List (String × AuditKind × String)) :
    ∃ handed registry clock,
      (n.run (entries.forM fun (target, kind, value) => audit net target kind client value)).2 =
        (n.run (pushAll net handed)).2.withReadings registry clock ∧
      (∀ e ∈ handed, e.1.client = clientName client) ∧
      handed.map (·.1.part) = (entries.map fun e => (e.1, e.2.1)).filter n.enables := by
  induction entries generalizing n
  case nil => exact ⟨[], n.registry, n.clock, rfl, nofun, rfl⟩
  case cons entry entries hi =>
    obtain ⟨target, kind, value⟩ := entry
    have head : (n.run (((target, kind, value) :: entries).forM fun (target, kind, value) =>
        audit net target kind client value)).2 =
          ((n.run (announceEntry net target kind (clientName client) value)).2.run
            (entries.forM fun (target, kind, value) => audit net target kind client value)).2 := by
      rw [List.forM, run_bind]
      dsimp only
      rw [audit, run_quietly]
    rw [head]
    by_cases he : n.enables (target, kind)
    case neg =>
      rw [run_announceEntry_of_disabled (Option.not_isSome_iff_eq_none.mp he)]
      obtain ⟨handed, registry, clock, ran, named, parts⟩ :=
        hi (n.withReadings (n.registry.query n.storage target kind).2 n.clock)
      rw [snd_run_pushAll_withReadings] at ran
      rw [enables_withReadings rfl] at parts
      refine ⟨handed, registry, clock, ran, named, ?_⟩
      rw [parts, List.map_cons, List.filter_cons_of_neg he]
    case pos =>
      let e : AuditEntry :=
        { target, time := n.clock.next, client := clientName client, kind, value }
      let n₁ := (n.run (push net (e.addition n.clock.read.2.next))).2
      rw [snd_run_announceEntry_of_enables n net he]
      obtain ⟨handed, registry, clock, ran, named, parts⟩ :=
        hi (n₁.withReadings (n.registry.query n.storage target kind).2 n.clock.read.2.read.2)
      rw [snd_run_pushAll_withReadings] at ran
      rw [enables_withReadings (storage_run_push ..)] at parts
      refine ⟨(e, n.clock.read.2.next) :: handed, registry, clock, ?_,
        List.forall_mem_cons.mpr ⟨rfl, named⟩, ?_⟩
      · rw [snd_run_pushAll_cons]
        exact ran
      · rw [List.map_cons, parts, List.map_cons, List.filter_cons_of_pos he]
        rfl

end

-- Nothing of the log has gone out.
def Silent (n n' : Node) : Prop :=
  ∃ os, n'.outbox = n.outbox ++ os ∧ ∀ o ∈ os, ¬o.CarriesLog

namespace Silent

theorem refl (n : Node) : n.Silent n := ⟨[], (List.append_nil _).symm, nofun⟩

theorem congr (h : n.Silent n₁) (ho : n'.outbox = n₁.outbox) : n.Silent n' := by
  simpa only [Silent, ho] using h

theorem emit (h : n.Silent n₁) {o : Outgoing} (ho : ¬o.CarriesLog) :
    n.Silent { n₁ with outbox := n₁.outbox ++ [o] } := by
  obtain ⟨os, hos, hs⟩ := h
  refine ⟨os ++ [o], by rw [hos, List.append_assoc], ?_⟩
  simpa [or_imp, forall_and] using ⟨hs, ho⟩

theorem upkeep (n : Node) : Upkeep (¬·.CarriesLog) n.Silent where
  talks                   := ⟨fun _ _ _ h => h.congr rfl, fun _ h => h.congr rfl,
    fun _ _ ho h => h.emit ho⟩
  permits _               := Outgoing.IsExchange.not_carriesLog
  merges _ _ h            := h.congr rfl
  stages _ name _ _ _ h   := h.congr (by cases name <;> rfl)
  books _ _ _ _ _ _ _ h   := h.congr rfl

end Silent

-- What may accompany the change: entries of these kinds on these targets. Columns are compared with
-- those of the definition that the node shows.
inductive Accompanies (n : Node) : Request → String → AuditKind → Prop
  | keyspaceAltered {k : Keyspace} : Accompanies n (.updateKeyspace k) k.name .keyspaceAltered
  | keyspaceDropped {name : String} : Accompanies n (.dropKeyspace name) name .keyspaceDropped
  | tableDropped {keyspace name : String} :
      Accompanies n (.dropTable keyspace name) (joinTarget [keyspace, name]) .tableDropped
  | tableAltered {t : Table} :
      Accompanies n (.updateTable t) (joinTarget [t.keyspace, t.name]) .tableAltered
  | columnAdded {t old : Table} {column : String}
      (shown : n.schema.table t.keyspace t.name = some old) (has : column ∈ t.columns)
      (had : column ∉ old.columns) :
      Accompanies n (.updateTable t) (joinTarget [t.keyspace, t.name, column]) .columnAdded
  | columnDropped {t old : Table} {column : String}
      (shown : n.schema.table t.keyspace t.name = some old) (has : column ∉ t.columns)
      (had : column ∈ old.columns) :
      Accompanies n (.updateTable t) (joinTarget [t.keyspace, t.name, column]) .columnDropped

end Node

namespace Request

open Node

variable {n n' : Node} {p : Plan} {request : Request} {target : String} {kind : AuditKind}

-- The change alone, without its entries.
def enact (net : Network) (request : Request) : NodeM Plan := do
  let p ← request.plan
  announce net p.batch
  return p

theorem run_eq_enact (net : Network) (client : Option String) (request : Request) :
    request.run net client = (do
      let p ← request.enact net
      p.entries.forM fun (target, kind, value) => audit net target kind client value) := by
  simp only [run_eq, enact, bind_assoc, pure_bind]

theorem makes_of_enact {net : Network} (h : n.run (request.enact net) = (.ok p, n')) :
    request.Makes n p := by
  obtain ⟨_, _, planned, h⟩ := run_bind_eq_ok_iff.mp h
  obtain ⟨_, _, -, h⟩ := run_bind_eq_ok_iff.mp h
  cases h
  exact makes_of_plan planned

namespace Makes

theorem tells_not_carriesLog (h : request.Makes n p) : Tells (¬·.CarriesLog) p.batch := by
  have made (key : Bytes) (families : List (String × List Modification)) :
      (Mutation.ofFamilies Catalog.system key families).keyspace = Catalog.system :=
    (Mutation.partition_extendAll _ families).left
  have first : ∃ m batch, p.batch = m :: batch ∧ m.keyspace = Catalog.system := by
    cases h
    case createKeyspace k timestamp _ _ =>
      exact ⟨_, _, rfl, (Mutation.partition_extendAll _ _).left.trans (made _ _)⟩
    all_goals exact ⟨_, _, rfl, made _ _⟩
  obtain ⟨m, batch, hb, hm⟩ := first
  rintro a id payload hw ⟨m', payload', hm', hw', he⟩
  obtain rfl : payload = payload' := congrArg Message.payload he
  rw [hb] at hw
  have he : Catalog.system = Catalog.metadata :=
    (hm.symm.trans (Wire.keyspace_eq_of_writeBatch hw hw')).trans hm'
  exact absurd he (by decide)

theorem nodup_parts (h : request.Makes n p) : p.parts.Nodup := by
  rw [Plan.parts]
  cases h
  case updateTable t old d drops plans =>
    have each (kind : AuditKind) (old new : Table) : ((old.droppedColumns new).map fun column =>
        (joinTarget [t.qualifiedName, column], kind)).Nodup :=
      (old.nodup_droppedColumns new).map fun _ _ he =>
        joinTarget_pair_injective _ (congrArg Prod.fst he)
    simp only [List.map_cons, List.map_append, List.map_map, Function.comp_def, List.cons_append]
    -- The kinds tell the three parts from one another.
    refine List.nodup_cons.mpr ⟨by simp, List.nodup_append.mpr ⟨each _ _ _, each _ _ _, ?_⟩⟩
    simp
  all_goals simp

theorem mem_parts_iff (hn : Definitions.Consistent n.schema.keyspaces) (h : request.Makes n p) :
    (target, kind) ∈ p.parts ↔ n.Accompanies request target kind := by
  rw [Plan.parts]
  cases h
  case createKeyspace => exact iff_of_false (by simp) nofun
  case createTable    => exact iff_of_false (by simp) nofun
  case updateKeyspace k old _ _ =>
    simp only [List.map_cons, List.map_nil, List.mem_singleton, Prod.mk.injEq]
    exact ⟨fun ⟨ht, hk⟩ => ht ▸ hk ▸ .keyspaceAltered, fun h => by cases h; exact ⟨rfl, rfl⟩⟩
  case dropKeyspace name old d _ _ =>
    simp only [List.map_cons, List.map_nil, List.mem_singleton, Prod.mk.injEq]
    exact ⟨fun ⟨ht, hk⟩ => ht ▸ hk ▸ .keyspaceDropped, fun h => by cases h; exact ⟨rfl, rfl⟩⟩
  case dropTable keyspace name old d _ shown =>
    obtain ⟨k, hk, hold⟩ := Option.bind_eq_some_iff.mp shown
    obtain ⟨rfl, hc⟩ := hn keyspace k hk
    obtain rfl := hc.name_eq name old hold
    have hq : old.qualifiedName = joinTarget [k.name, old.name] := by
      rw [← hc.keyspace_eq _ old hold]
      rfl
    simp only [List.map_cons, List.map_nil, List.mem_singleton, Prod.mk.injEq, hq]
    exact ⟨fun ⟨ht, hk⟩ => ht ▸ hk ▸ .tableDropped, fun h => by cases h; exact ⟨rfl, rfl⟩⟩
  case updateTable t old d drops plans =>
    simp only [List.map_cons, List.map_append, List.map_map, Function.comp_def, List.cons_append,
      List.mem_cons, List.mem_append, List.mem_map, Prod.mk.injEq, joinTarget_qualifiedName,
      Table.addedColumns, Table.mem_droppedColumns_iff_mem]
    constructor
    case mp =>
      rintro (⟨rfl, rfl⟩ | ⟨column, ⟨has, had⟩, rfl, rfl⟩ | ⟨column, ⟨had, has⟩, rfl, rfl⟩)
      · exact .tableAltered
      · exact .columnAdded plans.shown has had
      · exact .columnDropped plans.shown has had
    case mpr =>
      intro h
      cases h
      case tableAltered => exact .inl ⟨rfl, rfl⟩
      case columnAdded old' column had shown has =>
        cases plans.shown.symm.trans shown
        exact .inr (.inl ⟨column, ⟨has, had⟩, rfl, rfl⟩)
      case columnDropped old' column had shown has =>
        cases plans.shown.symm.trans shown
        exact .inr (.inr ⟨column, ⟨had, has⟩, rfl, rfl⟩)

end Makes

end Request

namespace Node

variable {n n₁ n' : Node} {net : Network} {client : Option String} {request : Request} {p : Plan}
  {e : Failure}

theorem silent_run_enact (hs : n.Sorted) (net : Network) (request : Request) :
    n.Silent (n.run (request.enact net)).2 := by
  have plans : Keeps (fun n' => n.Silent n' ∧ n'.Sorted) request.plan :=
    request.keeps_plan (keeps_readClock (Silent.upkeep n).sorted.talks.watches)
  rw [Request.enact, run_bind]
  cases hp : n.run request.plan
  case mk result n₀ =>
    have h₀ := plans.of_run ⟨.refl n, hs⟩ hp
    cases result
    case error e => exact h₀.left
    case ok p =>
      have tells := (Request.makes_of_plan hp).tells_not_carriesLog
      have announces := (Silent.upkeep n).keeps_announce tells net
      exact (announces.bind (fun _ => keeps_pure _) n₀ h₀).left

-- A change that is made does not fail for its entries.
theorem exists_run_request (h : n.run (request.enact net) = (.ok p, n₁)) (client : Option String) :
    ∃ n', n.run (request.run net client) = (.ok (), n') := by
  obtain ⟨n', audited⟩ := exists_run_audits n₁ net client p.entries
  rw [Request.run_eq_enact]
  exact ⟨n', run_bind_eq_ok_iff.mpr ⟨p, n₁, h, audited⟩⟩

theorem run_enact_of_error (h : n.run (request.run net client) = (.error e, n')) :
    n.run (request.enact net) = (.error e, n') := by
  cases he : n.run (request.enact net)
  case mk result n₁ =>
    cases result
    case ok p =>
      obtain ⟨n₂, ran⟩ := exists_run_request he client
      cases ran.symm.trans h
    case error e' =>
      rw [Request.run_eq_enact, run_bind, he] at h
      cases h
      rfl

theorem companions_match {address : Address} {config : Config} {storage : Storage}
    {metrics : String} {clock : Clock} {startedAt : Int}
    (h : Relation.ReflTransGen Evolves (idle address config storage metrics clock startedAt) n)
    (net : Network) (client : Option String) (request : Request) :
    (∀ n', n.run (request.run net client) = (.ok (), n') →
      ∃ p n₁ handed registry clock, n.run (request.enact net) = (.ok p, n₁) ∧ n.Silent n₁ ∧
        n' = (n₁.run (pushAll net handed)).2.withReadings registry clock ∧
        (∀ e ∈ handed, e.1.client = clientName client ∧
          (e.1.addition e.2).Enters e.1.target e.1.kind (clientName client)) ∧
        (handed.map (·.1.part)).Nodup ∧
        ∀ target kind, (target, kind) ∈ handed.map (·.1.part) ↔
          n.Accompanies request target kind ∧ n₁.enables (target, kind)) ∧
    ∀ e n', n.run (request.run net client) = (.error e, n') →
      n.run (request.enact net) = (.error e, n') ∧ n.Silent n' := by
  have silent := silent_run_enact (sorted_of_evolves h) net request
  constructor
  case left =>
    intro n' ran
    rw [Request.run_eq_enact] at ran
    obtain ⟨p, n₁, enacted, audited⟩ := run_bind_eq_ok_iff.mp ran
    have makes := Request.makes_of_enact enacted
    obtain ⟨handed, registry, clock, rest, named, parts⟩ :=
      exists_snd_run_audits n₁ net client p.entries
    have parts : handed.map (·.1.part) = p.parts.filter n₁.enables := parts
    rw [audited] at rest
    rw [enacted] at silent
    refine ⟨p, n₁, handed, registry, clock, enacted, silent, rest, fun e hm => ?_, ?_,
      fun target kind => ?_⟩
    · exact ⟨named e hm, named e hm ▸ e.1.enters_addition e.2⟩
    · rw [parts]
      exact makes.nodup_parts.filter _
    · rw [parts, List.mem_filter, makes.mem_parts_iff (cautious_of_evolves h).names]
  case right =>
    intro e n' ran
    have enacted := run_enact_of_error ran
    rw [enacted] at silent
    exact ⟨enacted, silent⟩

-- Of the columns one is dropped, which is audited, and one is added, which is not.
theorem companions_match_of_update :
    let net := ((Network.new 1 Network.defaultCapacity).add (.v4 10 0 0 2) Protocol.current false).1
    let base := ((Table.new "app" "users" ⟨List.replicate 16 0, rfl⟩).withColumn
      ⟨"id", "UTF8Type", .partitionKey⟩).withColumn ⟨"email", "UTF8Type", .regular⟩
    let users := base.withColumn ⟨"phone", "UTF8Type", .regular⟩
    let users' := base.withColumn ⟨"city", "UTF8Type", .regular⟩
    let app := (Keyspace.simple "app" 1).withTable users
    let registry := ((∅ : Registry).learn "app.users" AuditKind.tableAltered.code "on").learn
      "app.users.phone" AuditKind.columnDropped.code "on"
    let n₀ := idle (.v4 10 0 0 1) .standard ∅ "node" ⟨1000, 0, 0⟩ 0
    let n₁ := (n₀.run ((Activity.merges [app.creation 1]).run net)).2
    let n₂ : Node := { n₁ with registry }
    let request := Request.updateTable users'
    Relation.ReflTransGen Evolves n₀ n₂ ∧
      (∃ n' p n handed registry clock, n₂.run (request.run net (some "eve")) = (.ok (), n') ∧
        n₂.run (request.enact net) = (.ok p, n) ∧ n₂.Silent n ∧
        n' = (n.run (pushAll net handed)).2.withReadings registry clock ∧
        (∀ e ∈ handed, e.1.client = "eve" ∧
          (e.1.addition e.2).Enters e.1.target e.1.kind "eve") ∧
        (handed.map (·.1.part)).Nodup ∧
        (joinTarget ["app", "users"], .tableAltered) ∈ handed.map (·.1.part) ∧
        (joinTarget ["app", "users", "phone"], .columnDropped) ∈ handed.map (·.1.part) ∧
        (joinTarget ["app", "users", "city"], .columnAdded) ∉ handed.map (·.1.part)) ∧
      ∃ e n', n₂.run ((Request.dropKeyspace "gone").run net none) = (.error e, n') ∧
        n₂.Silent n' := by
  intro net base users users' app registry n₀ n₁ n₂ request
  have h₁ : n₀.Evolves n₁ := .acts (.does n₀ net trivial)
  have h₂ : n₁.Evolves n₂ := .adjusted n₁ n₁.storage n₁.observers registry n₁.metrics
  have h : Relation.ReflTransGen Evolves n₀ n₂ := .tail (.single h₁) h₂
  have valid : users'.validate = .ok () := by
    have named : ∀ name ∈ ["app", "users", "id", "email", "city"], ∀ what,
        checkName what name = .ok () := by
      simp [checkName, isName, isNameChar, maxNameLength]
      decide
    refine Table.validate_withColumn (Table.validate_withColumn (Table.validate_withColumn
      (Table.validate_new.mpr ⟨?_, ?_⟩) ?_) ?_) ?_
    case refine_1 => exact named "app" (by simp) _
    case refine_2 => exact named "users" (by simp) _
    all_goals exact seq_eq_ok_iff.mpr ⟨named _ (by simp) _, rfl⟩
  have shown : n₂.schema.table "app" "users" = some users := by decide +kernel
  have altered : n₂.Accompanies request (joinTarget ["app", "users"]) .tableAltered :=
    .tableAltered
  have dropped : n₂.Accompanies request (joinTarget ["app", "users", "phone"]) .columnDropped :=
    .columnDropped shown (by decide +kernel) (by decide +kernel)
  have enacts : (n₂.run (request.enact net)).1.isOk = true ∧
      [(joinTarget ["app", "users"], .tableAltered),
        (joinTarget ["app", "users", "phone"], .columnDropped),
        (joinTarget ["app", "users", "city"], .columnAdded)].map
          (n₂.run (request.enact net)).2.enables = [true, true, false] := by
    simp only [request, Request.enact, Request.plan, planUpdate, valid]
    decide +kernel
  have failed : n₂.run ((Request.dropKeyspace "gone").run net none) =
      (.error (.definition (.keyspaceNotFound "gone")), n₂) := by
    have missing : n₂.schema.keyspace "gone" = none := by decide +kernel
    rw [Request.run, Node.dropKeyspace, requireKeyspace, bind_assoc, run_bind, run_get]
    dsimp only
    rw [missing]
    rfl
  clear_value n₂
  obtain ⟨enacts, enabled⟩ := enacts
  obtain ⟨p, hp⟩ := isOk_iff.mp enacts
  obtain ⟨n', ran⟩ := exists_run_request (Prod.ext hp rfl) (some "eve")
  obtain ⟨made, -⟩ := companions_match h net (some "eve") request
  obtain ⟨p, n, handed, registry, clock, enacted, silent, rest, named, nodup, parts⟩ := made n' ran
  rw [enacted] at enabled
  simp only [List.map_cons, List.map_nil, List.cons.injEq, and_true] at enabled
  obtain ⟨he₁, he₂, he₃⟩ := enabled
  refine ⟨h, ⟨n', p, n, handed, registry, clock, ran, enacted, silent, rest, named, nodup,
    (parts _ _).mpr ⟨altered, he₁⟩, (parts _ _).mpr ⟨dropped, he₂⟩, fun hm => ?_⟩, _, n₂, failed,
    ?_⟩
  · exact Bool.false_ne_true (he₃.symm.trans ((parts _ _).mp hm).right)
  · exact ((companions_match h net none _).right _ n₂ failed).right

end Node
end ClusterMetadata
