import ClusterMetadata.Proofs.Node.Dropping
import ClusterMetadata.Proofs.Schema.Lineage

/-!
What a table stays for as long as it is not dropped. Whatever a node is asked to announce in the
meantime, the id of the table and the columns of its partition key are those that it had, and their
validators are those that it had or that updates have brought (`Node.identity_kept`).
-/

namespace ClusterMetadata

theorem Footprint.Describes.cells_eq {f : Footprint} {batch : List Mutation} {s s' : Storage}
    {family keyspace : String} (hd : f.Describes batch) (hs : s.Writes (batchOn batch) s')
    (hfam : family ∈ Catalog.schema) (hk : f.keyspace ≠ keyspace) :
    Stored.cells s' family keyspace = Stored.cells s family keyspace := by
  obtain ⟨m, hm, hon⟩ := hd
  have hkey : Utf8.encode keyspace ≠ Utf8.encode f.keyspace :=
    fun he => hk (Utf8.encode_inj.mp he).symm
  simp only [Stored.cells, Storage.read, hs.partition, hon family hfam, hm.elsewhere family _ hkey,
    List.foldl_nil]

namespace Request

open Node

variable {n n' n₀ : Node} {p : Plan} {request : Request} {keyspace name : String} {old : Table}
  {s s' : Storage} {family : String} {path : CellName}

-- The request is to drop the table, by itself or with its keyspace.
def Drops (keyspace name : String) : Request → Prop
  | dropKeyspace k => k = keyspace
  | dropTable k t  => k = keyspace ∧ t = name
  | _              => False

-- What the request is to make of the table.
def update? (keyspace name : String) : Request → Option Table
  | updateTable t => if t.keyspace = keyspace ∧ t.name = name then some t else none
  | _             => none

-- The request is about another table, another keyspace or no table at all.
def IsAside (keyspace name : String) : Request → Prop
  | createKeyspace k _ => k.name ≠ keyspace
  | createTable t      => ¬(t.keyspace = keyspace ∧ t.name = name)
  | updateKeyspace _   => True
  | updateTable t      => ¬(t.keyspace = keyspace ∧ t.name = name)
  | dropKeyspace k     => k ≠ keyspace
  | dropTable k t      => ¬(k = keyspace ∧ t = name)

-- What exists is not created.
theorem isAside_of_plan (shown : n.schema.table keyspace name = some old)
    (planned : n.run request.plan = (.ok p, n₀)) (hd : ¬request.Drops keyspace name)
    (hu : request.update? keyspace name = none) : request.IsAside keyspace name := by
  cases makes_of_plan planned
  case createKeyspace k timestamp _ absent =>
    rintro rfl
    obtain ⟨k', hk, -⟩ := Option.bind_eq_some_iff.mp shown
    rw [Schema.keyspace, hk] at absent
    cases absent
  case createTable t k _ _ absent =>
    rintro ⟨rfl, rfl⟩
    rw [shown] at absent
    cases absent
  case updateKeyspace         => trivial
  case updateTable t _ _ _ _  => exact fun h => by simp [update?, h] at hu
  case dropKeyspace k _ _ _ _ => exact hd
  case dropTable k t _ _ _ _  => exact hd

-- What is aside leaves the rows of the table alone.
theorem IsAside.spares (ha : request.IsAside keyspace name)
    (hn : Definitions.Consistent n.schema.keyspaces) (hl : 0 < Row.depth family)
    (hp : [name] <+: path) (hk : (request.footprint n).keyspace = keyspace) :
    (∀ v, ¬(request.footprint n).puts.Has family path v) ∧
      ∀ path', (request.footprint n).clears path' → path'.length ≤ Row.depth family →
        ¬path' <+: path := by
  -- A path under the name of another table is not one under the name of this table.
  have apart {t : String} {path' : CellName} (hp' : path' <+: path) (ht : [t] <+: path') :
      t = name := by
    have he := List.prefix_of_prefix_length_le (ht.trans hp') hp (Nat.le_refl 1)
    simpa using he
  have unput {t : Table} (ht : t.name ≠ name) (v : Bytes) : ¬Rows.Has t.HasRow family path v := by
    rintro ⟨path', _, leaf, hrow, -, -, rfl⟩
    exact ht (apart (List.prefix_append ..) (hrow.singleton_prefix_iff.mpr rfl))
  cases request
  case createKeyspace k timestamp => exact absurd hk ha
  case createTable t => exact ⟨unput fun he => ha ⟨hk, he⟩, fun _ => False.elim⟩
  case updateKeyspace k =>
    refine ⟨?_, fun _ => False.elim⟩
    rintro v ⟨_, _, _, ⟨rfl, -⟩, hdepth, -⟩
    exact Nat.ne_of_lt hl hdepth
  case updateTable t =>
    have ht : t.name ≠ name := fun he => ha ⟨hk, he⟩
    refine ⟨unput ht, ?_⟩
    rintro path' ⟨old', hold, hm⟩ - hp'
    obtain ⟨column, -, rfl⟩ := List.mem_map.mp hm
    obtain ⟨k, hkeyspace, htable⟩ := Option.bind_eq_some_iff.mp hold
    have hname := (hn t.keyspace k hkeyspace).right.name_eq t.name old' htable
    exact ht (hname ▸ apart hp' ⟨[column], rfl⟩)
  case dropKeyspace k => exact absurd hk ha
  case dropTable k t =>
    refine ⟨fun v ⟨_, _, _, hrow, _⟩ => hrow, ?_⟩
    rintro path' hm - hp'
    obtain rfl := List.mem_singleton.mp hm
    exact ha ⟨hk, apart hp' List.prefix_rfl⟩

-- What is aside leaves the keyspace of the table there.
theorem IsAside.hasKeyspace (ha : request.IsAside keyspace name)
    (hd : (request.footprint n).Describes p.batch) (hf : (request.footprint n).IsTidy)
    (hw : s.Writes (batchOn p.batch) s') (hr : s.IsRegular) (hr' : s'.IsRegular)
    (hk : Stored.hasKeyspace s keyspace = true) : Stored.hasKeyspace s' keyspace = true := by
  have elsewhere (hne : (request.footprint n).keyspace ≠ keyspace) :
      Stored.hasKeyspace s' keyspace = true := by
    rwa [Stored.hasKeyspace, hd.cells_eq hw Catalog.keyspaces_mem_schema hne]
  cases request
  case createKeyspace k timestamp => exact elsewhere ha
  case createTable t              => exact (hasKeyspace_eq hd hw trivial).trans hk
  case updateTable t              => exact (hasKeyspace_eq hd hw trivial).trans hk
  case dropKeyspace k             => exact elsewhere ha
  case dropTable k t              => exact (hasKeyspace_eq hd hw trivial).trans hk
  case updateKeyspace k =>
    by_cases he : k.name = keyspace
    case neg => exact elsewhere he
    case pos =>
      subst he
      have hfam := Catalog.keyspaces_mem_schema
      obtain ⟨c, hc⟩ := (hr.present_iff hfam rfl).mp hk
      have hh : ((updateKeyspace k).footprint n).puts.Has Catalog.keyspaces
          (CellName.child [] Row.marker) [] :=
        ⟨[], k.cells, Row.marker, ⟨rfl, rfl⟩, rfl, by simp [Keyspace.cells], rfl⟩
      exact (hr'.present_iff hfam rfl).mpr
        (hd.exists_live_of_puts hw hfam hf (List.mem_singleton_self _) hh hc)

end Request

-- What the request has made of the table, if it has not been refused.
def Request.accepted (keyspace name : String) (request : Request) (result : Except Failure Unit) :
    List Table :=
  if result.isOk then (request.update? keyspace name).toList else []

theorem Request.accepted_updateTable {t : Table} {keyspace name : String}
    (h : t.keyspace = keyspace ∧ t.name = name) :
    (updateTable t).accepted keyspace name (.ok ()) = [t] := by
  rw [accepted, update?, if_pos h]
  rfl

namespace Node

variable {n n' : Node} {net : Network} {client : Option String} {request : Request}
  {result : Except Failure Unit} {keyspace name : String} {old t : Table}

theorem Steady.descends_of_request (h : n.Steady) (hk : request.IsKeyed)
    (shown : n.schema.table keyspace name = some old)
    (ran : n.run (request.run net client) = (result, n'))
    (kept : result = .ok () → ¬request.Drops keyspace name) :
    ∃ t, n'.schema.table keyspace name = some t ∧
      old.Descends (request.accepted keyspace name result) t := by
  obtain ⟨steady, ⟨e, clock, rfl, rfl⟩ | ⟨rfl, p, n₀, planned, merged⟩⟩ := h.outcome ran
  case inl => exact ⟨old, shown, .refl⟩
  case inr =>
    have hd := Request.describes_of_plan h.cautious.names planned
    have hf := Request.isTidy hk planned
    have hw : n.storage.Writes (batchOn p.batch) n'.storage := Replica.writes_merge merged
    obtain ⟨stored, -, -⟩ := h.sound.exists_table_eq shown
    cases hu : request.update? keyspace name
    case none =>
      have ha := Request.isAside_of_plan shown planned (kept rfl) hu
      have spares {family : String} {path : CellName} (hl : 0 < Row.depth family)
          (hp : [name] <+: path) := ha.spares h.cautious.names hl hp
      have hs := ha.hasKeyspace hd hf hw h.sound.regular steady.sound.regular stored
      have hnone : request.accepted keyspace name (.ok ()) = [] := by simp [Request.accepted, hu]
      rw [hnone]
      refine h.sound.descends_of_eq steady.sound shown hs (fun leaf => ?_) fun column leaf => ?_
      · exact hd.getElem?_eq hw Catalog.tables_mem_schema (spares (by decide) ⟨[leaf], rfl⟩)
      · exact hd.getElem?_eq hw Catalog.columns_mem_schema
          (spares (by decide) ⟨[column, leaf], rfl⟩)
    case some new =>
      cases request
      case updateTable t =>
        rw [Request.update?, Option.ite_none_right_eq_some, Option.some.injEq] at hu
        obtain ⟨⟨rfl, rfl⟩, rfl⟩ := hu
        obtain ⟨⟨old', batch⟩, _, hp, -⟩ := run_bind_eq_ok_iff.mp planned
        obtain ⟨_, _, plans, -⟩ := run_planUpdate_eq_ok hp
        cases shown.symm.trans plans.shown
        have hs := (Request.hasKeyspace_eq hd hw trivial).trans stored
        rw [Request.accepted_updateTable ⟨rfl, rfl⟩]
        exact h.sound.descends_of_update steady.sound shown hs hd hf hw rfl rfl rfl hk rfl
          plans.replaces
      all_goals cases hu

-- Nothing is under way, what is stored can be read, and the definitions are those of the schema.
structure Retains (schema : Schema) (n : Node) : Prop where
  schema : n.schema = schema
  idle   : n.migration.IsIdle
  sound  : n.replica.Sound
  plain  : n.storage.HasPlainColumns

namespace Retains

variable {schema : Schema}

theorem ofReplica : OfReplica (Retains schema) := by
  intro n n' hr hm h
  have hs : n'.storage = n.storage := congrArg Replica.storage hr
  exact ⟨(congrArg Replica.schema hr).trans h.schema, hm ▸ h.idle, hr ▸ h.sound, hs ▸ h.plain⟩

theorem registry_notMem_schema : Catalog.registry ∉ Catalog.schema := by decide

theorem registers (n : Node) (m : Mutation) (registry : Registry) (storage : Storage)
    (hm : Registry.IsChange m) (ha : n.storage.apply m = .ok storage) (h : n.Retains schema) :
    Retains schema { n with registry, storage } := by
  have hw := Storage.writes_apply ha
  have aside (family : String) (hf : family ∈ Catalog.schema) (key : Bytes) :
      m.on ⟨Catalog.system, family, key⟩ = [] :=
    hm.on_eq_nil fun he => registry_notMem_schema (he ▸ hf)
  refine ⟨h.schema, h.idle, h.sound.of_writes hw aside, h.plain.writes hw ?_⟩
  intro key table column leaf c hc
  rw [aside _ Catalog.columns_mem_schema] at hc
  cases hc

end Retains

end Node

-- What a node is asked to announce.
inductive Notice where
  | calls (call : Call) (client : Option String)
  | registers (target : String) (kind : AuditKind) (tag : String)
  | unregisters (target : String)
  | enters (target : String) (kind : AuditKind) (client value : String)

namespace Notice

open Node

def run (net : Network) : Notice → NodeM Unit
  | calls call client               => call.run net client
  | registers target kind tag       => updateRegistry net target kind tag
  | unregisters target              => dropRegistry net target
  | enters target kind client value => discard (announceEntry net target kind client value)

-- The definition that is brought is kept under its names.
def IsKeyed : Notice → Prop
  | calls (.newKeyspace k) _ => k.Keyed
  | calls (.asks request) _  => request.IsKeyed
  | _                        => True

def Drops (keyspace name : String) : Notice → Prop
  | calls (.asks request) _ => request.Drops keyspace name
  | _                       => False

-- What has been made of the table, if it is not refused.
def accepted (keyspace name : String) (result : Except Failure Unit) : Notice → List Table
  | calls (.asks request) _ => request.accepted keyspace name result
  | _                       => []

end Notice

namespace Node

variable {n n' n₀ n₁ : Node} {net : Network} {notice : Notice}
  {result : Except Failure Unit} {keyspace name : String} {old t : Table} {updates : List Table}

theorem Steady.of_keeps (h : n.Steady) (activity : Activity) (possible : activity.Possible n)
    (hk : Keeps (Retains n.schema) (activity.run net))
    (ran : n.run (activity.run net) = (result, n')) : n'.Steady ∧ n'.schema = n.schema := by
  have retains := hk.of_run ⟨rfl, h.idle, h.sound, h.plain⟩ ran
  have acts := Acts.does n net possible
  rw [ran] at acts
  exact ⟨⟨retains.idle, h.cautious.acts acts, retains.sound, retains.plain⟩, retains.schema⟩

-- Entries of the registry and of the log have nothing to do with definitions.
theorem Steady.run_aside (h : n.Steady) (ha : ∀ call client, notice ≠ .calls call client)
    (ran : n.run (notice.run net) = (result, n')) :
    n'.Steady ∧ n'.schema = n.schema := by
  have talks : IgnoresTalk (Retains n.schema) := Retains.ofReplica.ignoresTalk
  cases notice
  case calls call client => exact absurd rfl (ha call client)
  case registers target kind tag =>
    refine h.of_keeps (.registers target kind tag) trivial ?_ ran
    exact keeps_updateRegistry talks tellsDefinitions_true Retains.registers net target kind tag
  case unregisters target =>
    refine h.of_keeps (.unregisters target) trivial ?_ ran
    exact keeps_dropRegistry talks tellsDefinitions_true Retains.registers net target
  case enters target kind client value =>
    refine h.of_keeps (.announces target kind client value) trivial ?_ ran
    exact (keeps_announceEntry talks tellsDefinitions_true
      (keeps_modifyGet fun n => Retains.ofReplica n _ rfl rfl) net client value).map _

theorem Steady.run_notice (h : n.Steady)
    (ran : n.run (notice.run net) = (result, n')) : n'.Steady := by
  by_cases hc : ∃ call client, notice = .calls call client
  case neg =>
    push Not at hc
    exact (h.run_aside hc ran).left
  case pos =>
    obtain ⟨call, client, rfl⟩ := hc
    cases call
    case asks request => exact (h.outcome ran).left
    case newKeyspace k =>
      rw [Notice.run, Call.run, run_newKeyspace n net client] at ran
      exact ((h.withClock n.clock.read.2).outcome ran).left

-- What is shown of a table that is not dropped comes of what was shown before.
theorem Steady.descends (h : n.Steady) (hk : notice.IsKeyed)
    (shown : n.schema.table keyspace name = some old)
    (ran : n.run (notice.run net) = (result, n'))
    (kept : result = .ok () → ¬notice.Drops keyspace name) :
    ∃ t, n'.schema.table keyspace name = some t ∧
      old.Descends (notice.accepted keyspace name result) t := by
  by_cases hc : ∃ call client, notice = .calls call client
  case neg =>
    push Not at hc
    have none : notice.accepted keyspace name result = [] := by
      cases notice
      case calls call client => exact absurd rfl (hc call client)
      all_goals rfl
    rw [none, (h.run_aside hc ran).right]
    exact ⟨old, shown, .refl⟩
  case pos =>
    obtain ⟨call, client, rfl⟩ := hc
    cases call
    case asks request => exact h.descends_of_request hk shown ran kept
    case newKeyspace k =>
      rw [Notice.run, Call.run, run_newKeyspace n net client] at ran
      have keyed : (Request.createKeyspace k n.clock.next).IsKeyed := hk
      have none : (Request.createKeyspace k n.clock.next).accepted keyspace name result = [] :=
        ite_self []
      have created := (h.withClock n.clock.read.2).descends_of_request keyed shown ran fun _ => id
      rw [none] at created
      exact created

end Node

-- A node is asked to announce something, and then some time passes.
inductive Node.Issues : Node → Node → Prop
  | asked {n n' : Node} {result : Except Failure Unit} (net : Network)
      (notice : Notice) (clock : Clock) (keyed : notice.IsKeyed)
      (ran : n.run (notice.run net) = (result, n')) :
      Issues n { n' with clock }

-- From one notice to the next the table is not dropped. The updates of it that are accepted are
-- those of the list.
inductive Node.Lives (keyspace name : String) (n₀ : Node) : Node → List Table → Prop
  | start : Lives keyspace name n₀ n₀ []
  | asked {n n' : Node} {updates : List Table} {result : Except Failure Unit}
      (h : Lives keyspace name n₀ n updates) (net : Network) (notice : Notice) (clock : Clock)
      (keyed : notice.IsKeyed) (ran : n.run (notice.run net) = (result, n'))
      (kept : result = .ok () → ¬notice.Drops keyspace name) :
      Lives keyspace name n₀ { n' with clock }
        (updates ++ notice.accepted keyspace name result)

namespace Node

variable {n n₀ n₁ : Node} {keyspace name : String} {old t : Table} {updates : List Table}

theorem Steady.issues (h : n₀.Steady) (reached : Relation.ReflTransGen Issues n₀ n) :
    n.Steady := by
  induction reached
  case refl => exact h
  case tail _ step hi =>
    cases step
    case asked net notice clock keyed ran => exact (hi.run_notice ran).withClock clock

theorem Lives.descends (life : Lives keyspace name n₀ n updates) (h : n₀.Steady)
    (shown : n₀.schema.table keyspace name = some old) :
    n.Steady ∧ ∃ t, n.schema.table keyspace name = some t ∧ old.Descends updates t := by
  induction life
  case start => exact ⟨h, old, shown, .refl⟩
  case asked n n' updates result _ net notice clock keyed ran kept hi =>
    obtain ⟨steady, t, shown, descends⟩ := hi
    obtain ⟨t', shown', descends'⟩ := steady.descends keyed shown ran kept
    exact ⟨(steady.run_notice ran).withClock clock, t', shown', descends.trans descends'⟩

-- A keyspace is created with a table, and an update of the table follows.
theorem exists_life :
    let base := (Table.new "app" "users" ⟨List.replicate 16 0, rfl⟩).withColumn
      ⟨"id", "UTF8Type", .partitionKey⟩
    let users := base.withColumn ⟨"email", "UTF8Type", .regular⟩
    let blank := idle (.v4 10 0 0 1) .standard ∅ "node" ⟨1, 0, 0⟩ 0
    users.validate = .ok () ∧ ∀ t : Table, t.validate = .ok () → t.Keyed →
      users.checkReplacement t = .ok () → users.droppedColumns t = [] →
      ∃ n₀ n₁ n, blank.run (start NodePart.all) = (.ok (), n₀) ∧
        Relation.ReflTransGen Issues n₀ n₁ ∧ n₁.schema.table "app" "users" = some users ∧
        Lives "app" "users" n₁ n [t] ∧ n.schema.table "app" "users" = some t := by
  intro base users blank
  let app := (Keyspace.simple "app" 1).withTable users
  let net := Network.new 1 Network.defaultCapacity
  obtain ⟨r, hr, ⟨ds, ht⟩, hshown, htags, -, husers, -⟩ :=
    exists_store_of_users [2000, 3000] (by simp)
  refine ⟨husers, fun t hv hk hc hd => ?_⟩
  obtain ⟨hks, hname, -⟩ := Table.checkReplacement_eq_ok_iff.mp hc
  let n₀ := (blank.run (start NodePart.all)).2
  have started : blank.run (start NodePart.all) = (.ok (), n₀) :=
    run_eq_ok_of_toOption (by decide +kernel)
  have hclock : n₀.clock.next = 1 := by decide +kernel
  clear_value n₀
  obtain ⟨steady, empty⟩ := Steady.of_start started
  have valid : app.validate = .ok () := Keyspace.validate_withTable Request.validate_app husers rfl
  have keyed : app.Keyed :=
    Keyspace.keyed_new.withTable ((Table.keyed_new.withColumn _).withColumn _)
  obtain ⟨n', ran, replica⟩ := steady.exists_newKeyspace empty valid (hclock ▸ hr) net
  let n₁ : Node := { n' with clock := ⟨2000, 1, 0⟩ }
  have created : Issues n₀ n₁ := .asked net (.calls (.newKeyspace app) none) _ keyed ran
  have steady₁ : n₁.Steady := steady.issues (.single created)
  have shown : n₁.schema.table "app" "users" = some users :=
    (congrArg (·.schema.table "app" "users") replica).trans hshown
  have tidy : Tag.IsTidy n₁.storage := by
    intro target c hc
    have stored : n₁.storage = r.storage := congrArg Replica.storage replica
    rw [stored, htags, Partition.getElem?_cells_empty] at hc
    cases hc
  have shown' : n₁.schema.table t.keyspace t.name = some users := hks ▸ hname ▸ shown
  have hnext : n₁.clock.next = 2000 := (by decide : (⟨2000, 1, 0⟩ : Clock).next = 2000)
  have later : ∀ x ∈ [3000], n₁.clock.next < x := by simp [hnext]
  have tracks : n₁.replica.Tracks ds (n₁.clock.next :: [3000]) := hnext ▸ replica ▸ ht
  obtain ⟨n₂, ran', updates⟩ :=
    steady₁.exists_update tidy ⟨hv, hk⟩ shown' hc (by simp [hd]) tracks later net
  have life : Lives "app" "users" n₁ _ _ :=
    .asked .start net (.calls (.asks (.updateTable t)) none) n₂.clock hk ran' fun _ => id
  have here : t.keyspace = "app" ∧ t.name = "users" := ⟨hks, hname⟩
  rw [Notice.accepted, Request.accepted_updateTable here, List.nil_append] at life
  have shows := updates.shown
  rw [here.left, here.right] at shows
  exact ⟨n₀, n₁, _, started, .single created, shown, life, shows⟩

-- For as long as a table is not dropped it is shown with the id and the columns of the partition
-- key that it had. Their validators are those that it had or that accepted updates have brought,
-- and so they stay if no accepted update brings another.
theorem identity_kept {address : Address} {config : Config} {metrics : String} {clock : Clock}
    {startedAt : Int} {parts : List NodePart}
    (started : (idle address config ∅ metrics clock startedAt).run (start parts) = (.ok (), n₀))
    (reached : Relation.ReflTransGen Issues n₀ n₁)
    (shown : n₁.schema.table keyspace name = some old)
    (life : Lives keyspace name n₁ n updates) :
    ∃ t, n.schema.table keyspace name = some t ∧ t.id = old.id ∧
      (∀ column, column ∈ t.partitionKey ↔ column ∈ old.partitionKey) ∧
      (∀ p ∈ t.keyValidators, ∃ u ∈ old :: updates, p ∈ u.keyValidators) ∧
      ((∀ u ∈ updates, u.keyValidators = old.keyValidators) →
        t.keyValidators = old.keyValidators) := by
  have steady := (Steady.of_start started).left.issues reached
  obtain ⟨steady', t, shown', descends⟩ := life.descends steady shown
  exact ⟨t, shown', descends.id, descends.key, descends.validators,
    descends.keyValidators_eq (steady.sound.keyed shown) (steady'.sound.keyed shown')⟩

-- An update that changes the comment.
theorem identity_kept_of_comment :
    let base := (Table.new "app" "users" ⟨List.replicate 16 0, rfl⟩).withColumn
      ⟨"id", "UTF8Type", .partitionKey⟩
    let users := base.withColumn ⟨"email", "UTF8Type", .regular⟩
    let kept := users.withComment "kept"
    let blank := idle (.v4 10 0 0 1) .standard ∅ "node" ⟨1, 0, 0⟩ 0
    ∃ n₀ n₁ n, blank.run (start NodePart.all) = (.ok (), n₀) ∧
      Relation.ReflTransGen Issues n₀ n₁ ∧ n₁.schema.table "app" "users" = some users ∧
      Lives "app" "users" n₁ n [kept] ∧
      ∃ t, n.schema.table "app" "users" = some t ∧ t.id = users.id ∧
        (∀ column, column ∈ t.partitionKey ↔ column ∈ users.partitionKey) ∧
        t.keyValidators = users.keyValidators := by
  intro base users kept blank
  obtain ⟨husers, lives⟩ := exists_life
  have hk : kept.Keyed := ((Table.keyed_new.withColumn _).withColumn _).withComment
  obtain ⟨n₀, n₁, n, started, reached, shown, life, -⟩ :=
    lives kept husers hk (by decide +kernel) (by decide +kernel)
  obtain ⟨t, shown', id, key, -, validators⟩ := identity_kept started reached shown life
  exact ⟨n₀, n₁, n, started, reached, shown, life, t, shown', id, key,
    validators fun u hu => by rw [List.mem_singleton.mp hu]; rfl⟩

-- An update that makes of the texts under which rows are found numbers.
theorem exists_life_reinterpreted :
    let base := (Table.new "app" "users" ⟨List.replicate 16 0, rfl⟩).withColumn
      ⟨"id", "UTF8Type", .partitionKey⟩
    let users := base.withColumn ⟨"email", "UTF8Type", .regular⟩
    let retyped := users.withColumn ⟨"id", "LongType", .partitionKey⟩
    let blank := idle (.v4 10 0 0 1) .standard ∅ "node" ⟨1, 0, 0⟩ 0
    ∃ n₀ n₁ n, blank.run (start NodePart.all) = (.ok (), n₀) ∧
      Relation.ReflTransGen Issues n₀ n₁ ∧ n₁.schema.table "app" "users" = some users ∧
      Lives "app" "users" n₁ n [retyped] ∧ n.schema.table "app" "users" = some retyped ∧
      retyped.keyValidators ≠ users.keyValidators := by
  intro base users retyped blank
  obtain ⟨husers, lives⟩ := exists_life
  have hid : checkName "column" "id" = .ok () := checkName_eq_ok_iff.mpr (by decide)
  have hv : retyped.validate = .ok () :=
    Table.validate_withColumn husers (seq_eq_ok_iff.mpr ⟨hid, rfl⟩)
  have keyed : users.Keyed := (Table.keyed_new.withColumn _).withColumn _
  have hk : retyped.Keyed := keyed.withColumn _
  obtain ⟨n₀, n₁, n, started, reached, shown, life, shown'⟩ :=
    lives retyped hv hk (by decide +kernel) (by decide +kernel)
  refine ⟨n₀, n₁, n, started, reached, shown, life, shown', fun same => ?_⟩
  have hp : ("id", "LongType") ∈ retyped.keyValidators :=
    hk.mem_keyValidators.mpr ⟨_, Std.ExtTreeMap.getElem?_insert_self, rfl, rfl⟩
  rw [same] at hp
  obtain ⟨c, hc, -, hvalidator⟩ := keyed.mem_keyValidators.mp hp
  have text : users.columns["id"]?.map Column.validator = some "UTF8Type" := by decide +kernel
  rw [hc, Option.map_some, hvalidator, Option.some.injEq] at text
  exact absurd text (by decide)

end Node

end ClusterMetadata
