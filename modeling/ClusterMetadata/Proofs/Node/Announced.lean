import ClusterMetadata.Proofs.Node.Drop
import ClusterMetadata.Proofs.Node.Reasons
import ClusterMetadata.Proofs.Node.Turn
import ClusterMetadata.Proofs.Schema.Footprint

/-!
What comes of a change that is announced and not refused. It has been merged, and the definitions
that the node shows are those that its storage then holds. There the latest instant decides: the
change shows if nothing that was stored before outlasts it, and a drop shows only then
(`run_applies`).
-/

namespace ClusterMetadata

namespace Request

open Node

variable {n n' : Node} {p : Plan} {request : Request} {s s' : Storage} {k : Keyspace} {t : Table}

-- The definition that the request brings is kept under its names.
def IsKeyed : Request → Prop
  | createKeyspace k _ => k.Keyed
  | createTable t      => t.Keyed
  | updateKeyspace k   => k.Keyed
  | updateTable t      => t.Keyed
  | dropKeyspace _     => True
  | dropTable _ _      => True

def IsDrop : Request → Prop
  | dropKeyspace _ => True
  | dropTable _ _  => True
  | _              => False

def IsAboutTable : Request → Prop
  | createTable _ => True
  | updateTable _ => True
  | dropTable _ _ => True
  | _             => False

-- The change that a node makes of the request. All but the creation of a keyspace are stamped with
-- the next reading of its clock. A drop is about the markers of what is dropped: once they are
-- gone, nothing shows.
def footprint (n : Node) : Request → Footprint
  | createKeyspace k timestamp => {
    keyspace := k.name
    time     := timestamp
    puts     := k.HasRow
    clears _ := False
    families := Catalog.schema
    area     := [] }
  | createTable t => {
    keyspace := t.keyspace
    time     := n.clock.next
    puts     := t.HasRow
    clears _ := False
    families := [Catalog.tables, Catalog.columns]
    area     := [t.name] }
  | updateKeyspace k => {
    keyspace := k.name
    time     := n.clock.next
    puts path cells := path = [] ∧ cells = k.cells
    clears _ := False
    families := [Catalog.keyspaces]
    area     := [] }
  | updateTable t => {
    keyspace := t.keyspace
    time     := n.clock.next
    puts     := t.HasRow
    clears path := ∃ old, n.schema.table t.keyspace t.name = some old ∧
      path ∈ (old.droppedColumns t).map fun c => [old.name, c]
    families := [Catalog.tables, Catalog.columns]
    area     := [t.name] }
  | dropKeyspace name => {
    keyspace := name
    time     := n.clock.next
    puts _ _ := False
    clears   := (· ∈ [[]])
    families := [Catalog.keyspaces]
    area     := [Row.marker] }
  | dropTable keyspace name => {
    keyspace := keyspace
    time     := n.clock.next
    puts _ _ := False
    clears   := (· ∈ [[name]])
    families := [Catalog.tables]
    area     := [name, Row.marker] }

-- Nothing stored outlasts the change. Tables show only in a keyspace that exists.
def Prevails (n : Node) (s : Storage) (request : Request) : Prop :=
  match request with
  | createTable t        => Stored.hasKeyspace s t.keyspace ∧ s.Yields (request.footprint n)
  | updateTable t        => Stored.hasKeyspace s t.keyspace ∧ s.Yields (request.footprint n)
  | dropTable keyspace _ => Stored.hasKeyspace s keyspace → s.Yields (request.footprint n)
  | _                    => s.Yields (request.footprint n)

-- The definitions show the change.
def Shown (s : Schema) : Request → Prop
  | createKeyspace k _      => s.keyspace k.name = some k
  | createTable t           => s.table t.keyspace t.name = some t
  | updateKeyspace k        => ∃ tables, s.keyspace k.name = some (k.withTables tables)
  | updateTable t           => s.table t.keyspace t.name = some t
  | dropKeyspace name       => s.keyspace name = none
  | dropTable keyspace name => s.table keyspace name = none

-- A keyspace is validated before it is announced.
theorem consistent_of_plan {timestamp : Int64} (hk : k.Keyed)
    (h : n.run (createKeyspace k timestamp).plan = (.ok p, n')) : k.Consistent := by
  cases makes_of_plan h
  case createKeyspace valid _ => exact k.consistent_of_validate valid hk

-- The batch of a request that is not refused makes the change.
theorem describes_of_plan (hn : Definitions.Consistent n.schema.keyspaces)
    (h : n.run request.plan = (.ok p, n')) : (request.footprint n).Describes p.batch := by
  cases makes_of_plan h
  case createKeyspace k timestamp _ _ => exact .of_rewrites k.rewrites_creation
  case createTable t _ _ _ _          => exact .of_rewrites t.rewrites_creation
  case updateKeyspace k _ _ _         => exact .of_rewrites k.rewrites_alteration
  case updateTable t old d drops plans =>
    refine ⟨old.alteration t d, ?_, plans.isAlteration.batch⟩
    have rewrites : Rewrites (old.alteration t d).on (Utf8.encode t.keyspace) d.markedAt t.HasRow
        (· ∈ (old.droppedColumns t).map fun c => [old.name, c]) := Table.rewrites_alteration
    have clears : (fun path => path ∈ (old.droppedColumns t).map fun c => [old.name, c]) =
        ((updateTable t).footprint n).clears := by
      funext path
      simp [footprint, plans.shown]
    rw [clears, plans.markedAt] at rewrites
    exact rewrites
  case dropKeyspace name old d markedAt shown =>
    obtain rfl := (hn name old shown).left
    have rewrites := old.rewrites_removal (d := d)
    rw [markedAt] at rewrites
    exact .of_rewrites rewrites
  case dropTable keyspace name old d markedAt shown =>
    obtain ⟨k, hk, hold⟩ := Option.bind_eq_some_iff.mp shown
    obtain ⟨rfl, hc⟩ := hn keyspace k hk
    obtain rfl := hc.name_eq name old hold
    rw [← hc.keyspace_eq _ old hold]
    have rewrites := old.rewrites_removal (d := d)
    rw [markedAt] at rewrites
    exact .of_rewrites rewrites

theorem isTidy (hk : request.IsKeyed) (h : n.run request.plan = (.ok p, n')) :
    (request.footprint n).IsTidy := by
  cases request
  case createKeyspace k timestamp =>
    have hc := consistent_of_plan hk h
    refine ⟨hc.isShaped, by simp [footprint], by simp [footprint], by simp [footprint], ?_⟩
    refine ⟨Catalog.keyspaces, Catalog.keyspaces_mem_schema, .inl ⟨[Row.marker], [], ?_⟩⟩
    exact ⟨[], k.cells, Row.marker, .keyspace, rfl, by simp [Keyspace.cells], rfl⟩
  case createTable t => exact Footprint.isTidy_of_table hk rfl (fun _ => False.elim) rfl rfl
  case updateKeyspace k =>
    refine ⟨k.isShaped_cells, by simp [footprint],
      by simp [footprint, Catalog.keyspaces_mem_schema], by simp [footprint], ?_⟩
    refine ⟨Catalog.keyspaces, by simp [footprint], .inl ⟨[Row.marker], [], ?_⟩⟩
    exact ⟨[], k.cells, Row.marker, ⟨rfl, rfl⟩, rfl, by simp [Keyspace.cells], rfl⟩
  case updateTable t =>
    refine Footprint.isTidy_of_table hk rfl ?_ rfl rfl
    rintro path ⟨old, -, hm⟩
    exact ⟨old, hm⟩
  case dropKeyspace name =>
    refine ⟨by constructor <;> simp [footprint], by simp [footprint],
      by simp [footprint, Catalog.keyspaces_mem_schema], by simp [footprint], ?_⟩
    exact ⟨Catalog.keyspaces, by simp [footprint], .inr ⟨[], by simp [footprint], Nat.zero_le _⟩⟩
  case dropTable keyspace name =>
    refine ⟨by constructor <;> simp [footprint], by simp [footprint],
      by simp [footprint, Catalog.tables_mem_schema], by simp [footprint], ?_⟩
    exact ⟨Catalog.tables, by simp [footprint],
      .inr ⟨[name], by simp [footprint], Nat.le_refl _⟩⟩

-- A change of a table leaves alone which keyspaces are stored.
theorem hasKeyspace_eq {batch : List Mutation} {keyspace : String}
    (hd : (request.footprint n).Describes batch) (hw : s.Writes (batchOn batch) s')
    (ha : request.IsAboutTable) :
    Stored.hasKeyspace s' keyspace = Stored.hasKeyspace s keyspace := by
  refine hd.hasKeyspace_eq (fun path cells hr => ?_) (fun path hc => ?_) hw keyspace
  all_goals cases request
  case refine_1.createTable t => exact Table.HasRow.ne_nil hr
  case refine_1.updateTable t => exact Table.HasRow.ne_nil hr
  case refine_2.updateTable t =>
    obtain ⟨old, -, hm⟩ := hc
    obtain ⟨c, -, rfl⟩ := List.mem_map.mp hm
    simp
  case refine_2.dropTable keyspace name => exact List.mem_singleton.mp hc ▸ List.cons_ne_nil _ _
  all_goals trivial

section

variable {r r' : Replica}

theorem table_shown (ht : t.Keyed) (hs : r'.Shows t.keyspace)
    (stored : Stored.hasKeyspace r'.storage t.keyspace)
    (bears : ∀ family ∈ [Catalog.tables, Catalog.columns],
      (r'.storage.partition ⟨Catalog.system, family, Utf8.encode t.keyspace⟩).HoldsUnder family
        [t.name] t.HasRow) : r'.schema.table t.keyspace t.name = some t := by
  have ⟨fresh, he⟩ := hs.exists_table_eq
  rw [he, if_pos stored]
  exact Stored.getElem?_tableMap_of_holds bears ht rfl

section

variable (hk : request.IsKeyed) (planned : n.run request.plan = (.ok p, n'))
  (hd : (request.footprint n).Describes p.batch)
  (hw : r.storage.Writes (batchOn p.batch) r'.storage)
  (hs : r'.Shows (request.footprint n).keyspace)

include hk planned hd hw hs

theorem shown_of_prevails (h : request.Prevails n r.storage) : request.Shown r'.schema := by
  have bears := hd.bears_iff_yields (isTidy hk planned) hw
  cases request
  case createKeyspace k timestamp =>
    have hc := consistent_of_plan hk planned
    have ⟨fresh, hr⟩ := hs.exists_reading
    have defines : r'.storage.Defines (Utf8.encode k.name) k.HasRow := fun family hf =>
      Partition.holdsUnder_nil.mp (bears.mpr h family hf)
    exact hr.trans (Stored.reading_of_defines defines hc)
  case updateKeyspace k =>
    have ⟨fresh, hr⟩ := hs.exists_reading
    have holds := bears.mpr h Catalog.keyspaces (List.mem_singleton_self _)
    exact ⟨_, hr.trans (Stored.reading_of_holds (Partition.holdsUnder_nil.mp holds))⟩
  case createTable t =>
    have stored : Stored.hasKeyspace r'.storage t.keyspace :=
      (hasKeyspace_eq hd hw trivial).trans h.left
    exact table_shown hk hs stored (bears.mpr h.right)
  case updateTable t =>
    have stored : Stored.hasKeyspace r'.storage t.keyspace :=
      (hasKeyspace_eq hd hw trivial).trans h.left
    exact table_shown hk hs stored (bears.mpr h.right)
  case dropKeyspace name =>
    refine hs.keyspace_eq_none_iff.mpr (Stored.holdsUnder_marker_iff.mp ?_)
    exact bears.mpr h Catalog.keyspaces (List.mem_singleton_self _)
  case dropTable keyspace name =>
    refine hs.table_eq_none_iff.mpr fun stored => Stored.holdsUnder_marker_iff.mp ?_
    have stored : Stored.hasKeyspace r.storage keyspace :=
      (hasKeyspace_eq hd hw trivial).symm.trans stored
    exact bears.mpr (h stored) Catalog.tables (List.mem_singleton_self _)

-- Of a drop that does not prevail, something still shows.
theorem prevails_of_shown (hdrop : request.IsDrop) (h : request.Shown r'.schema) :
    request.Prevails n r.storage := by
  have bears := hd.bears_iff_yields (isTidy hk planned) hw
  cases request
  case dropKeyspace name =>
    refine bears.mp fun family hf => ?_
    obtain rfl := List.mem_singleton.mp hf
    exact Stored.holdsUnder_marker_iff.mpr (hs.keyspace_eq_none_iff.mp h)
  case dropTable keyspace name =>
    intro stored
    have stored : Stored.hasKeyspace r'.storage keyspace :=
      (hasKeyspace_eq hd hw trivial).trans stored
    refine bears.mp fun family hf => ?_
    obtain rfl := List.mem_singleton.mp hf
    exact Stored.holdsUnder_marker_iff.mpr (hs.table_eq_none_iff.mp h stored)
  all_goals cases hdrop

end

end

-- The batch of the request has been merged.
theorem shown_of_merge {before after : Replica} (hk : request.IsKeyed)
    (hn : Definitions.Consistent n.schema.keyspaces) (planned : n.run request.plan = (.ok p, n'))
    (merged : before.merge p.batch = .ok after) :
    after.Shows (request.footprint n).keyspace ∧
      (request.Prevails n before.storage → request.Shown after.schema) ∧
      (request.IsDrop → request.Shown after.schema → request.Prevails n before.storage) := by
  have describes := describes_of_plan hn planned
  have took := Replica.took_of_merge_eq_ok merged
  have shows := took.shows _ (describes.mem_touchedKeyspaces (isTidy hk planned))
  exact ⟨shows, shown_of_prevails hk planned describes took.writes shows,
    prevails_of_shown hk planned describes took.writes shows⟩

-- A request that is not refused has been merged when the node answers, on top of what was queued
-- before it. The node then shows what its storage holds, and this is the change if nothing stored
-- outlasts it.
theorem run_applies {address : Address} {config : Config} {storage : Storage} {metrics : String}
    {clock : Clock} {startedAt : Int} {net : Network} {client : Option String}
    (h : Relation.ReflTransGen Acts (idle address config storage metrics clock startedAt) n)
    (hk : request.IsKeyed) (ok : n.run (request.run net client) = (.ok (), n')) :
    ∃ p n₀, n.run request.plan = (.ok p, n₀) ∧
      let before := (n₀.beforeMerge net p.batch).replica
      (n.migration.queue = [] → before = n.replica) ∧
        before.merge p.batch = .ok n'.replica ∧
        n'.replica.Shows (request.footprint n).keyspace ∧
        (request.Prevails n before.storage → request.Shown n'.schema) ∧
        (request.IsDrop → request.Shown n'.schema → request.Prevails n before.storage) := by
  have hn := (cautious_idle address config storage metrics clock startedAt).steps h
  rw [run_eq] at ok
  obtain ⟨p, n₀, planned, ok⟩ := run_bind_eq_ok_iff.mp ok
  obtain ⟨_, n₁, announced, audited⟩ := run_bind_eq_ok_iff.mp ok
  have hn₀ : n₀.Cautious :=
    (keeps_plan request (keeps_readClock cautious_ignoresNotes)).of_run hn planned
  have plans : Keeps (fun n₀ => n₀.replica = n.replica ∧ n₀.migration = n.migration) request.plan :=
    keeps_plan request fun _ h => h
  have same := plans.of_run ⟨rfl, rfl⟩ planned
  have kept : n'.replica = n₁.replica := by
    refine Keeps.of_run (I := (·.replica = n₁.replica)) (.forM fun _ _ => ?_) rfl audited
    exact keeps_audit ofReplica_replica.ignoresTalk tellsDefinitions_true
      (keeps_modifyGet fun _ h => h) net client _
  have merged := merge_of_announce hn₀.tickets announced
  rw [← kept] at merged
  refine ⟨p, n₀, planned, fun hq => ?_, merged, shown_of_merge hk hn.names planned merged⟩
  exact (replica_beforeMerge (same.right ▸ hq)).trans same.left

theorem run_checkNewKeyspace (hv : k.validate = .ok ()) (hn : n.schema.keyspace k.name = none) :
    n.run (checkNewKeyspace k) = (.ok (), n) := by
  refine run_bind_eq_ok_iff.mpr ⟨(), n, run_lift_eq_ok_iff.mpr ⟨hv, rfl⟩, ?_⟩
  rw [run_bind, run_get]
  simp [hn]

-- A new keyspace that is valid is announced.
theorem run_createKeyspace {net : Network} {client : Option String} (hv : k.validate = .ok ())
    (hn : n.schema.keyspace k.name = none) (timestamp : Int64) :
    n.run ((createKeyspace k timestamp).run net client) =
      n.run (announce net [k.creation timestamp]) := by
  change n.run (newKeyspaceAt net k timestamp) = _
  rw [newKeyspaceAt, run_bind, run_checkNewKeyspace hv hn]

theorem validate_app : (Keyspace.simple "app" 1).validate = .ok () :=
  Keyspace.validate_new.mpr ⟨checkName_eq_ok_iff.mpr (by decide), by decide⟩

-- A keyspace that is created and then dropped, later by the clock.
theorem run_applies_of_drop :
    let net := Network.new 1 Network.defaultCapacity
    let n₀ := idle (.v4 10 0 0 1) .standard ∅ "node" ⟨1000, 0, 0⟩ 0
    let n := (n₀.run ((createKeyspace (Keyspace.simple "app" 1) 100).run net none)).2
    let request := dropKeyspace "app"
    let n' := (n.run (request.run net none)).2
    Relation.ReflTransGen Acts n₀ n ∧ request.IsKeyed ∧
      n.run (request.run net none) = (.ok (), n') ∧
      (∃ p n₁, n.run request.plan = (.ok p, n₁) ∧
        let before := (n₁.beforeMerge net p.batch).replica
        (n.migration.queue = [] → before = n.replica) ∧
          before.merge p.batch = .ok n'.replica ∧
          n'.replica.Shows (request.footprint n).keyspace ∧
          (request.Prevails n before.storage → request.Shown n'.schema) ∧
          (request.IsDrop → request.Shown n'.schema → request.Prevails n before.storage)) ∧
      request.Prevails n n.storage ∧ request.Shown n'.schema := by
  intro net n₀ n request n'
  have acts (n : Node) (request : Request) : Acts n (n.run (request.run net none)).2 :=
    @Acts.does n net (.changes request none) trivial
  have h : Relation.ReflTransGen Acts n₀ n := .single (acts _ _)
  have created : n = (n₀.run (announce net [(Keyspace.simple "app" 1).creation 100])).2 :=
    congrArg Prod.snd (run_createKeyspace validate_app (by decide +kernel) 100)
  have ok : (n.run (request.run net none)).1.toOption = some () := by
    rw [created]
    decide +kernel
  have older : (n.storage.partition
      ⟨Catalog.system, Catalog.keyspaces, Utf8.encode "app"⟩).cells.toList.all
        (fun e => e.2.timestamp ≤ n.clock.next) = true := by
    rw [created]
    decide +kernel
  have idle : n.migration.queue.isEmpty = true := by
    rw [created]
    decide +kernel
  clear created
  clear_value n
  have prevails : request.Prevails n n.storage := by
    intro family hf
    obtain rfl := List.mem_singleton.mp hf
    refine ⟨?_, fun name c hc _ => .inr ⟨[], ?_⟩⟩
    · rintro _ _ ⟨_, _, _, ⟨⟩, _⟩
    have hm := Std.ExtTreeMap.mem_toList_iff_getElem?_eq_some.mpr hc
    have hle : c.timestamp ≤ n.clock.next :=
      of_decide_eq_true (List.all_eq_true.mp older (name, c) hm)
    exact ⟨List.mem_singleton_self _, Nat.zero_le _, List.nil_prefix, hle⟩
  have hk : request.IsKeyed := trivial
  have ok := run_eq_ok_of_toOption ok
  have applies := run_applies h hk ok
  refine ⟨h, hk, ok, applies, prevails, ?_⟩
  obtain ⟨_, _, -, before, -, -, shown, -⟩ := applies
  rw [before (List.isEmpty_iff.mp idle)] at shown
  exact shown prevails

-- The keyspace is created once more, at an instant before the drop. That is not refused, and
-- nothing shows of it.
theorem not_shown_of_tombstone :
    let net := Network.new 1 Network.defaultCapacity
    let app := Keyspace.simple "app" 1
    let act (n : Node) (request : Request) := (n.run (request.run net none)).2
    let n₀ := idle (.v4 10 0 0 1) .standard ∅ "node" ⟨1000, 0, 0⟩ 0
    let n₂ := act (act n₀ (createKeyspace app 100)) (dropKeyspace "app")
    let request := createKeyspace app 50
    let n₃ := act n₂ request
    Relation.ReflTransGen Acts n₀ n₂ ∧ app.validate = .ok () ∧ request.IsKeyed ∧
      n₂.run (request.run net none) = (.ok (), n₃) ∧ ¬request.Shown n₃.schema := by
  intro net app act n₀ n₂ request n₃
  have acts (n : Node) (request : Request) : Acts n (act n request) :=
    @Acts.does n net (.changes request none) trivial
  have announced (n : Node) (hn : n.schema.keyspace "app" = none) (timestamp : Int64) :
      n.run ((createKeyspace app timestamp).run net none) =
        n.run (announce net [app.creation timestamp]) :=
    run_createKeyspace validate_app hn timestamp
  have created : act n₀ (createKeyspace app 100) = (n₀.run (announce net [app.creation 100])).2 :=
    congrArg Prod.snd (announced n₀ (by decide +kernel) 100)
  have dropped : n₂.schema.keyspace "app" = none := by
    change (act (act n₀ _) _).schema.keyspace "app" = none
    rw [created]
    decide +kernel
  have again : n₂.run (request.run net none) = n₂.run (announce net [app.creation 50]) :=
    announced n₂ dropped 50
  have ok : (n₂.run (announce net [app.creation 50])).1.toOption = some () := by
    change ((act (act n₀ _) _).run _).1.toOption = _
    rw [created]
    decide +kernel
  have absent : (n₂.run (announce net [app.creation 50])).2.schema.keyspace "app" = none := by
    change ((act (act n₀ _) _).run _).2.schema.keyspace "app" = _
    rw [created]
    decide +kernel
  rw [← again] at ok absent
  refine ⟨.tail (.single (acts _ _)) (acts _ _), validate_app, Keyspace.keyed_new,
    run_eq_ok_of_toOption ok, fun shown => ?_⟩
  cases absent.symm.trans shown

end Request

end ClusterMetadata
