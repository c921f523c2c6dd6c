import ClusterMetadata.Node.Start
import ClusterMetadata.Proofs.Audit.Registry
import ClusterMetadata.Proofs.Node.Frame
import ClusterMetadata.Proofs.Schema.Coherence
import Mathlib.Logic.Relation

/-!
The views of a node and the two ways in which messages write its storage. Definitions are merged,
and the views follow; a mutation is applied as it is, and the views follow only if it leaves alone
what they show.
-/

namespace ClusterMetadata

-- The mutation changes no live cell of the schema tables and the registry.
def Storage.IsSpared (s : Storage) (m : Mutation) : Prop :=
  ∀ s', s.apply m = .ok s' → ∀ family ∈ Catalog.registry :: Catalog.schema, ∀ key,
    s.Agree s' ⟨Catalog.system, family, key⟩

-- Such are the mutations of other tables, and of other keyspaces.
theorem Storage.isSpared_of_elsewhere {s : Storage} {m : Mutation}
    (h : m.keyspace = Catalog.system → ∀ family ∈ Catalog.registry :: Catalog.schema,
      family ∉ m.tables) : s.IsSpared m := by
  intro s' hs family hf key
  have hw := writes_apply hs
  have hm : m.on ⟨Catalog.system, family, key⟩ = [] := by
    refine List.eq_nil_iff_forall_not_mem.mpr fun mod hm => ?_
    have ⟨hk, _, mods, hmods, _⟩ := Mutation.mem_on.mp hm
    exact h hk family hf (SortedMap.mem_keys_iff.mpr ⟨mods, hmods⟩)
  rw [Agree, hw.partition, hm]
  rfl

namespace Node

variable {n n' : Node} {batch : List Mutation} {message : Inbound} {net : Network} {id : String}
  {arrived : Nat} {name : StageName}

-- The schema in memory is what reading the cells gives, and the registry answers what is stored.
structure Coherent (n : Node) : Prop where
  schema   : Replica.InSync ⟨n.storage, n.schema⟩
  registry : n.registry.Agrees n.storage

theorem coherent_ofViews : OfViews Coherent := by
  intro n n' hs hk hr h
  exact ⟨hs ▸ hk ▸ h.schema, hs ▸ hr ▸ h.registry⟩

theorem keeps_queryRegistry (target : String) (kind : AuditKind) :
    Keeps Coherent (queryRegistry target kind) :=
  keeps_modifyGet fun _ h => ⟨h.schema, h.registry.query⟩

-- What a merge that succeeds does to the views.
theorem run_commit_eq_ok {report : MergeReport} (h : n.run (commit batch) = (.ok report, n')) :
    n.schema.merge n.storage batch = (n'.storage, n'.schema, .ok report) ∧
      n'.registry = n.registry := by
  have ⟨_, _, hg, h⟩ := run_bind_eq_ok_iff.mp h
  cases hg
  cases hm : n.schema.merge n.storage batch
  case mk storage rest =>
    obtain ⟨schema, result⟩ := rest
    simp only [hm] at h
    have ⟨_, _, hs, h⟩ := run_bind_eq_ok_iff.mp h
    cases hs
    have ⟨_, _, hl, h⟩ := run_bind_eq_ok_iff.mp h
    cases result
    case error e => cases hl
    case ok report' =>
      cases hl
      have ⟨_, n₁, hn, h⟩ := run_bind_eq_ok_iff.mp h
      cases h
      have ⟨hs, hk, hr⟩ :=
        sameViews_of_keeps (fun _ hI => keeps_notify hI.ignoresTalk.watches report.events) hn
      rw [hs, hk, hr]
      exact ⟨rfl, rfl⟩

theorem run_merge_eq_ok {report : MergeReport} (h : n.run (merge batch) = (.ok report, n')) :
    n.schema.merge n.storage batch = (n'.storage, n'.schema, .ok report) ∧
      n'.registry = report.registryTargets.foldl (·.invalidate) n.registry := by
  have ⟨report', n₁, hm, h⟩ := run_bind_eq_ok_iff.mp h
  have ⟨_, n₂, hp, h⟩ := run_bind_eq_ok_iff.mp h
  cases h
  have ⟨hm, hr⟩ := run_commit_eq_ok hm
  cases hp
  exact ⟨hm, hr ▸ rfl⟩

theorem registryTargets_eq {s s' : Schema} {storage storage' : Storage} {report : MergeReport}
    (h : s.merge storage batch = (storage', s', .ok report)) :
    report.registryTargets = Schema.touchedTargets batch := by
  simp only [Schema.merge] at h
  split at h
  case h_1 => cases h
  case h_2 storage₁ _ =>
    cases hr : s.refreshTouched storage₁ (Schema.touchedKeyspaces batch)
    case mk s₁ events =>
      rw [hr] at h
      cases events
      case error e => cases h
      case ok _    => cases h; rfl

theorem Coherent.merge {report : MergeReport} (hc : n.Coherent)
    (h : n.run (merge batch) = (.ok report, n')) : n'.Coherent := by
  have ⟨hm, hr⟩ := run_merge_eq_ok h
  have hrm : Replica.merge ⟨n.storage, n.schema⟩ batch = .ok ⟨n'.storage, n'.schema⟩ := by
    simp only [Replica.merge, hm]
  refine ⟨hc.schema.merge hrm, ?_⟩
  have ht : report.registryTargets = Schema.touchedTargets batch := registryTargets_eq hm
  rw [hr, ht]
  exact hc.registry.merge (Replica.writes_merge hrm)

theorem coherent_of_loadSchema (hr : n.registry = ∅) (h : n.run loadSchema = (.ok (), n')) :
    n'.Coherent := by
  simp only [loadSchema, run_bind_eq_ok_iff, run_get, run_set, run_lift_eq_ok_iff, Prod.mk.injEq,
    Except.ok.injEq] at h
  obtain ⟨_, _, ⟨rfl, rfl⟩, schema, _, ⟨hl, rfl⟩, _, rfl⟩ := h
  exact ⟨Schema.load_eq_ok hl, hr ▸ Registry.agrees_empty⟩

-- A node that has started without registry entries to know is coherent.
theorem coherent_of_start {parts : List NodePart} (hr : n.registry = ∅)
    (ht : n.config.audit.hydrateTargets = []) (h : n.run (start parts) = (.ok (), n')) :
    n'.Coherent := by
  simp only [start, run_bind_eq_ok_iff, run_get, run_lift_eq_ok_iff, Prod.mk.injEq,
    Except.ok.injEq] at h
  obtain ⟨_, _, ⟨rfl, rfl⟩, _, _, ⟨_, rfl⟩, _, _, ⟨_, rfl⟩, _, n₁, hl, _, n₂, hh, _, _, ⟨rfl, rfl⟩,
    ha⟩ := h
  have hc₁ := coherent_of_loadSchema hr hl
  have hc₂ : n₂.Coherent := by
    rw [ht] at hh
    cases hh
    exact hc₁
  exact (keeps_advertise coherent_ofViews.ignoresTalk trivial).of_run hc₂ ha

-- Definitions that are merged leave the views coherent, whatever they are.
theorem Coherent.handleDefinitions (hc : n.Coherent)
    (h : n.run (handleDefinitions message) = (.ok (), n')) : n'.Coherent := by
  have ⟨batch, _, hb, h⟩ := run_bind_eq_ok_iff.mp h
  have ⟨_, hn⟩ := run_lift_eq_ok_iff.mp hb
  have ⟨report, hm, _⟩ := run_map_eq_ok_iff.mp h
  exact (hn ▸ hc).merge hm

-- A mutation that is applied leaves the views as they are.
theorem Coherent.handleMutation (hc : n.Coherent)
    (hs : ∀ m, Wire.run (Wire.readMutation message.version) message.payload = .ok m →
      n.storage.IsSpared m)
    (h : n.run (handleMutation net message id) = (.ok (), n')) : n'.Coherent := by
  simp only [Node.handleMutation, run_bind_eq_ok_iff, run_lift_eq_ok_iff, run_get, run_set,
    Prod.mk.injEq, Except.ok.injEq] at h
  obtain ⟨m, _, ⟨hm, rfl⟩, _, _, hr, _, _, ⟨rfl, rfl⟩, storage, n₁, ⟨ha, rfl⟩, _, _, ⟨_, rfl⟩, _,
    n₂, hsend, h⟩ := h
  have hc₁ := (keeps_replyAddress coherent_ofViews.ignoresTalk sendsAll_true message).of_run hc hr
  have ⟨hst, _, _⟩ :=
    sameViews_of_keeps (fun _ hI => keeps_replyAddress hI.ignoresTalk sendsAll_true message) hr
  have hv := hs m hm storage (hst ▸ ha)
  rw [← hst] at hv
  have happlied : Coherent { n₁ with storage } :=
    ⟨hc₁.schema.congr fun family hf => hv family (List.mem_cons_of_mem _ hf),
      hc₁.registry.congr fun target => hv _ List.mem_cons_self _⟩
  have hc₂ := (keeps_send coherent_ofViews.ignoresTalk trivial).of_run happlied hsend
  refine Keeps.of_run ?_ hc₂ h
  split
  case isTrue =>
    exact keeps_announceRows coherent_ofViews.ignoresTalk tellsDefinitions_true
      keeps_queryRegistry net m
  case isFalse => exact keeps_pure _

-- Work that completes has been done, and nothing else.
theorem run_handle_of_completed
    (h : n.run (runInbound net message id arrived) = (.ok .completed, n')) :
    n.run (handle net message id) = (.ok (), n') := by
  rw [run_runInbound] at h
  split at h
  case isTrue  => cases h
  case isFalse =>
    cases hr : n.run (handle net message id)
    case mk result n₁ =>
      rw [hr] at h
      cases result
      case error e => cases h
      case ok _    => cases h; rfl

theorem run_runNext_of_taken {n₁ n₂ : Node} {outcome : WorkOutcome}
    (ht : n.run (takeJob name) = (.ok (some (.inbound message id arrived)), n₁))
    (hr : n₁.run (runInbound net message id arrived) = (.ok outcome, n₂)) :
    n.run (runNext net name) = n₂.run (finishJob name) := by
  rw [runNext, run_bind, ht]
  have hd : n₁.run (discard (runInbound net message id arrived)) = (.ok (), n₂) :=
    run_map_eq_ok_iff.mpr ⟨outcome, hr, rfl⟩
  change n₁.run (discard (runInbound net message id arrived) >>= fun _ => finishJob name) = _
  rw [run_bind, hd]

-- What a node does with definitions and mutations: a message waits on its stage until a worker
-- takes it and handles it to the end. The mutations satisfy `P` in the storage they meet. The
-- registry may be asked in between, and learns.
inductive Step (P : Storage → Mutation → Prop) : Node → Node → Prop
  | waits (n : Node) (clock : Clock) : Step P n { n with clock, outbox := [], notes := [] }
  | asks (n : Node) (target : String) (kind : AuditKind) :
      Step P n (n.run (queryRegistry target kind)).2
  | receives (n : Node) (message : Inbound) (id : String) : Step P n (n.run (receive message id)).2
  | handles {n n₁ n₂ : Node} {net : Network} {name : StageName} {message : Inbound} {id : String}
      {arrived : Nat} (taken : n.run (takeJob name) = (.ok (some (.inbound message id arrived)), n₁))
      (completed : n₁.run (runInbound net message id arrived) = (.ok .completed, n₂))
      (verb : message.verb = .definitionsUpdate ∨ message.verb = .mutation ∧
        ∀ m, Wire.run (Wire.readMutation message.version) message.payload = .ok m →
          P n.storage m) :
      Step P n (n.run (runNext net name)).2

-- The message that a worker is about to handle.
def taken? (n : Node) (name : StageName) : Option (Inbound × String × Nat) :=
  match (n.run (takeJob name)).1 with
  | .ok (some (.inbound message id arrived)) => some (message, id, arrived)
  | _                                        => none

theorem Step.of_completed {P : Storage → Mutation → Prop} (net : Network)
    (ht : n.taken? name = some (message, id, arrived))
    (hr : ((n.run (takeJob name)).2.run
      (runInbound net message id arrived)).1.toOption = some .completed)
    (hv : message.verb = .definitionsUpdate ∨ message.verb = .mutation ∧
      ∀ m, Wire.run (Wire.readMutation message.version) message.payload = .ok m →
        P n.storage m) : Step P n (n.run (runNext net name)).2 := by
  rw [taken?] at ht
  split at ht
  case h_2 => cases ht
  case h_1 h =>
    cases ht
    exact .handles (Prod.ext h rfl) (run_eq_ok_of_toOption hr) hv

theorem Coherent.step (hc : n.Coherent) (h : Step Storage.IsSpared n n') : n'.Coherent := by
  cases h
  case waits clock         => exact coherent_ofViews n _ rfl rfl rfl hc
  case asks target kind    => exact keeps_queryRegistry target kind n hc
  case receives message id => exact keeps_receive coherent_ofViews message id n hc
  case handles n₁ n₂ net name message id arrived taken completed verb =>
    have hc₁ := (keeps_takeJob coherent_ofViews name).of_run hc taken
    have hh := run_handle_of_completed completed
    have hc₂ : n₂.Coherent := by
      rw [handle] at hh
      rcases verb with hv | ⟨hv, hs⟩
      case inl => exact hc₁.handleDefinitions (by simpa only [hv] using hh)
      case inr =>
        have ⟨hst, _⟩ := sameViews_of_keeps (fun _ hI => keeps_takeJob hI name) taken
        exact hc₁.handleMutation (hst ▸ hs) (by simpa only [hv] using hh)
    rw [run_runNext_of_taken taken completed]
    exact keeps_finishJob coherent_ofViews name n₂ hc₂

theorem Coherent.steps (hc : n.Coherent) (h : Relation.ReflTransGen (Step Storage.IsSpared) n n') :
    n'.Coherent := by
  induction h
  case refl        => exact hc
  case tail _ h hi => exact hi.step h

-- As long as mutations leave alone what the views show, the views of a node are at any time those
-- that are read anew from its storage.
theorem steps_show_storage (hc : n.Coherent)
    (h : Relation.ReflTransGen (Step Storage.IsSpared) n n') :
    (∃ loaded, Schema.load n'.storage = .ok loaded ∧
      Stored.Alike n'.storage n'.schema.keyspaces loaded.keyspaces ∧
      n'.schema.version = loaded.version) ∧
    ∀ target kind, (n'.registry.query n'.storage target kind).1 =
      ((∅ : Registry).query n'.storage target kind).1 := by
  have hc' := hc.steps h
  exact ⟨hc'.schema.exists_load_eq_ok, Registry.agrees_iff_query_eq.mp hc'.registry⟩

-- Definitions of a keyspace, then a row of one of its tables.
theorem steps_show_storage_of_row :
    let inbound (verb : Verb) (payload : Except WireError Bytes) : Inbound :=
      { Message.plain verb (payload.toOption.getD []) with
        sender := .v4 10 0 0 2, version := Protocol.current }
    let definitions := inbound .definitionsUpdate
      (Wire.writeBatch Protocol.current [(Keyspace.simple "app" 1).creation 4])
    let row := Mutation.ofFamilies "app" [1] [("users", Row.write [] 5 [(Row.marker, [])])]
    let write := inbound .mutation (Wire.writeMutation Protocol.current row)
    let net := Network.new 1 Network.defaultCapacity
    let n := ((idle (.v4 10 0 0 1) .standard ∅ "node" ⟨1000, 0, 0⟩ 0).run (start NodePart.all)).2
    let n₁ := ((n.run (receive definitions "1")).2.run (runNext net .migration)).2
    let n₂ := ((n₁.run (receive write "2")).2.run (runNext net .mutation)).2
    Relation.ReflTransGen (Step Storage.IsSpared) n n₂ ∧
      (∃ loaded, Schema.load n₂.storage = .ok loaded ∧
        Stored.Alike n₂.storage n₂.schema.keyspaces loaded.keyspaces ∧
        n₂.schema.version = loaded.version) ∧
      ∀ target kind, (n₂.registry.query n₂.storage target kind).1 =
        ((∅ : Registry).query n₂.storage target kind).1 := by
  intro inbound definitions row write net n n₁ n₂
  have hc : n.Coherent := coherent_of_start rfl rfl (run_eq_ok_of_toOption rfl)
  have hm : Wire.run (Wire.readMutation write.version) write.payload = .ok row := by
    decide +kernel
  have hrow (s : Storage) (m : Mutation)
      (h : Wire.run (Wire.readMutation write.version) write.payload = .ok m) : s.IsSpared m := by
    cases h.symm.trans hm
    exact Storage.isSpared_of_elsewhere fun hk => absurd hk (by decide +kernel)
  have hs : Relation.ReflTransGen (Step Storage.IsSpared) n n₂ := by
    have ht₁ : (n.run (receive definitions "1")).2.taken? .migration = some (definitions, "1", 0) := by
      decide +kernel
    have h₁ : Step Storage.IsSpared (n.run (receive definitions "1")).2 n₁ :=
      .of_completed net ht₁ (by decide +kernel) (.inl rfl)
    have ht₂ : (n₁.run (receive write "2")).2.taken? .mutation = some (write, "2", 0) := by
      decide +kernel
    have h₂ : Step Storage.IsSpared (n₁.run (receive write "2")).2 n₂ :=
      .of_completed net ht₂ (by decide +kernel) (.inr ⟨rfl, hrow _⟩)
    have hr := Relation.ReflTransGen.single (Step.receives n definitions "1") |>.tail h₁
    exact (hr.tail (.receives n₁ write "2")).tail h₂
  exact ⟨hs, steps_show_storage hc hs⟩

-- The creation of a keyspace that comes as a mutation is stored and not shown.
theorem not_shown_of_mutation :
    let payload := Wire.writeMutation Protocol.current ((Keyspace.simple "app" 1).creation 4)
    let message : Inbound := { Message.plain .mutation (payload.toOption.getD []) with
      sender := .v4 10 0 0 2, version := Protocol.current }
    let net := Network.new 1 Network.defaultCapacity
    let n := ((idle (.v4 10 0 0 1) .standard ∅ "node" ⟨1000, 0, 0⟩ 0).run (start NodePart.all)).2
    let n' := ((n.run (receive message "1")).2.run (runNext net .mutation)).2
    n.Coherent ∧ Relation.ReflTransGen (Step fun _ _ => True) n n' ∧
      ¬∃ loaded, Schema.load n'.storage = .ok loaded ∧
        Stored.Alike n'.storage n'.schema.keyspaces loaded.keyspaces := by
  intro payload message net n n'
  have hc : n.Coherent := coherent_of_start rfl rfl (run_eq_ok_of_toOption rfl)
  have ht : (n.run (receive message "1")).2.taken? .mutation = some (message, "1", 0) := by
    decide +kernel
  have hs : Step (fun _ _ => True) (n.run (receive message "1")).2 n' :=
    .of_completed net ht (by decide +kernel) (.inr ⟨rfl, fun _ _ => trivial⟩)
  refine ⟨hc, .tail (.single (.receives n message "1")) hs, fun ⟨loaded, hl, ha⟩ => ?_⟩
  have hn : n'.schema.keyspaces["app"]? = none := by decide +kernel
  have hk : ((Schema.load n'.storage).toOption.bind (·.keyspaces["app"]?)).isSome = true := by
    decide +kernel
  have hr := ha "app"
  rw [hn] at hr
  rw [hl] at hk
  cases hs : loaded.keyspaces["app"]?
  case none   => simp [Except.toOption, hs] at hk
  case some k => rw [hs] at hr; cases hr

end Node
end ClusterMetadata
