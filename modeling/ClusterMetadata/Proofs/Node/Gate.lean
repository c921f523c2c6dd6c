import ClusterMetadata.Proofs.Audit.Entries
import ClusterMetadata.Proofs.Node.Views

/-!
The gate that audit entries pass. However entries of the registry are added, dropped, asked for and
forgotten here and merged from elsewhere, an entry passes if and only if its kind is enabled in the
storage (`steps_gate_storage`).
-/

namespace ClusterMetadata.Node

variable {n n' : Node} {batch : List Mutation} {net : Network} {target client value tag : String}
  {kind : AuditKind}

-- What is done to the registry of a node. Only an addition has to come after what is stored for its
-- target: what a removal does not hide is read anew.
inductive AuditStep : Node → Node → Prop
  | waits (n : Node) (clock : Clock) : AuditStep n { n with clock }
  | breaks (n : Node) (failing : Bool) :
      AuditStep n { n with storage := { n.storage with failing } }
  | adds (n : Node) (target : String) (kind : AuditKind) (tag : String)
      (later : (n.storage.partition (Registry.partition target)).IsBefore n.clock.next) :
      AuditStep n (n.run (addToRegistry target kind tag)).2
  | drops (n : Node) (target : String) : AuditStep n (n.run (dropFromRegistry target)).2
  | asks (n : Node) (target : String) (kind : AuditKind) :
      AuditStep n (n.run (queryRegistry target kind)).2
  | hydrates (n : Node) (targets : List String) : AuditStep n (n.run (hydrate targets)).2
  | forgets (n : Node) (target : String) :
      AuditStep n { n with registry := n.registry.invalidate target }
  | merges {n n' : Node} {batch : List Mutation} {report : MergeReport}
      (regular : Registry.IsRegular batch) (merged : n.run (merge batch) = (.ok report, n')) :
      AuditStep n n'

-- The registry answers what is stored, and nothing but entries is stored for it.
structure Audited (n : Node) : Prop where
  tidy   : Registry.IsTidy n.storage
  agrees : n.registry.Agrees n.storage

theorem audited_ofViews : OfViews Audited := by
  intro n n' hs _ hr h
  exact ⟨hs ▸ h.tidy, hs ▸ hr ▸ h.agrees⟩

theorem audited_of_empty (hr : n.registry = ∅)
    (hs : ∀ target, (n.storage.partition (Registry.partition target)).cells = ∅) : n.Audited where
  tidy target name c hc := by
    rw [hs, Std.ExtTreeMap.getElem?_empty] at hc
    cases hc
  agrees := hr ▸ Registry.agrees_empty

theorem Audited.add (ha : n.Audited)
    (hb : (n.storage.partition (Registry.partition target)).IsBefore n.clock.next) :
    (n.run (addToRegistry target kind tag)).2.Audited := by
  have hread : n.run readClock = (.ok n.clock.next, { n with clock := n.clock.read.2 }) := rfl
  rw [addToRegistry, run_bind, hread]
  cases h : n.registry.add n.storage target kind tag n.clock.next
  case error e =>
    have hn : Audited { n with clock := n.clock.read.2 } := audited_ofViews n _ rfl rfl rfl ha
    simpa [run_bind, h, lift] using hn
  case ok added =>
    obtain ⟨m, registry, storage⟩ := added
    obtain ⟨hs, rfl⟩ := Registry.add_eq_ok h
    have hn : Audited { n with
        clock := n.clock.read.2, registry := n.registry.learn target kind.code tag, storage } :=
      ⟨ha.tidy.apply (.addition ..) hs, ha.agrees.add ha.tidy hs hb⟩
    simpa [run_bind, run_map, h, lift] using hn

theorem Audited.drop (ha : n.Audited) : (n.run (dropFromRegistry target)).2.Audited := by
  let clock := n.clock.read.2
  let d : DeletionTime := ⟨n.clock.next, clock.seconds⟩
  have hread : n.run (readClock >>= deletionAt) = (.ok d, { n with clock }) := rfl
  rw [dropFromRegistry, ← bind_assoc, run_bind, hread]
  cases h : n.registry.drop n.storage target d
  case error e =>
    have hn : Audited { n with clock } := audited_ofViews n _ rfl rfl rfl ha
    simpa [run_bind, h, lift] using hn
  case ok dropped =>
    obtain ⟨m, registry, storage⟩ := dropped
    obtain ⟨hs, rfl⟩ := Registry.drop_eq_ok h
    have hn : Audited { n with clock, registry := n.registry.invalidate target, storage } :=
      ⟨ha.tidy.apply (.removal ..) hs, ha.agrees.drop hs⟩
    simpa [run_bind, run_map, h, lift] using hn

theorem Audited.step (ha : n.Audited) (h : AuditStep n n') : n'.Audited := by
  cases h
  case waits clock => exact audited_ofViews n _ rfl rfl rfl ha
  case breaks failing =>
    exact ⟨fun target => ha.tidy target, ha.agrees.congr fun _ => rfl⟩
  case adds target kind tag later => exact ha.add later
  case drops target               => exact ha.drop
  case asks target kind           => exact ⟨ha.tidy, ha.agrees.query⟩
  case hydrates targets           => exact ⟨ha.tidy, ha.agrees.hydrate ha.tidy⟩
  case forgets target             => exact ⟨ha.tidy, ha.agrees.invalidate⟩
  case merges batch report regular merged =>
    have ⟨hm, hr⟩ := run_merge_eq_ok merged
    have hrm : Replica.merge ⟨n.storage, n.schema⟩ batch = .ok ⟨n'.storage, n'.schema⟩ := by
      simp only [Replica.merge, hm]
    have hw := Replica.writes_merge hrm
    refine ⟨ha.tidy.merge regular hw, ?_⟩
    rw [hr, registryTargets_eq hm]
    exact ha.agrees.merge hw

theorem Audited.steps (ha : n.Audited) (h : Relation.ReflTransGen AuditStep n n') :
    n'.Audited := by
  induction h
  case refl        => exact ha
  case tail _ h hi => exact hi.step h

-- An entry that passes is pushed, whatever becomes of that.
theorem announceEntry_eq_false_iff :
    (n.run (announceEntry net target kind client value)).1 = .ok false ↔
      (n.registry.query n.storage target kind).1 = none := by
  let n₁ := { n with registry := (n.registry.query n.storage target kind).2 }
  have hq : n.run (queryRegistry target kind) =
      (.ok (n.registry.query n.storage target kind).1, n₁) := rfl
  rw [announceEntry, run_bind, hq]
  cases (n.registry.query n.storage target kind).1
  case none => exact iff_of_true rfl rfl
  case some tag =>
    refine iff_of_false (fun h => ?_) (by simp)
    simp only [Option.isNone_some, Bool.false_eq_true, if_false] at h
    have ⟨_, _, _, h⟩ := run_bind_eq_ok_iff.mp (Prod.ext h rfl)
    have ⟨_, _, _, h⟩ := run_bind_eq_ok_iff.mp h
    have ⟨_, _, _, h⟩ := run_bind_eq_ok_iff.mp h
    cases h

-- However the registry came to be as it is, it answers as one that has seen nothing, and an entry
-- passes if and only if its kind has an admin tag in the storage.
theorem steps_gate_storage (hr : n.registry = ∅)
    (hs : ∀ target, (n.storage.partition (Registry.partition target)).cells = ∅)
    (h : Relation.ReflTransGen AuditStep n n') :
    (∀ target kind, (n'.registry.query n'.storage target kind).1 =
      ((∅ : Registry).query n'.storage target kind).1) ∧
    ∀ net target kind client value,
      (n'.run (announceEntry net target kind client value)).1 ≠ .ok false ↔
        ∃ c, (n'.storage.partition (Registry.partition target)).cells[
          [kind.code, Registry.adminTag]]? = some c := by
  have ha := (audited_of_empty hr hs).steps h
  refine ⟨Registry.agrees_iff_query_eq.mp ha.agrees, fun net target kind client value => ?_⟩
  rw [ne_eq, announceEntry_eq_false_iff, ha.agrees.query_fst, Registry.stored_eq ha.tidy,
    Option.map_eq_none_iff, Registry.tagCell?]
  exact Option.ne_none_iff_exists'

-- An entry that is added, removed from elsewhere and added again.
theorem steps_gate_storage_of_removal :
    let n := idle (.v4 10 0 0 1) .standard ∅ "node" ⟨1000, 0, 0⟩ 0
    let n₁ := (n.run (addToRegistry "app.users" .tableAltered "on")).2
    let n₂ := (n₁.run (merge [Registry.removal "app.users" ⟨2000, 0⟩])).2
    let n₃ : Node := { n₂ with clock := ⟨3000, 1000, 0⟩ }
    let n₄ := (n₃.run (addToRegistry "app.users" .tableAltered "again")).2
    Relation.ReflTransGen AuditStep n n₄ ∧
      (∀ target kind, (n₄.registry.query n₄.storage target kind).1 =
        ((∅ : Registry).query n₄.storage target kind).1) ∧
      ∀ net target kind client value,
        (n₄.run (announceEntry net target kind client value)).1 ≠ .ok false ↔
          ∃ c, (n₄.storage.partition (Registry.partition target)).cells[
            [kind.code, Registry.adminTag]]? = some c := by
  intro n n₁ n₂ n₃ n₄
  have h₁ : AuditStep n n₁ := .adds n _ _ _ (by decide +kernel)
  have h₂ : AuditStep n₁ n₂ := by
    have hm : (n₁.run (merge [Registry.removal "app.users" ⟨2000, 0⟩])).1.isOk = true := by
      decide +kernel
    have ⟨report, hm⟩ := isOk_iff.mp hm
    refine .merges (fun m hm _ _ => ?_) (Prod.ext hm rfl)
    cases List.mem_singleton.mp hm
    exact .removal ..
  have h₄ : AuditStep n₃ n₄ := .adds n₃ _ _ _ (by decide +kernel)
  have h : Relation.ReflTransGen AuditStep n n₃ := .tail (.tail (.single h₁) h₂) (.waits n₂ _)
  have h : Relation.ReflTransGen AuditStep n n₄ := h.tail h₄
  exact ⟨h, steps_gate_storage rfl (fun _ => congrArg _ (Storage.partition_empty _)) h⟩

end ClusterMetadata.Node
