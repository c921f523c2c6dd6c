import ClusterMetadata.Proofs.Node.Registration
import ClusterMetadata.Proofs.Node.Request
import ClusterMetadata.Proofs.Schema.Sizes
import ClusterMetadata.Proofs.Wire.Versions

/-!
Which changes can be told to the others. A mutation cannot be written exactly if one of its lengths
does not fit in two bytes or the version does not carry it (`writeMutation_eq_error_iff`). Where the
definitions that are shown have been accepted, no change of definitions is like that: the others are
told of each one that is not refused (`changes_written`).
-/

namespace ClusterMetadata

namespace Wire

variable {name : CellName} {m : Mutation} {version : Int}

-- A component is no longer than the name.
theorem exists_long_component_or_iff :
    (∃ component ∈ name, 65535 < (Utf8.encode component).length) ∨ 65535 < nameLength name ↔
      65535 < nameLength name :=
  or_iff_right_of_imp fun ⟨_, hm, hl⟩ => hl.trans_le (length_le_of_mem hm)

theorem writeMutation_eq_error_iff : (∃ e, writeMutation version m = .error e) ↔
    65535 < (Utf8.encode m.keyspace).length ∨ 65535 < m.key.length ∨
    (∃ f ∈ m.families.toList, 65535 < (Utf8.encode f.1).length) ∨
    (∃ f ∈ m.families.toList, ∃ mod ∈ f.2, 65535 < nameLength mod.path) ∨
    version < Protocol.rangeTombstones ∧ m.HoldsRange := by
  have refused : (∃ e, writeMutation version m = .error e) ↔
      ¬(writeMutation version m).isOk = true := by
    cases writeMutation version m <;> simp [Except.isOk, Except.toBool]
  rw [refused, isOk_writeMutation, not_and_or, Mutation.carriedBy_iff, not_not, Mutation.fits_iff]
  simp only [shortLimit, not_and_or, not_forall, not_lt, Nat.succ_le_iff, exists_prop, or_assoc]

end Wire

-- The definitions that are shown have been accepted, and their maps are keyed by names.
def Schema.IsAccepted (s : Schema) : Prop :=
  ∀ name k, s.keyspace name = some k → k.validate = .ok () ∧ k.Keyed

theorem Schema.IsAccepted.table {s : Schema} {keyspace name : String} {t : Table}
    (hs : s.IsAccepted) (h : s.table keyspace name = some t) : t.validate = .ok () ∧ t.Keyed := by
  have ⟨k, hk, ht⟩ := Option.bind_eq_some_iff.mp h
  have ⟨hv, keyed⟩ := hs keyspace k hk
  exact ⟨((Keyspace.validate_eq_ok_iff.mp hv).right.right name t ht).right, (keyed name t ht).right⟩

namespace Node

variable {n : Node} {t old : Table} {d : DeletionTime} {drops batch : List Mutation} {net : Network}

theorem Plans.fits_drops (h : n.Plans t old d drops) (ho : old.validate = .ok ()) (hk : old.Keyed) :
    ∀ m ∈ drops, m.Fits := by
  intro m hm
  obtain ⟨column, hc, value, -, rfl⟩ := h.steps m hm
  obtain ⟨c, hc⟩ := (Table.mem_droppedColumns.mp hc).left
  have ⟨hkeyspace, htable, _⟩ := Table.validate_eq_ok_iff.mp h.valid
  have hcolumn := (seq_eq_ok_iff.mp ((Table.validate_eq_ok_iff.mp ho).right.right column c hc)).left
  rw [hk column c hc] at hcolumn
  refine Tag.fits_addition ?_
  rw [length_encode_joinTarget, nameLimit]
  have lkeyspace := length_encode_le_of_checkName hkeyspace
  have ltable := length_encode_le_of_checkName htable
  have lcolumn := length_encode_le_of_checkName hcolumn
  omega

theorem exists_run_broadcast (h : ∀ m ∈ batch, m.Fits) :
    ∃ told, (n.run (broadcast net batch)).1 = .ok told := by
  cases hr : n.run (broadcast net batch)
  case mk result n' =>
    cases result
    case ok told => exact ⟨told, rfl⟩
    case error e =>
      have ⟨_, e', hw, _⟩ := run_broadcast_eq_error_iff.mp hr
      have ⟨b, hb⟩ := isOk_iff.mp (Wire.isOk_writeBatch.mpr h)
      rw [hb] at hw
      cases hw

end Node

namespace Request

open Node

variable {n n' : Node} {p : Plan} {request : Request}

theorem fits_of_plan (hs : n.schema.IsAccepted) (h : n.run request.plan = (.ok p, n')) :
    ∀ m ∈ p.batch, m.Fits := by
  cases makes_of_plan h
  case createKeyspace valid _ => exact List.forall_mem_singleton.mpr (Keyspace.fits_creation valid)
  case createTable valid _ _  => exact List.forall_mem_singleton.mpr (Table.fits_creation valid)
  case updateKeyspace valid _ => exact List.forall_mem_singleton.mpr (Keyspace.fits_alteration valid)
  case updateTable t old d drops plans =>
    have ⟨ho, hk⟩ := hs.table plans.shown
    exact List.forall_mem_cons.mpr
      ⟨Table.fits_alteration ho hk plans.valid, plans.fits_drops ho hk⟩
  case dropKeyspace name old d _ shown =>
    exact List.forall_mem_singleton.mpr (Keyspace.fits_removal (hs name old shown).left)
  case dropTable keyspace name old d _ shown =>
    exact List.forall_mem_singleton.mpr (Table.fits_removal (hs.table shown).left)

end Request

open Node Wire

theorem changes_written :
    (∀ m version, (∃ e, writeMutation version m = .error e) ↔
      65535 < (Utf8.encode m.keyspace).length ∨ 65535 < m.key.length ∨
      (∃ f ∈ m.families.toList, 65535 < (Utf8.encode f.1).length) ∨
      (∃ f ∈ m.families.toList, ∃ mod ∈ f.2,
        (∃ component ∈ mod.path, 65535 < (Utf8.encode component).length) ∨
          65535 < (mod.path.map fun component => (Utf8.encode component).length + 3).sum) ∨
      version < Protocol.rangeTombstones ∧ ∃ f ∈ m.families.toList, ∃ path d,
        path ≠ [] ∧ .rangeTombstone path d ∈ f.2) ∧
    (∀ (k : Keyspace) timestamp d, k.validate = .ok () → k.Keyed →
      ∀ m ∈ [k.creation timestamp, k.alteration timestamp, k.removal d],
        (writeMutation Protocol.current m).isOk = true) ∧
    (∀ (t old : Table) timestamp d, t.validate = .ok () → t.Keyed → old.validate = .ok () →
      old.Keyed → ∀ m ∈ [t.creation timestamp, old.alteration t d, t.removal d],
        (writeMutation Protocol.current m).isOk = true) ∧
    ∀ (n : Node) (request : Request) p n₀, n.schema.IsAccepted →
      n.run request.plan = (.ok p, n₀) →
        ∀ (n₁ : Node) net, ∃ told, (n₁.run (broadcast net p.batch)).1 = .ok told := by
  have written {m : Mutation} (h : m.Fits) : (writeMutation Protocol.current m).isOk = true :=
    isOk_writeMutation.mpr ⟨h, m.carriedBy_current⟩
  refine ⟨fun m version => ?error, fun k timestamp d hv _ => ?keyspaces,
    fun t old timestamp d hv _ ho hk => ?tables, fun n request p n₀ hs h n₁ net => ?told⟩
  case error =>
    have long (mod : Modification) :
        (∃ component ∈ mod.path, 65535 < (Utf8.encode component).length) ∨
          65535 < (mod.path.map fun component => (Utf8.encode component).length + 3).sum ↔
            65535 < nameLength mod.path := exists_long_component_or_iff
    simp only [long]
    exact writeMutation_eq_error_iff
  case keyspaces =>
    simp only [List.forall_mem_cons, List.not_mem_nil, false_implies, implies_true, and_true]
    exact ⟨written (Keyspace.fits_creation hv), written (Keyspace.fits_alteration hv),
      written (Keyspace.fits_removal hv)⟩
  case tables =>
    simp only [List.forall_mem_cons, List.not_mem_nil, false_implies, implies_true, and_true]
    exact ⟨written (Table.fits_creation hv), written (Table.fits_alteration ho hk hv),
      written (Table.fits_removal hv)⟩
  case told => exact exists_run_broadcast (Request.fits_of_plan hs h)

-- A column is dropped, and there is another member to tell.
theorem changes_written_of_dropped_column :
    let base := Table.new "app" "users" ⟨List.replicate 16 0, rfl⟩
    let users := base.withColumn ⟨"email", "UTF8Type", .regular⟩
    let app := (Keyspace.simple "app" 1).withTable users
    let n : Node := { idle (.v4 10 0 0 1) .standard ∅ "node" ⟨1000, 0, 0⟩ 0 with
      schema := { Schema.empty with keyspaces := (∅ : Definitions).insert "app" app } }
    let net := ((Network.new 1 0).add (.v4 10 0 0 2) Protocol.current false).1
    let d : DeletionTime := ⟨2, 0⟩
    app.validate = .ok () ∧ app.Keyed ∧ base.validate = .ok () ∧ base.Keyed ∧
      users.validate = .ok () ∧ users.Keyed ∧ n.schema.IsAccepted ∧
      (∀ m ∈ [app.creation 1, app.alteration 1, app.removal d, base.creation 1,
        users.alteration base d, base.removal d],
          (writeMutation Protocol.current m).isOk = true) ∧
      users.droppedColumns base = ["email"] ∧
      net.broadcastTargets n.address = [.v4 10 0 0 2] ∧
      ∃ p n₀ told, n.run (Request.updateTable base).plan = (.ok p, n₀) ∧
        (n.run (broadcast net p.batch)).1 = .ok told := by
  intro base users app n net d
  have named : ∀ name ∈ ["app", "users", "email"], ∀ what, checkName what name = .ok () := by
    simp [checkName, isName, isNameChar, maxNameLength]
    decide
  have hbase : base.validate = .ok () :=
    Table.validate_new.mpr ⟨named "app" (by simp) _, named "users" (by simp) _⟩
  have husers : users.validate = .ok () :=
    Table.validate_withColumn hbase (seq_eq_ok_iff.mpr ⟨named "email" (by simp) _, rfl⟩)
  have happ : app.validate = .ok () := Keyspace.validate_withTable
    (Keyspace.validate_new.mpr ⟨named "app" (by simp) _, by decide⟩) husers rfl
  have hk : base.Keyed := Table.keyed_new
  have happk : app.Keyed := Keyspace.keyed_new.withTable (hk.withColumn _)
  have accepted : n.schema.IsAccepted := by
    intro name k h
    have h : ((∅ : Definitions).insert "app" app)[name]? = some k := h
    rw [Std.ExtTreeMap.getElem?_insert] at h
    split at h
    case isTrue  => cases h; exact ⟨happ, happk⟩
    case isFalse => simp at h
  have shown : n.schema.table "app" "users" = some users := by decide +kernel
  have compatible : users.checkReplacement base = .ok () := by decide +kernel
  have dropped : users.droppedColumns base = ["email"] := by decide +kernel
  have targets : net.broadcastTargets n.address = [.v4 10 0 0 2] := by decide +kernel
  obtain ⟨p, n₀, hp⟩ := Request.exists_run_plan_updateTable hbase shown compatible
    fun column _ => canDrop_of_partition_eq_empty base column (Storage.partition_empty _)
  obtain ⟨-, keyspaces, tables, tells⟩ := changes_written
  obtain ⟨told, ht⟩ := tells n (.updateTable base) p n₀ accepted hp n net
  refine ⟨happ, happk, hbase, hk, husers, hk.withColumn _, accepted, ?_, dropped, targets, p, n₀,
    told, hp, ht⟩
  exact List.forall_mem_append.mpr ⟨keyspaces app 1 d happ happk,
    tables base users 1 d hbase hk husers (hk.withColumn _)⟩

end ClusterMetadata
