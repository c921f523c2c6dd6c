import ClusterMetadata.Proofs.Node.Peers

/-!
The life of the record of a dropped column on several nodes: `dropped`, and once the column has come
back and is dropped again, `permanent_drop` (`Leads.redrop`). Where a node drops the column only
when it has heard of every step of the record that there is, `permanent_drop` is final on every node
(`steps_keep_permanentDrop`). A node that lags behind takes it back
(`permanentDrop_reverts_of_lag`).
-/

namespace ClusterMetadata.Peers

open Node

variable {ι : Type} {p₀ p p' : Peers ι} {i j : ι} {target : String} {parts : List String}
  {c c' : Stamped} {batches : List (List Mutation)} {P : Peers ι → ι → String → Prop}
  {t old : Table}

-- The node has heard of every step of the record, and its clock is past them.
structure UpToDate (p : Peers ι) (i : ι) (target : String) : Prop where
  heard : ∀ c, p.Known target c →
    ∃ c', Tag.recordCell? (p.node i).storage target = some c' ∧ c ≤ c'
  past  : ∀ c, p.Known target c → c.timestamp < (p.node i).clock.next

-- Whoever takes a step of the record is up to date with it.
def InTurn (target : String) (p : Peers ι) (i : ι) (target' : String) : Prop :=
  target' = target → p.UpToDate i target

-- Where the record is known to be at `permanent_drop`, nothing later is known.
def Final (p : Peers ι) (target : String) : Prop :=
  ∀ c c', p.Known target c → p.Known target c' → c.value = Tag.permanentDrop → c' ≤ c

-- A node that is up to date does not step past `permanent_drop`.
theorem Final.not_isNextStep (hf : p.Final target) (hu : p.UpToDate i target)
    (hk : p.Known target c) (hp : c.value = Tag.permanentDrop) :
    ¬(p.node i).IsNextStep target c' := by
  have ⟨c₁, hc, hle⟩ := hu.heard c hk
  have he : c₁ = c := le_antisymm (hf c c₁ hk (.stored i hc) hp) hle
  exact not_isNextStep_of_permanentDrop hc (he ▸ hp)

theorem Final.effect (hf : p.Final target) (ho : p.Orderly)
    (h : p.Effect (InTurn target) i batches p') : p'.Final target := by
  intro c c' hk hk' hp
  rcases h.next ho hk with hk | ⟨hu, hs⟩ <;> rcases h.next ho hk' with hk' | ⟨hu', hs'⟩
  -- Nothing new is known.
  · exact hf c c' hk hk' hp
  -- No step follows what was known.
  · exact absurd hs' (hf.not_isNextStep (hu' rfl) hk hp)
  -- The record comes to its end, later than all that was known.
  · have hlt := (hu rfl).past c' hk'
    exact .inl (hs.timestamp ▸ hlt)
  · exact (hs.unique hs').ge

theorem Final.reads_effect (hf : p.Final (joinTarget parts)) (ho : p.Orderly)
    (h : p.Effect (InTurn (joinTarget parts)) i batches p')
    (hr : p.Reads j parts Tag.permanentDrop) : p'.Reads j parts Tag.permanentDrop := by
  have ⟨c, hc, hp⟩ := ho.reads_iff.mp hr
  have ⟨c', hc', hle⟩ := h.exists_le_recordCell ho hc
  have hk : p.Known (joinTarget parts) c := .stored j hc
  have hk' : p.Known (joinTarget parts) c' := by
    rcases h.next ho (.stored j hc') with hk' | ⟨hu, hs⟩
    · exact hk'
    · exact absurd hs (hf.not_isNextStep (hu rfl) hk hp)
  have he : c' = c := le_antisymm (hf c c' hk hk' hp) hle
  exact (h.orderly ho).reads_iff.mpr ⟨c', hc', he ▸ hp⟩

-- A node that takes the step itself stays up to date.
theorem UpToDate.effect {d : DeletionTime} {drops : List Mutation} (h : p.UpToDate i target)
    (ho : p.Orderly) (hp : (p.node i).Plans t old d drops)
    (he : p.Effect P i [old.alteration t d :: drops] p')
    (hs : ∀ c, old.Drops t target → (p.node i).IsNextStep target c →
      Tag.recordCell? (p'.node i).storage target = some c)
    (hlt : (p.node i).clock.next < (p'.node i).clock.next) : p'.UpToDate i target := by
  have known {c : Stamped} (hk : p'.Known target c) :
      p.Known target c ∨ old.Drops t target ∧ (p.node i).IsNextStep target c := by
    refine (he.known hk).imp_right fun ⟨batch, hm, hw⟩ => ?_
    obtain rfl := List.mem_singleton.mp hm
    exact (hp.write_mem_iff (ho.tidy i)).mp hw
  refine ⟨fun c hk => ?_, fun c hk => ?_⟩
  · rcases known hk with hk | ⟨hc, hn⟩
    · have ⟨c₁, h₁, hle⟩ := h.heard c hk
      have ⟨c₂, h₂, hle'⟩ := he.exists_le_recordCell ho h₁
      exact ⟨c₂, h₂, hle.trans hle'⟩
    · exact ⟨c, hs c hc hn, le_rfl⟩
  · rcases known hk with hk | ⟨_, hn⟩
    · exact Std.lt_trans (h.past c hk) hlt
    · exact hn.timestamp ▸ hlt

-- Nobody knows more of the record than the node, which shows the table and whose readings come to
-- the instants.
structure Leads (p : Peers ι) (i : ι) (target : String) (t : Table) (record : Option Stamped)
    (instants : List Int64) : Prop where
  orderly   : p.Orderly
  upToDate  : p.UpToDate i target
  record    : Tag.recordCell? (p.node i).storage target = record
  shown     : (p.node i).schema.table t.keyspace t.name = some t
  tracks    : ∃ ds, (p.node i).replica.Tracks ds instants
  next      : instants.head? = some (p.node i).clock.next
  ascending : instants.Pairwise (· < ·)

-- Nodes that have announced nothing and have no records.
structure Fresh (p : Peers ι) : Prop where
  idle  : ∀ i, (p.node i).migration.IsIdle
  blank : ∀ i, (p.node i).storage.partition (Tag.partition .columnDrop) = ∅
  mute  : p.announced = []

namespace Fresh

variable (h : p.Fresh)

include h

theorem recordCell_eq_none (i : ι) (target : String) :
    Tag.recordCell? (p.node i).storage target = none := by
  rw [Tag.recordCell?, h.blank]
  exact Partition.getElem?_cells_empty

theorem not_known : ¬p.Known target c := by
  rintro (⟨hm, -⟩ | ⟨i, hc⟩)
  · rw [h.mute] at hm
    cases hm
  · cases (h.recordCell_eq_none i target).symm.trans hc

theorem orderly : p.Orderly where
  idle         := h.idle
  tidy i n c hc := by
    rw [h.blank, Partition.getElem?_cells_empty] at hc
    cases hc
  records      := by simp [h.mute]

theorem final (target : String) : p.Final target :=
  fun _ _ hk => absurd hk h.not_known

theorem leads {instants : List Int64} {ds : Definitions} (target : String)
    (hs : (p.node i).schema.table t.keyspace t.name = some t)
    (ht : (p.node i).replica.Tracks ds instants)
    (hn : instants.head? = some (p.node i).clock.next) (ha : instants.Pairwise (· < ·)) :
    p.Leads i target t none instants where
  orderly   := h.orderly
  upToDate  := ⟨fun _ hk => absurd hk h.not_known, fun _ hk => absurd hk h.not_known⟩
  record    := h.recordCell_eq_none i target
  shown     := hs
  tracks    := ⟨ds, ht⟩
  next      := hn
  ascending := ha

end Fresh

section

variable [DecidableEq ι]

-- The update is made, and still nobody knows more. If it drops the column, the record takes its
-- next step.
theorem Leads.update {record : Option Stamped} {now later : Int64} {instants : List Int64}
    (h : p.Leads i target old record (now :: later :: instants)) (value : Bytes)
    (hv : t.validate = .ok () ∧ t.Keyed) (hc : old.checkReplacement t = .ok ())
    (hd : ∀ column ∈ old.droppedColumns t, joinTarget [t.keyspace, t.name, column] = target)
    (hn : old.Drops t target → Tag.Next (record.map (·.value)) value) :
    ∃ batch p', Step (InTurn target) p p' ∧ (∀ j ≠ i, p'.node j = p.node j) ∧
      p'.announced = batch :: p.announced ∧ p'.Leads i target t
        (if old.Drops t target then some ⟨value, now⟩ else record) (later :: instants) := by
  let n := p.node i
  let net := Network.new 1 Network.defaultCapacity
  have ho := h.orderly
  have hnow : n.clock.next = now := (Option.some.inj h.next).symm
  have ⟨hlt, hasc⟩ := List.pairwise_cons.mp h.ascending
  have hlt' : now < later := hlt later List.mem_cons_self
  have ⟨hks, hname, _⟩ := Table.checkReplacement_eq_ok_iff.mp hc
  have hshown : n.schema.table t.keyspace t.name = some old := hks ▸ hname ▸ h.shown
  have ⟨batch, hb⟩ := exists_run_planUpdate hv.left hshown hc fun column hm =>
    ⟨value, Tag.load_value (ho.tidy i) ▸ hd column hm ▸ h.record ▸ hn ⟨column, hm, hd column hm⟩⟩
  have planned : n.run (planUpdate t) = (.ok (old, batch), (n.run (planUpdate t)).2) :=
    Prod.ext hb rfl
  obtain ⟨d, drops, hp, rfl⟩ := run_planUpdate_eq_ok planned
  have ⟨ds, ht⟩ := h.tracks
  have hu := updates_updateTable (ho.idle i) (ho.tidy i) planned hp hv.right (hnow.symm ▸ ht)
    (hnow.symm ▸ hlt) net none
  let n' : Node := { (n.run (updateTable net t none)).2 with clock := ⟨later, now, 0⟩ }
  let p' := p.after i n' [old.alteration t d :: drops]
  have hn' : p'.node i = n' := node_after_self
  have hnext : n'.clock.next = later := if_pos hlt'
  have hlater : n.clock.next < n'.clock.next := hnow ▸ hnext ▸ hlt'
  have inTurn (target' : String) (_ : old.Drops t target') : p.InTurn target i target' :=
    fun _ => h.upToDate
  have he : p.Effect (InTurn target) i [_] p' := ho.effect_of_planned planned inTurn net none _
  refine ⟨_, p', .updates p i planned inTurn hlater, he.others, rfl, he.orderly ho, ?_, ?_, ?_, ?_,
    ?_, hasc⟩
  · exact h.upToDate.effect ho hp he (fun c hc hs => hn' ▸ hu.stepped target c hc hs) (hn' ▸ hlater)
  · rw [hn']
    split
    case isTrue hc  => exact hu.stepped target _ hc ⟨h.record ▸ hn hc, hnow.symm⟩
    case isFalse hc => exact (hu.kept target hc).trans h.record
  · exact hn' ▸ hu.shown
  · exact hn' ▸ hu.tracks
  · rw [hn', hnext, List.head?_cons]

-- A column that is dropped, comes back and is dropped again is dropped for good.
theorem Leads.redrop {wide narrow : Table} {column : String} {s₁ s₂ s₃ s₄ : Int64}
    (h : p.Leads i target wide none [s₁, s₂, s₃, s₄])
    (htarget : joinTarget [narrow.keyspace, narrow.name, column] = target)
    (hw : wide.validate = .ok () ∧ wide.Keyed) (hn : narrow.validate = .ok () ∧ narrow.Keyed)
    (hwn : wide.checkReplacement narrow = .ok ()) (hnw : narrow.checkReplacement wide = .ok ())
    (hd : wide.droppedColumns narrow = [column]) (ha : narrow.droppedColumns wide = []) :
    ∃ b₁ b₂ b₃ p', Relation.ReflTransGen (Step (InTurn target)) p p' ∧
      (∀ j ≠ i, p'.node j = p.node j) ∧ p'.announced = b₃ :: b₂ :: b₁ :: p.announced ∧
      p'.Leads i target narrow (some ⟨Tag.permanentDrop, s₃⟩) [s₄] := by
  have only : ∀ name ∈ wide.droppedColumns narrow,
      joinTarget [narrow.keyspace, narrow.name, name] = target := by
    simpa [hd] using htarget
  have nothing : ∀ name ∈ narrow.droppedColumns wide,
      joinTarget [wide.keyspace, wide.name, name] = target := by
    simp [ha]
  have hm : wide.Drops narrow target := ⟨column, hd ▸ List.mem_cons_self, htarget⟩
  have hm' : ¬narrow.Drops wide target := by simp [Table.Drops, ha]
  have ⟨b₁, p₁, h₁, ho₁, ha₁, hl₁⟩ := h.update Tag.dropped hn hwn only fun _ => .first
  rw [if_pos hm] at hl₁
  have ⟨b₂, p₂, h₂, ho₂, ha₂, hl₂⟩ := hl₁.update [] hw hnw nothing fun hc => absurd hc hm'
  rw [if_neg hm'] at hl₂
  have ⟨b₃, p₃, h₃, ho₃, ha₃, hl₃⟩ := hl₂.update Tag.permanentDrop hn hwn only fun _ => .last
  rw [if_pos hm] at hl₃
  refine ⟨b₁, b₂, b₃, p₃, .tail (.tail (.single h₁) h₂) h₃, fun j hj => ?_, ?_, hl₃⟩
  · rw [ho₃ j hj, ho₂ j hj, ho₁ j hj]
  · rw [ha₃, ha₂, ha₁]

theorem Final.steps (hf : p.Final target) (ho : p.Orderly)
    (h : Relation.ReflTransGen (Step (InTurn target)) p p') : p'.Orderly ∧ p'.Final target := by
  induction h
  case refl => exact ⟨ho, hf⟩
  case tail _ h hi =>
    have ⟨_, _, he⟩ := h.exists_effect hi.left
    exact ⟨he.orderly hi.left, hi.right.effect hi.left he⟩

-- Two nodes with one store. The clock of one is ahead.
def pair (r : Replica) : Peers Bool where
  node ahead := (idle (.v4 10 0 0 (cond ahead 2 1)) .standard ∅ "node"
    ⟨cond ahead 3000 2000, 0, 0⟩ 0).withReplica r
  announced := []

-- The other node drops a column, brings it back and drops it again.
theorem exists_redrop_of_users :
    let base := (Table.new "app" "users" ⟨List.replicate 16 0, rfl⟩).withColumn
      ⟨"id", "UTF8Type", .partitionKey⟩
    let users := base.withColumn ⟨"email", "UTF8Type", .regular⟩
    let app := (Keyspace.simple "app" 1).withTable users
    let target := joinTarget ["app", "users", "email"]
    ∃ r, (Replica.empty 0).merge [app.creation 1] = .ok r ∧ (pair r).Fresh ∧
      (∃ batch, (((pair r).node true).run (planUpdate base)).1 = .ok (users, batch)) ∧
      ∃ b₁ b₂ b₃ p, Relation.ReflTransGen (Step (InTurn target)) (pair r) p ∧
        p.node true = (pair r).node true ∧ p.announced = [b₃, b₂, b₁] ∧
        p.Leads false target base (some ⟨Tag.permanentDrop, 2002⟩) [3000] := by
  intro base users app target
  have ⟨r, hr, ⟨ds, ht⟩, hs, hblank, hbase, husers, hplan⟩ :=
    exists_store_of_users [2000, 2001, 2002, 3000] (by simp)
  have fresh : (pair r).Fresh := ⟨fun _ => Stage.isIdle_new .., fun _ => hblank, rfl⟩
  have hclock : (⟨2000, 0, 0⟩ : Clock).next = 2000 := by decide
  have leads : (pair r).Leads false target users none [2000, 2001, 2002, 3000] :=
    fresh.leads target hs ht (congrArg some hclock.symm) (by decide)
  have hw : users.validate = .ok () ∧ users.Keyed :=
    ⟨husers, (Table.keyed_new.withColumn _).withColumn _⟩
  have hn : base.validate = .ok () ∧ base.Keyed := ⟨hbase, Table.keyed_new.withColumn _⟩
  have hd : users.droppedColumns base = ["email"] := by decide +kernel
  have htarget : joinTarget [base.keyspace, base.name, "email"] = target := rfl
  have hwn : users.checkReplacement base = .ok () := by decide +kernel
  have hnw : base.checkReplacement users = .ok () := by decide +kernel
  have hd' : base.droppedColumns users = [] := by decide +kernel
  have ⟨b₁, b₂, b₃, p, h, ho, ha, hl⟩ := leads.redrop htarget hw hn hwn hnw hd hd'
  exact ⟨r, hr, fresh, hplan _ rfl _ List.mem_cons_self, b₁, b₂, b₃, p, h, ho true nofun, ha, hl⟩

-- Once a node reads that the column is dropped for good it reads nothing else any more.
theorem steps_keep_permanentDrop (ho : p₀.Orderly) (hf : p₀.Final (joinTarget parts))
    (h : Relation.ReflTransGen (Step (InTurn (joinTarget parts))) p₀ p)
    (hr : p.Reads i parts Tag.permanentDrop)
    (h' : Relation.ReflTransGen (Step (InTurn (joinTarget parts))) p p') :
    p'.Reads i parts Tag.permanentDrop := by
  have ⟨ho, hf⟩ := hf.steps ho h
  induction h'
  case refl => exact hr
  case tail h' hs hi =>
    have ⟨ho, hf⟩ := hf.steps ho h'
    have ⟨_, _, he⟩ := hs.exists_effect ho
    exact hf.reads_effect ho he hi

-- The node that has dropped the column twice hears once more that it was dropped once.
theorem steps_keep_permanentDrop_of_redrop :
    let base := (Table.new "app" "users" ⟨List.replicate 16 0, rfl⟩).withColumn
      ⟨"id", "UTF8Type", .partitionKey⟩
    let users := base.withColumn ⟨"email", "UTF8Type", .regular⟩
    let app := (Keyspace.simple "app" 1).withTable users
    let parts := ["app", "users", "email"]
    ∃ r, (Replica.empty 0).merge [app.creation 1] = .ok r ∧
      (pair r).Orderly ∧ (pair r).Final (joinTarget parts) ∧
      ∃ b₁ b₂ b₃ p, Relation.ReflTransGen (Step (InTurn (joinTarget parts))) (pair r) p ∧
        p.announced = [b₃, b₂, b₁] ∧ p.Reads false parts Tag.permanentDrop ∧
        (p.after false ((p.node false).run (merge b₁)).2 []).Reads false parts
          Tag.permanentDrop := by
  intro base users app parts
  have ⟨r, hr, fresh, _, b₁, b₂, b₃, p, h, _, ha, hl⟩ := exists_redrop_of_users
  have hreads : p.Reads false parts Tag.permanentDrop :=
    hl.orderly.reads_iff.mpr ⟨_, hl.record, rfl⟩
  have hears : Step (InTurn (joinTarget parts)) p
      (p.after false ((p.node false).run (merge b₁)).2 []) :=
    .hears p false (by simp [ha])
  exact ⟨r, hr, fresh.orderly, fresh.final _, b₁, b₂, b₃, p, h, ha, hreads,
    steps_keep_permanentDrop fresh.orderly (fresh.final _) h hreads (.single hears)⟩

-- Whatever a node reads of the record, it reads the step that another takes, once it hears of it,
-- if the step is later than all that the node stores.
theorem Orderly.exists_reads_of_drop {n : Node} {batch : List Mutation} {clock : Clock}
    {ds : Definitions} {instants : List Int64} (ho : p.Orderly) (hij : i ≠ j)
    (planned : (p.node j).run (planUpdate t) = (.ok (old, batch), n))
    (hc : old.Drops t (joinTarget parts)) (hs : (p.node j).IsNextStep (joinTarget parts) c)
    (ht : (p.node i).replica.Tracks ds ((p.node j).clock.next :: instants))
    (later : (p.node j).clock.next < clock.next) :
    ∃ p', Relation.ReflTransGen (Step fun _ _ _ => True) p p' ∧ p'.Reads i parts c.value := by
  have ⟨d, drops, hp, hb⟩ := run_planUpdate_eq_ok planned
  let net := Network.new 1 Network.defaultCapacity
  let p₁ := p.after j { ((p.node j).run (updateTable net t none)).2 with clock } [batch]
  let p₂ := p₁.after i ((p₁.node i).run (merge batch)).2 []
  have h₁ : Step (fun _ _ _ => True) p p₁ := .updates p j planned (fun _ _ => trivial) later
  have h₂ : Step (fun _ _ _ => True) p₁ p₂ := .hears p₁ i List.mem_cons_self
  have e₁ : p.Effect (fun _ _ _ => True) j _ p₁ :=
    ho.effect_of_planned planned (fun _ _ => trivial) net none clock
  have ⟨_, _, e₂⟩ := h₂.exists_effect (e₁.orderly ho)
  have hcell : Tag.recordCell? (p₂.node i).storage (joinTarget parts) = some c := by
    rw [node_after_self, e₁.others i hij, hb]
    exact recordCell_merge hp (ho.tidy j) hc hs (ho.idle i) ht
  exact ⟨p₂, .tail (.single h₁) h₂, (e₂.orderly (e₁.orderly ho)).reads_iff.mpr ⟨c, hcell, rfl⟩⟩

-- The node that is ahead has heard nothing when it drops the column for the first time, and the
-- other hears of that.
theorem permanentDrop_reverts_of_lag :
    let base := (Table.new "app" "users" ⟨List.replicate 16 0, rfl⟩).withColumn
      ⟨"id", "UTF8Type", .partitionKey⟩
    let users := base.withColumn ⟨"email", "UTF8Type", .regular⟩
    let app := (Keyspace.simple "app" 1).withTable users
    let parts := ["app", "users", "email"]
    ∃ r, (Replica.empty 0).merge [app.creation 1] = .ok r ∧
      ∃ p p', Relation.ReflTransGen (Step fun _ _ _ => True) (pair r) p ∧
        p.Reads false parts Tag.permanentDrop ∧
        Relation.ReflTransGen (Step fun _ _ _ => True) p p' ∧
        p'.Reads false parts Tag.dropped := by
  intro base users app parts
  have ⟨r, hr, fresh, ⟨batch, hb⟩, _, _, _, p, h, hn, _, hl⟩ := exists_redrop_of_users
  have ho := hl.orderly
  have planned : (p.node true).run (planUpdate base) =
      (.ok (users, batch), ((p.node true).run (planUpdate base)).2) :=
    Prod.ext (hn ▸ hb) rfl
  have hnow : (p.node true).clock.next = 3000 := by
    have hclock : (⟨3000, 0, 0⟩ : Clock).next = 3000 := by decide
    exact hn ▸ hclock
  have later : (p.node true).clock.next < (⟨3001, 3000, 0⟩ : Clock).next := by
    rw [hnow]
    decide
  have hfirst : (p.node true).IsNextStep (joinTarget parts) ⟨Tag.dropped, 3000⟩ := by
    refine ⟨?_, hnow.symm⟩
    rw [hn, fresh.recordCell_eq_none]
    exact .first
  have hdrops : users.Drops base (joinTarget parts) := ⟨"email", by decide +kernel, rfl⟩
  have ⟨_, ht⟩ := hl.tracks
  have hij : false ≠ true := nofun
  have ⟨p', h', hreads⟩ :=
    ho.exists_reads_of_drop hij planned hdrops hfirst (hnow.symm ▸ ht) later
  exact ⟨r, hr, p, p', h.lift id fun _ _ => Step.mono fun _ _ _ _ => trivial,
    ho.reads_iff.mpr ⟨_, hl.record, rfl⟩, h', hreads⟩

end
end ClusterMetadata.Peers
