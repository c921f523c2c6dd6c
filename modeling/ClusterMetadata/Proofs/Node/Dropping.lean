import ClusterMetadata.Proofs.Node.Record
import ClusterMetadata.Proofs.Node.Steady

/-!
How often columns are dropped. On a node that is left to itself the record of a column says how many
updates have dropped it (`Course.counted`), and there is no third (`dropped_at_most_twice`).
-/

namespace ClusterMetadata

theorem SchemaChange.mutation_on_eq_nil (change : SchemaChange) {id : PartitionId}
    (h : id.table ∉ Catalog.schema) : change.mutation.on id = [] := by
  have elsewhere {families : List (String × List Modification)} {key : Bytes}
      (hf : ∀ f ∈ families, f.1 ∈ Catalog.schema) :
      (Mutation.ofFamilies Catalog.system key families).on id = [] :=
    Mutation.on_ofFamilies_eq_nil fun f hm he => h (he ▸ hf f hm)
  cases change
  case keyspaceCreation   => exact Keyspace.creation_on_eq_nil h
  case keyspaceAlteration => exact elsewhere (by simp [Keyspace.attributeRows, Catalog.schema])
  case keyspaceRemoval    => exact elsewhere (by simp)
  case tableCreation      => exact elsewhere fun _ => Table.fst_mem_schema_of_mem_rows
  case tableAlteration    => exact Table.alteration_on_eq_nil h
  case tableRemoval       => exact elsewhere (by simp [Catalog.schema])

namespace Request

open Node

variable {n n' : Node} {p : Plan} {request : Request}

theorem exists_change_of_plan (h : n.run request.plan = (.ok p, n'))
    (hu : ∀ t, request ≠ .updateTable t) :
    ∃ change : SchemaChange, p.batch = [change.mutation] := by
  cases makes_of_plan h
  case createKeyspace k timestamp _ _ => exact ⟨.keyspaceCreation k timestamp, rfl⟩
  case createTable t _ _ _ _          => exact ⟨.tableCreation t _, rfl⟩
  case updateKeyspace k _ _ _         => exact ⟨.keyspaceAlteration k _, rfl⟩
  case updateTable t _ _ _ _          => exact absurd rfl (hu t)
  case dropKeyspace old d _ _         => exact ⟨.keyspaceRemoval old d, rfl⟩
  case dropTable old d _ _            => exact ⟨.tableRemoval old d, rfl⟩

end Request

namespace Node

-- The column is shown, and the definition does not have it.
def drops (n : Node) (t : Table) (keyspace table column : String) : Bool :=
  t.keyspace = keyspace && t.name = table && (n.schema.table keyspace table).any fun old =>
    old.columns.contains column && !t.columns.contains column

end Node

-- What a node is asked for. A keyspace is stamped by the node, or by whoever asks for it.
inductive Call where
  | newKeyspace (k : Keyspace)
  | asks (request : Request)

namespace Call

def run (net : Network) (client : Option String) : Call → NodeM Unit
  | newKeyspace k   => Node.newKeyspace net k
  | asks request    => request.run net client

-- The call is an update that drops the column.
def drops (n : Node) (keyspace table column : String) : Call → Bool
  | asks (.updateTable t) => n.drops t keyspace table column
  | _                     => false

end Call

-- How many updates have dropped a column.
abbrev Tally := String → String → String → Nat

-- An update counts if it is not refused.
def Tally.after (tally : Tally) (n : Node) (call : Call) (result : Except Failure Unit) : Tally :=
  fun keyspace table column => tally keyspace table column +
    if result.isOk && call.drops n keyspace table column then 1 else 0

-- What comes of a node that is called and hears of nothing else. Its clock does not go back, and by
-- the time of the next call it is past the readings that the one before has taken.
inductive Course (n₀ : Node) : Node → Tally → Prop
  | start : Course n₀ n₀ fun _ _ _ => 0
  | calls {n n' : Node} {tally : Tally} {result : Except Failure Unit} (h : Course n₀ n tally)
      (net : Network) (client : Option String) (call : Call) (clock : Clock)
      (ran : n.run (call.run net client) = (result, n')) (onward : n.clock.next ≤ clock.next)
      (passed : result = .ok () → n.clock.next < clock.next) :
      Course n₀ { n' with clock } (tally.after n call result)

namespace Node

variable {n n' : Node} {tally : Tally} {request : Request} {net : Network} {client : Option String}
  {result : Except Failure Unit} {t old : Table} {keyspace table column : String}

-- The node stamps the keyspace with a reading of its clock.
theorem run_newKeyspace (n : Node) (net : Network) (client : Option String) (k : Keyspace) :
    n.run (newKeyspace net k) = Node.run { n with clock := n.clock.read.2 }
      ((Request.createKeyspace k n.clock.next).run net client) := by
  rw [newKeyspace, run_bind]
  rfl

theorem drops_eq_true_iff : n.drops t keyspace table column = true ↔
    t.keyspace = keyspace ∧ t.name = table ∧
      ∃ old, n.schema.table keyspace table = some old ∧ column ∈ old.droppedColumns t := by
  simp only [drops, Bool.and_eq_true, decide_eq_true_eq, Option.any_eq_true, and_assoc,
    Table.droppedColumns, List.mem_filter, Std.ExtTreeMap.mem_keys, Std.ExtTreeMap.contains_iff_mem]

-- Plain names can be told from targets, so an update drops what it drops the record of.
theorem drops_iff (hs : n.schema.table t.keyspace t.name = some old) (hv : t.validate = .ok ())
    (hp : ∀ (column : String) c, old.columns[column]? = some c → IsPlain column) :
    n.drops t keyspace table column = true ↔
      old.Drops t (joinTarget [keyspace, table, column]) := by
  rw [drops_eq_true_iff]
  constructor
  case mp =>
    rintro ⟨rfl, rfl, _, shown, hm⟩
    cases hs.symm.trans shown
    exact ⟨column, hm, rfl⟩
  case mpr =>
    rintro ⟨column', hm, he⟩
    obtain ⟨hk, ht, -⟩ := Table.validate_eq_ok_iff.mp hv
    obtain ⟨⟨c, hc⟩, -⟩ := Table.mem_droppedColumns.mp hm
    obtain ⟨rfl, rfl, rfl⟩ :=
      (joinTarget_inj (isPlain_of_checkName hk) (isPlain_of_checkName ht) (hp column' c hc)).mp
        he.symm
    exact ⟨rfl, rfl, old, hs, hm⟩

-- The records agree with the tally.
structure Counted (tally : Tally) (n : Node) : Prop where
  steady  : n.Steady
  tidy    : Tag.IsTidy n.storage
  twice   : ∀ keyspace table column, tally keyspace table column ≤ 2
  records : ∀ keyspace table column,
    (Tag.recordCell? n.storage (joinTarget [keyspace, table, column])).map (·.value) =
      Tag.afterDrops (tally keyspace table column)

namespace Counted

theorem withClock (h : n.Counted tally) (clock : Clock) : Counted tally { n with clock } :=
  ⟨h.steady.withClock clock, h.tidy, h.twice, h.records⟩

-- Other requests than updates have nothing to do with records.
theorem run (h : n.Counted tally) (ran : n.run (request.run net client) = (result, n'))
    (hu : ∀ t, request ≠ .updateTable t) :
    n'.Counted tally ∧ ∀ now, Tag.Precede n.storage now → Tag.Precede n'.storage now := by
  obtain ⟨steady, ⟨e, clock, rfl, rfl⟩ | ⟨rfl, p, n₀, planned, hm⟩⟩ := h.steady.outcome ran
  case inl => exact ⟨h.withClock clock, fun _ => id⟩
  case inr =>
    have hw : n.storage.Writes (batchOn p.batch) n'.storage := Replica.writes_merge hm
    obtain ⟨change, hbatch⟩ := Request.exists_change_of_plan planned hu
    have untouched : n'.storage.partition (Tag.partition .columnDrop) =
        n.storage.partition (Tag.partition .columnDrop) := by
      rw [hw.partition, hbatch, batchOn, List.flatMap_singleton,
        change.mutation_on_eq_nil (by decide), List.foldl_nil]
    refine ⟨⟨steady, fun name c hc => h.tidy name c (untouched ▸ hc), h.twice, ?_⟩, ?_⟩
    · intro keyspace table column
      rw [Tag.recordCell?, untouched]
      exact h.records keyspace table column
    · rintro now ⟨history, hr, hb⟩
      exact ⟨history, untouched ▸ hr, hb⟩

-- An update takes the records of the columns that it drops one step further.
theorem update (h : n.Counted tally) (before : Tag.Precede n.storage n.clock.next)
    (ran : n.run ((Request.updateTable t).run net client) = (result, n')) :
    n'.Counted (tally.after n (.asks (.updateTable t)) result) ∧
      ∀ now, n.clock.next ≤ now → (result = .ok () → n.clock.next < now) →
        Tag.Precede n'.storage now := by
  obtain ⟨steady, ⟨e, clock, rfl, rfl⟩ | ⟨rfl, p, n₀, planned, hm⟩⟩ := h.steady.outcome ran
  case inl => exact ⟨h.withClock clock, fun now hn _ => before.writes .refl hn nofun⟩
  case inr =>
    have hw : n.storage.Writes (batchOn p.batch) n'.storage := Replica.writes_merge hm
    obtain ⟨⟨old, batch⟩, _, hp, hbatch⟩ := run_bind_eq_ok_iff.mp planned
    cases hbatch
    obtain ⟨d, drops, plans, rfl⟩ := run_planUpdate_eq_ok hp
    have plain (column : String) (c : Column) (hc : old.columns[column]? = some c) :
        IsPlain column := h.steady.sound.isPlain_of_shown h.steady.plain plans.shown hc
    have step (keyspace table column : String) :
        let drops := if n.drops t keyspace table column then 1 else 0
        tally keyspace table column + drops ≤ 2 ∧
          (Tag.recordCell? n'.storage (joinTarget [keyspace, table, column])).map (·.value) =
            Tag.afterDrops (tally keyspace table column + drops) := by
      have same := h.records keyspace table column
      have dropped : n.drops t keyspace table column = true ↔
          old.Drops t (joinTarget [keyspace, table, column]) :=
        drops_iff plans.shown plans.valid plain
      split
      case isTrue hd =>
        obtain ⟨c, next⟩ := plans.exists_isNextStep h.tidy (dropped.mp hd)
        have hv := next.value
        rw [same] at hv
        obtain ⟨hlt, hafter⟩ := Tag.lt_two_of_next hv
        refine ⟨by omega, ?_⟩
        rw [plans.recordCell_eq h.tidy (dropped.mp hd) next hw before, hafter]
        rfl
      case isFalse hd =>
        refine ⟨h.twice keyspace table column, ?_⟩
        rw [plans.recordCell_eq_of_not_drops h.tidy (hd ∘ dropped.mpr) hw]
        exact same
    refine ⟨⟨steady, h.tidy.writes hw plans.isRecording, fun keyspace table column =>
      (step keyspace table column).left, fun keyspace table column =>
        (step keyspace table column).right⟩, fun now _ hlt => ?_⟩
    have hlt := hlt rfl
    refine before.writes hw (Std.le_of_lt hlt) fun mod hm => ?_
    rw [plans.timestamp_eq hm, plans.markedAt]
    exact hlt

end Counted

-- Nothing but the records is in the way of the definition.
structure CanReplace (n : Node) (t : Table) : Prop where
  valid      : t.validate = .ok ()
  compatible : ∃ old, n.schema.table t.keyspace t.name = some old ∧ old.checkReplacement t = .ok ()

-- A node that has nothing stored is asked for a keyspace.
theorem Steady.exists_newKeyspace {k : Keyspace} {r : Replica} (hs : n.Steady)
    (he : n.replica = Replica.empty 0) (hk : k.validate = .ok ())
    (hm : (Replica.empty 0).merge [k.creation n.clock.next] = .ok r) (net : Network) :
    ∃ n', n.run ((Call.newKeyspace k).run net none) = (.ok (), n') ∧ n'.replica = r := by
  let stamped : Node := { n with clock := n.clock.read.2 }
  have absent : stamped.schema.keyspace k.name = none := by
    rw [← schema_replica, show stamped.replica = Replica.empty 0 from he]
    rfl
  have planned : stamped.run (Request.createKeyspace k n.clock.next).plan =
      (.ok ⟨[k.creation n.clock.next], []⟩, stamped) :=
    run_bind_eq_ok_iff.mpr ⟨(), stamped, Request.run_checkNewKeyspace hk absent, rfl⟩
  obtain ⟨n', ran, -, merged⟩ := (hs.withClock n.clock.read.2).run_of_plan planned net none
  have merged : n.replica.merge [k.creation n.clock.next] = .ok n'.replica := merged
  rw [he, hm] at merged
  exact ⟨n', (run_newKeyspace n net none k).trans ran, (Except.ok.inj merged).symm⟩

-- An update is made that nothing is in the way of.
theorem Steady.exists_update {ds : Definitions} {instants : List Int64} (hs : n.Steady)
    (htidy : Tag.IsTidy n.storage) (hv : t.validate = .ok () ∧ t.Keyed)
    (shown : n.schema.table t.keyspace t.name = some old) (hc : old.checkReplacement t = .ok ())
    (can : ∀ column ∈ old.droppedColumns t, n.CanDrop t column)
    (ht : n.replica.Tracks ds (n.clock.next :: instants))
    (hd : ∀ x ∈ instants, n.clock.next < x) (net : Network) :
    ∃ n', n.run ((Call.asks (.updateTable t)).run net none) = (.ok (), n') ∧
      n.Updates t old instants n' := by
  obtain ⟨batch, hb⟩ := exists_run_planUpdate hv.left shown hc can
  have planned : n.run (planUpdate t) = (.ok (old, batch), (n.run (planUpdate t)).2) :=
    Prod.ext hb rfl
  obtain ⟨d, drops, hp, rfl⟩ := run_planUpdate_eq_ok planned
  have hu := updates_updateTable hs.idle htidy planned hp hv.right ht hd net none
  obtain ⟨p, n₁, plan⟩ := Request.exists_run_plan_updateTable hv.left shown hc can
  obtain ⟨n', ran, -, -⟩ := hs.run_of_plan plan net none
  have made : (n.run (updateTable net t none)).2 = n' := congrArg Prod.snd ran
  exact ⟨n', ran, made ▸ hu⟩

end Node

namespace Course

open Node

variable {n₀ n : Node} {tally : Tally} {net : Network} {client : Option String} {call : Call}

theorem counted (h : Course n₀ n tally) (hs : n₀.Steady) (he : n₀.storage = ∅) :
    n.Counted tally ∧ Tag.Precede n.storage n.clock.next := by
  induction h
  case start =>
    refine ⟨⟨hs, he ▸ Tag.isTidy_empty, fun _ _ _ => Nat.zero_le _, fun _ _ _ => ?_⟩, ?_⟩
    · rw [he, ← Tag.load_value Tag.isTidy_empty, Tag.load_value_empty]
      rfl
    · exact he ▸ Tag.precede_empty _
  case calls n n' tally result _ net client call clock ran onward passed hi =>
    obtain ⟨h, before⟩ := hi
    -- Whatever is no update leaves records and tally as they are.
    have aside (hd : ∀ keyspace table column, call.drops n keyspace table column = false)
        (h' : n'.Counted tally)
        (kept : ∀ now, Tag.Precede n.storage now → Tag.Precede n'.storage now) :
        Counted (tally.after n call result) { n' with clock } ∧
          Tag.Precede n'.storage clock.next := by
      have same : tally.after n call result = tally := by
        funext keyspace table column
        simp [Tally.after, hd]
      rw [same]
      exact ⟨h'.withClock clock, kept _ (before.writes .refl onward nofun)⟩
    cases call
    case newKeyspace k =>
      rw [Call.run, run_newKeyspace n net client] at ran
      obtain ⟨h', kept⟩ := (h.withClock n.clock.read.2).run ran nofun
      exact aside (fun _ _ _ => rfl) h' kept
    case asks request =>
      by_cases hu : ∃ t, request = .updateTable t
      case pos =>
        obtain ⟨t, rfl⟩ := hu
        obtain ⟨h', kept⟩ := h.update before ran
        exact ⟨h'.withClock clock, kept _ onward passed⟩
      case neg =>
        obtain ⟨h', kept⟩ := h.run ran (not_exists.mp hu)
        refine aside (fun _ _ _ => ?_) h' kept
        cases request
        case updateTable t => exact absurd ⟨t, rfl⟩ hu
        all_goals rfl

theorem dropped_at_most_twice {address : Address} {config : Config} {metrics : String}
    {clock : Clock} {startedAt : Int} {parts : List NodePart}
    (started :
      (idle address config ∅ metrics clock startedAt).run (Node.start parts) = (.ok (), n₀))
    (h : Course n₀ n tally) (keyspace table column : String) :
    let drops := tally keyspace table
    drops column ≤ 2 ∧
    (Tag.load n.storage .columnDrop [keyspace, table, column]).value =
      Tag.afterDrops (drops column) ∧
    (drops column = 2 → ∀ t net client, n.CanReplace t → n.drops t keyspace table column = true →
      ∃ column' n', drops column' = 2 ∧ n.drops t keyspace table column' = true ∧
        n.run (updateTable net t client) =
          (.error (.tag (.permanentlyDropped (joinTarget [keyspace, table, column']))), n')) := by
  obtain ⟨steady, empty⟩ := Steady.of_start started
  obtain ⟨counted, -⟩ := h.counted steady (congrArg Replica.storage empty)
  have reads (column : String) :
      (Tag.load n.storage .columnDrop [keyspace, table, column]).value =
        Tag.afterDrops (tally keyspace table column) :=
    (Tag.load_value counted.tidy).trans (counted.records keyspace table column)
  refine ⟨counted.twice keyspace table column, reads column, fun twice t net client hc hd => ?_⟩
  obtain ⟨hv, old, shown, compatible⟩ := hc
  obtain ⟨rfl, rfl, _, shown', hm⟩ := drops_eq_true_iff.mp hd
  cases shown.symm.trans shown'
  have stuck : ¬n.CanDrop t column := by
    rintro ⟨value, next⟩
    obtain ⟨hlt, -⟩ := Tag.lt_two_of_next (reads column ▸ next)
    omega
  obtain ⟨column', hm', e, he, refused⟩ :=
    run_planUpdate_of_undroppable hv shown compatible ⟨column, hm, stuck⟩
  have twice' : tally t.keyspace t.name column' = 2 := by
    refine Nat.le_antisymm (counted.twice ..) (Nat.le_of_not_lt fun hlt => ?_)
    obtain ⟨value, next⟩ := Tag.exists_next_of_lt_two hlt
    rw [← reads, ← Tag.nextValue_eq_ok_iff rfl, he] at next
    cases next
  have hv' := reads column'
  rw [twice'] at hv'
  rw [Tag.nextValue_of_permanentDrop rfl hv'] at he
  cases he
  refine ⟨column', { n with clock := n.clock.read.2 }, twice',
    drops_eq_true_iff.mpr ⟨rfl, rfl, old, shown, hm'⟩, ?_⟩
  rw [updateTable_eq, run_bind, refused]
  rfl

-- A course has led to a node that shows the table and whose readings come to the instants.
structure Shows (n₀ n : Node) (tally : Tally) (t : Table) (instants : List Int64) : Prop where
  course    : Course n₀ n tally
  shown     : n.schema.table t.keyspace t.name = some t
  tracks    : ∃ ds, n.replica.Tracks ds instants
  next      : instants.head? = some n.clock.next
  ascending : instants.Pairwise (· < ·)

-- A keyspace is created first of all, on a node that has nothing stored.
theorem exists_shows {k : Keyspace} {t : Table} {r : Replica} {ds : Definitions} {now : Int64}
    {instants : List Int64} (hs : n₀.Steady) (he : n₀.replica = Replica.empty 0)
    (hk : k.validate = .ok ()) (hm : (Replica.empty 0).merge [k.creation n₀.clock.next] = .ok r)
    (hr : r.schema.table t.keyspace t.name = some t) (ht : r.Tracks ds (now :: instants))
    (ha : (n₀.clock.next :: now :: instants).Pairwise (· < ·)) :
    ∃ n tally, Shows n₀ n tally t (now :: instants) ∧
      ∀ keyspace table column, tally keyspace table column = 0 := by
  obtain ⟨hlt, hasc⟩ := List.pairwise_cons.mp ha
  have hlt : n₀.clock.next < now := hlt now List.mem_cons_self
  let net := Network.new 1 Network.defaultCapacity
  obtain ⟨n', ran, replica⟩ := hs.exists_newKeyspace he hk hm net
  have hnext : (⟨now, n₀.clock.next, 0⟩ : Clock).next = now := if_pos hlt
  refine ⟨{ n' with clock := ⟨now, n₀.clock.next, 0⟩ }, _,
    ⟨.calls .start net none (.newKeyspace k) ⟨now, n₀.clock.next, 0⟩ ran ?_ ?_,
      ?_, ⟨ds, replica ▸ ht⟩, ?_, hasc⟩, fun _ _ _ => rfl⟩
  · rw [hnext]
    exact Std.le_of_lt hlt
  · rw [hnext]
    exact fun _ => hlt
  · exact (congrArg (·.schema.table t.keyspace t.name) replica).trans hr
  · rw [hnext, List.head?_cons]

-- An update is made, if it is valid and no column that it drops has been dropped twice.
theorem Shows.update {t old : Table} {now later : Int64} {instants : List Int64}
    (h : Shows n₀ n tally old (now :: later :: instants)) (hs : n₀.Steady) (he : n₀.storage = ∅)
    (hv : t.validate = .ok () ∧ t.Keyed) (hc : old.checkReplacement t = .ok ())
    (hd : ∀ column ∈ old.droppedColumns t, tally t.keyspace t.name column < 2) :
    ∃ n' tally', Shows n₀ n' tally' t (later :: instants) ∧ ∀ column,
      tally' t.keyspace t.name column = tally t.keyspace t.name column +
        if column ∈ old.droppedColumns t then 1 else 0 := by
  obtain ⟨h', -⟩ := h.course.counted hs he
  have hnow : n.clock.next = now := (Option.some.inj h.next).symm
  obtain ⟨hlt, hasc⟩ := List.pairwise_cons.mp h.ascending
  have hlt' : now < later := hlt later List.mem_cons_self
  obtain ⟨hks, hname, -⟩ := Table.checkReplacement_eq_ok_iff.mp hc
  have hshown : n.schema.table t.keyspace t.name = some old := hks ▸ hname ▸ h.shown
  have can (column : String) (hm : column ∈ old.droppedColumns t) : n.CanDrop t column := by
    obtain ⟨value, next⟩ := Tag.exists_next_of_lt_two (hd column hm)
    rw [← h'.records, ← Tag.load_value h'.tidy] at next
    exact ⟨value, next⟩
  obtain ⟨ds, ht⟩ := h.tracks
  let net := Network.new 1 Network.defaultCapacity
  obtain ⟨n', ran, hu⟩ := h'.steady.exists_update h'.tidy hv hshown hc can (hnow.symm ▸ ht)
    (hnow.symm ▸ hlt) net
  have hnext : (⟨later, now, 0⟩ : Clock).next = later := if_pos hlt'
  refine ⟨{ n' with clock := ⟨later, now, 0⟩ }, _, ⟨.calls h.course net none
    (.asks (.updateTable t)) ⟨later, now, 0⟩ ran ?_ ?_, hu.shown, hu.tracks, ?_, hasc⟩, ?_⟩
  · rw [hnext, hnow]
    exact Std.le_of_lt hlt'
  · rw [hnext, hnow]
    exact fun _ => hlt'
  · rw [hnext, List.head?_cons]
  · intro column
    have hd : n.drops t t.keyspace t.name column = true ↔ column ∈ old.droppedColumns t := by
      simp [drops_eq_true_iff, hshown]
    simp only [Tally.after, Call.drops, Except.isOk, Except.toBool, Bool.true_and, hd]

-- A column is dropped, and then it is brought back.
theorem Shows.redrop {t old : Table} {i₁ i₂ i₃ : Int64} {instants : List Int64} {column : String}
    (h : Shows n₀ n tally old (i₁ :: i₂ :: i₃ :: instants)) (hs : n₀.Steady)
    (he : n₀.storage = ∅) (ht : t.validate = .ok () ∧ t.Keyed)
    (ho : old.validate = .ok () ∧ old.Keyed) (narrows : old.checkReplacement t = .ok ())
    (widens : t.checkReplacement old = .ok ()) (loses : old.droppedColumns t = [column])
    (keeps : t.droppedColumns old = []) (few : tally t.keyspace t.name column < 2) :
    ∃ n' tally', Shows n₀ n' tally' old (i₃ :: instants) ∧
      tally' t.keyspace t.name column = tally t.keyspace t.name column + 1 := by
  obtain ⟨hks, hname, -⟩ := Table.checkReplacement_eq_ok_iff.mp widens
  have once : ∀ column ∈ old.droppedColumns t, tally t.keyspace t.name column < 2 := by
    simpa [loses] using few
  obtain ⟨n₁, tally₁, shows₁, count₁⟩ := h.update hs he ht narrows once
  obtain ⟨n₂, tally₂, shows₂, count₂⟩ := shows₁.update hs he ho widens (by simp [keeps])
  refine ⟨n₂, tally₂, shows₂, ?_⟩
  have more := count₁ column
  rw [loses, if_pos List.mem_cons_self] at more
  have same := count₂ column
  rw [keeps, if_neg List.not_mem_nil, Nat.add_zero, hks, hname] at same
  rw [same, more]

-- The column has been dropped and brought back twice, and then it is to be dropped once more.
theorem dropped_at_most_twice_of_redrops :
    let base := (Table.new "app" "users" ⟨List.replicate 16 0, rfl⟩).withColumn
      ⟨"id", "UTF8Type", .partitionKey⟩
    let blank := idle (.v4 10 0 0 1) .standard ∅ "node" ⟨1, 0, 0⟩ 0
    let net := Network.new 1 Network.defaultCapacity
    ∃ n₀ n tally, blank.run (Node.start NodePart.all) = (.ok (), n₀) ∧ Course n₀ n tally ∧
      tally "app" "users" "email" = 2 ∧ n.CanReplace base ∧
      n.drops base "app" "users" "email" = true ∧
      (Tag.load n.storage .columnDrop ["app", "users", "email"]).value = some Tag.permanentDrop ∧
      ∃ column n', tally "app" "users" column = 2 ∧ n.run (updateTable net base none) =
        (.error (.tag (.permanentlyDropped (joinTarget ["app", "users", column]))), n') := by
  intro base blank net
  let users := base.withColumn ⟨"email", "UTF8Type", .regular⟩
  let app := (Keyspace.simple "app" 1).withTable users
  obtain ⟨r, hr, ⟨ds, ht⟩, hshown, -, hbase, husers, -⟩ :=
    exists_store_of_users [2000, 2001, 2002, 2003, 3000] (by simp)
  have hb : base.validate = .ok () ∧ base.Keyed := ⟨hbase, Table.keyed_new.withColumn _⟩
  have hu : users.validate = .ok () ∧ users.Keyed :=
    ⟨husers, (Table.keyed_new.withColumn _).withColumn _⟩
  have loses : users.droppedColumns base = ["email"] := by decide +kernel
  have keeps : base.droppedColumns users = [] := by decide +kernel
  have narrows : users.checkReplacement base = .ok () := by decide +kernel
  have widens : base.checkReplacement users = .ok () := by decide +kernel
  have shown : r.schema.table users.keyspace users.name = some users := hshown
  have valid : app.validate = .ok () := Keyspace.validate_withTable Request.validate_app husers rfl
  let n₀ := (blank.run (Node.start NodePart.all)).2
  have started : blank.run (Node.start NodePart.all) = (.ok (), n₀) :=
    run_eq_ok_of_toOption (by decide +kernel)
  have hclock : n₀.clock.next = 1 := by decide +kernel
  clear_value n₀
  obtain ⟨steady, empty⟩ := Steady.of_start started
  have stored : n₀.storage = ∅ := congrArg Replica.storage empty
  have hm : (Replica.empty 0).merge [app.creation n₀.clock.next] = .ok r := hclock ▸ hr
  have ascending : [n₀.clock.next, 2000, 2001, 2002, 2003, 3000].Pairwise (· < ·) := by
    rw [hclock]
    decide
  obtain ⟨n₁, tally₁, shows₁, never⟩ := exists_shows steady empty valid hm shown ht ascending
  have never : tally₁ "app" "users" "email" = 0 := never ..
  obtain ⟨n₂, tally₂, shows₂, once⟩ :=
    shows₁.redrop steady stored hb hu narrows widens loses keeps (never ▸ by decide)
  have once : tally₂ "app" "users" "email" = 1 := once.trans (congrArg (· + 1) never)
  obtain ⟨n, tally, shows, twice⟩ :=
    shows₂.redrop steady stored hb hu narrows widens loses keeps (once ▸ by decide)
  have twice : tally "app" "users" "email" = 2 := twice.trans (congrArg (· + 1) once)
  have hc : n.CanReplace base := ⟨hbase, users, shows.shown, narrows⟩
  have hd : n.drops base "app" "users" "email" = true :=
    drops_eq_true_iff.mpr ⟨rfl, rfl, users, shows.shown, by simp [loses]⟩
  obtain ⟨-, record, refuses⟩ := dropped_at_most_twice started shows.course "app" "users" "email"
  obtain ⟨column, n', twice', -, refused⟩ := refuses twice base net none hc hd
  exact ⟨n₀, n, tally, started, shows.course, twice, hc, hd,
    record.trans (congrArg Tag.afterDrops twice), column, n', twice', refused⟩

end Course
end ClusterMetadata
