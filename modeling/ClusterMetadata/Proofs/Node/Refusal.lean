import ClusterMetadata.Proofs.Node.Reasons
import ClusterMetadata.Proofs.Node.Turn

/-!
Changes that are refused. Whatever a change is checked against, all checks come before anything is
written, told or merged: the only traces are a reading of the clock and a ticket that nobody has
(`refused_run`). Of the columns that an update drops, one that cannot be dropped refuses them all.
-/

namespace ClusterMetadata

-- The change is not begun, because of what is asked for or because the node is shut down.
def Failure.IsRefusal : Failure → Prop
  | definition _        => True
  | tag _               => True
  | stage (.shutDown _) => True
  | _                   => False

namespace Node

variable {n n' : Node} {net : Network} {client : Option String} {t old : Table}
  {batch : List Mutation} {request : Request} {e : Failure}

-- Nothing has changed but for the readings of the clock and the tickets that have been drawn.
def Rested (n n' : Node) : Prop :=
  ∃ clock nextTicket, n' = { n with clock, nextTicket }

-- Where no step changes the node, the first one that fails is what comes of them all.
theorem exists_run_mapM_error {α β : Type} {f : α → NodeM β} {as : List α}
    (still : ∀ a, (n.run (f a)).2 = n) (h : ∃ a ∈ as, ∀ b, (n.run (f a)).1 ≠ .ok b) :
    ∃ a ∈ as, ∃ e, n.run (f a) = (.error e, n) ∧ n.run (as.mapM f) = (.error e, n) := by
  induction as
  case nil => simp at h
  case cons a as hi =>
    rw [List.mapM_cons, run_bind]
    have ha := still a
    cases hf : n.run (f a)
    case mk result n' =>
      obtain rfl : n' = n := by simpa [hf] using ha
      cases result
      case error e => exact ⟨a, List.mem_cons_self, e, hf, rfl⟩
      case ok b =>
        have hlater : ∃ a' ∈ as, ∀ b, (n'.run (f a')).1 ≠ .ok b := by
          obtain ⟨a', hm, hne⟩ := h
          rcases List.mem_cons.mp hm with rfl | hm
          · exact absurd (congrArg Prod.fst hf) (hne b)
          · exact ⟨a', hm, hne⟩
        obtain ⟨a', hm, e, he, hr⟩ := hi hlater
        refine ⟨a', List.mem_cons_of_mem a hm, e, he, ?_⟩
        dsimp only
        rw [run_bind, hr]

-- A column that cannot be dropped is in the way of all others.
theorem run_columnDrops_of_undroppable {dropped : List String}
    (hd : ∃ column ∈ dropped, ¬n.CanDrop t column) (timestamp : Int64) :
    ∃ column ∈ dropped, ∃ e,
      (Tag.load n.storage .columnDrop [t.keyspace, t.name, column]).nextValue = .error e ∧
      n.run (columnDrops t dropped timestamp) = (.error (.tag e), n) := by
  let tag (column : String) := Tag.load n.storage .columnDrop [t.keyspace, t.name, column]
  let step (column : String) : NodeM Mutation := do
    let p ← lift .tag ((tag column).add timestamp)
    return p.1
  have run_step_of_ok {column : String} {value : Bytes} (hv : (tag column).nextValue = .ok value) :
      n.run (step column) =
        (.ok (Tag.addition .columnDrop (tag column).target value timestamp), n) := by
    simp [step, Tag.add, hv]
    rfl
  have run_step_of_error {column : String} {e : TagError} (hv : (tag column).nextValue = .error e) :
      n.run (step column) = (.error (.tag e), n) := by
    simp [step, Tag.add, hv]
    rfl
  have still (column : String) : (n.run (step column)).2 = n := by
    cases hv : (tag column).nextValue
    case ok value => rw [run_step_of_ok hv]
    case error e  => rw [run_step_of_error hv]
  have stuck : ∃ column ∈ dropped, ∀ m, (n.run (step column)).1 ≠ .ok m := by
    obtain ⟨column, hcol, hn⟩ := hd
    refine ⟨column, hcol, fun m hm => hn ?_⟩
    cases hv : (tag column).nextValue
    case ok value => exact ⟨value, (Tag.nextValue_eq_ok_iff rfl).mp hv⟩
    case error e  => rw [run_step_of_error hv] at hm; cases hm
  obtain ⟨column, hcol, e, he, hr⟩ := exists_run_mapM_error still stuck
  cases hv : (tag column).nextValue
  case ok value => rw [run_step_of_ok hv] at he; cases he
  case error e' =>
    rw [run_step_of_error hv] at he
    cases he
    exact ⟨column, hcol, e', hv, hr⟩

-- An update that nothing else is in the way of is refused for such a column.
theorem run_planUpdate_of_undroppable (hv : t.validate = .ok ())
    (hs : n.schema.table t.keyspace t.name = some old) (hc : old.checkReplacement t = .ok ())
    (hd : ∃ column ∈ old.droppedColumns t, ¬n.CanDrop t column) :
    ∃ column ∈ old.droppedColumns t, ∃ e,
      (Tag.load n.storage .columnDrop [t.keyspace, t.name, column]).nextValue = .error e ∧
      n.run (planUpdate t) = (.error (.tag e), { n with clock := n.clock.read.2 }) := by
  let n₁ : Node := { n with clock := n.clock.read.2 }
  have ⟨column, hcol, e, he, hdrops⟩ := run_columnDrops_of_undroppable (n := n₁) hd n.clock.next
  refine ⟨column, hcol, e, he, ?_⟩
  have hvalid : n.run (lift (.definition ∘ .invalid) t.validate) = (.ok (), n) :=
    run_lift_eq_ok_iff.mpr ⟨hv, rfl⟩
  have ht : n.run (requireTable t.keyspace t.name) = (.ok old, n) :=
    run_bind_eq_ok_iff.mpr ⟨n, n, rfl, by rw [hs]; rfl⟩
  have hcompat : n.run (lift (.definition ∘ .incompatible) (old.checkReplacement t)) =
      (.ok (), n) :=
    run_lift_eq_ok_iff.mpr ⟨hc, rfl⟩
  have hr : n.run readClock = (.ok n.clock.next, n₁) := rfl
  have hdel : n₁.run (deletionAt n.clock.next) = (.ok ⟨n.clock.next, n₁.clock.seconds⟩, n₁) := rfl
  simp only [planUpdate, run_bind, hvalid, ht, hcompat, hr, hdel, hdrops]
  rfl

-- A plan only looks at the clock.
theorem exists_run_plan (n : Node) (request : Request) :
    ∃ clock, (n.run request.plan).2 = { n with clock } := by
  have reads : Keeps (fun n' => ∃ clock, n' = { n with clock }) request.plan := by
    refine request.keeps_plan ?_
    rintro _ ⟨clock, rfl⟩
    exact ⟨_, rfl⟩
  exact reads n ⟨n.clock, rfl⟩

-- Entries go out or do not go out, and the change is not undone.
theorem exists_run_audits (n : Node) (net : Network) (client : Option String)
    (entries : List (String × AuditKind × String)) :
    ∃ n', n.run (entries.forM fun (target, kind, value) => audit net target kind client value) =
      (.ok ⟨⟩, n') := by
  induction entries generalizing n
  case nil => exact ⟨n, rfl⟩
  case cons entry entries hi =>
    have sent : n.run (audit net entry.1 entry.2.1 client entry.2.2) = (.ok ⟨⟩, _) := run_quietly
    obtain ⟨n', h⟩ := hi _
    exact ⟨n', run_bind_eq_ok_iff.mpr ⟨_, _, sent, h⟩⟩

-- A request fails because its plan does, or because its batch is not merged.
theorem failed_run_request (hn : n.Cautious) (h : n.run (request.run net client) = (.error e, n')) :
    n.run request.plan = (.error e, n') ∨
      ∃ p n₀, n.run request.plan = (.ok p, n₀) ∧ n₀.Hears net p.batch (.error e) n' := by
  rw [Request.run_eq, run_bind] at h
  cases hp : n.run request.plan
  case mk result n₀ =>
    rw [hp] at h
    cases result
    case error e' =>
      cases h
      exact .inl rfl
    case ok p =>
      have hn₀ : n₀.Cautious :=
        (request.keeps_plan (keeps_readClock cautious_ignoresNotes)).of_run hn hp
      have hears := hears_announce hn₀.tickets net p.batch
      dsimp only at h
      rw [run_bind] at h
      cases ha : n₀.run (announce net p.batch)
      case mk result n₁ =>
        rw [ha] at h hears
        cases result
        case error e' =>
          cases h
          exact .inr ⟨p, n₀, rfl, hears⟩
        case ok =>
          have ⟨n₂, hs⟩ := exists_run_audits n₁ net client p.entries
          cases hs.symm.trans h

-- Nothing that refuses a change comes of a merge.
theorem Hears.eq_of_isRefusal (h : n.Hears net batch (.error e) n') (he : e.IsRefusal) :
    n' = { n with nextTicket := n.nextTicket + 1 } := by
  generalize hr : (Except.error e : Except Failure Unit) = result at h
  cases h
  case closed    => rfl
  case abandoned => cases hr; exact he.elim
  case merged =>
    generalize ((n.beforeMerge net batch).replica.attempt batch).2 = came at hr
    cases came
    case ok      => cases hr
    case error _ => cases hr; exact he.elim

theorem Cautious.rested (hn : n.Cautious) (h : n.run (request.run net client) = (.error e, n'))
    (he : e.IsRefusal) : n.Rested n' := by
  have ⟨clock, hplan⟩ := exists_run_plan n request
  rcases failed_run_request hn h with hp | ⟨p, n₀, hp, hears⟩
  case inl =>
    rw [hp] at hplan
    exact ⟨clock, n.nextTicket, hplan⟩
  case inr =>
    rw [hp] at hplan
    obtain rfl : n₀ = _ := hplan
    exact ⟨clock, n.nextTicket + 1, hears.eq_of_isRefusal he⟩

-- What becomes of a node: it acts, and what it shares with others changes under it.
inductive Evolves : Node → Node → Prop
  | acts {n n' : Node} (h : n.Acts n') : Evolves n n'
  | adjusted (n : Node) (storage : Storage) (observers : Observers Observer)
      (registry : Registry) (metrics : Metrics) :
      Evolves n { n with storage, observers, registry, metrics }

theorem Cautious.evolves (hn : n.Cautious) (h : n.Evolves n') : n'.Cautious := by
  cases h
  case acts h   => exact hn.acts h
  case adjusted storage observers registry metrics =>
    have changes : Submits (fun _ => False) (· ≠ n.address) n
        { n with storage, observers, registry, metrics } := .aside rfl rfl rfl rfl rfl
    exact hn.of_submits changes

theorem refused_run {address : Address} {config : Config} {storage : Storage} {metrics : String}
    {clock : Clock} {startedAt : Int} (net : Network) (client : Option String)
    (h : Relation.ReflTransGen Evolves (idle address config storage metrics clock startedAt) n) :
    (∀ {request : Request} {e n'}, n.run (request.run net client) = (.error e, n') → e.IsRefusal →
      n.Rested n') ∧
    ∀ {t old}, t.validate = .ok () → n.schema.table t.keyspace t.name = some old →
      old.checkReplacement t = .ok () →
      (∃ column ∈ old.droppedColumns t,
        (Tag.load n.storage .columnDrop [t.keyspace, t.name, column]).value =
          some Tag.permanentDrop) →
      ∃ e n', n.run (Node.updateTable net t client) = (.error (.tag e), n') ∧ n.Rested n' := by
  have hn : n.Cautious := by
    induction h
    case refl        => exact cautious_idle ..
    case tail _ h hi => exact hi.evolves h
  refine ⟨hn.rested, fun {t old} hv hs hc ⟨column, hcol, hp⟩ => ?_⟩
  have stuck : ¬n.CanDrop t column := by
    rintro ⟨value, next⟩
    exact Tag.not_next_permanentDrop (hp ▸ next)
  obtain ⟨-, -, e, -, hplan⟩ := run_planUpdate_of_undroppable hv hs hc ⟨column, hcol, stuck⟩
  have refused : n.run ((Request.updateTable t).run net client) =
      (.error (.tag e), { n with clock := n.clock.read.2 }) := by
    rw [Request.run, updateTable_eq, run_bind, hplan]
  exact ⟨e, _, refused, hn.rested refused trivial⟩

-- Of the two columns that the update drops the last one has been dropped for good.
theorem refused_run_of_permanentDrop :
    let net := Network.new 1 Network.defaultCapacity
    let base := (Table.new "app" "users" ⟨List.replicate 16 0, rfl⟩).withColumn
      ⟨"id", "UTF8Type", .partitionKey⟩
    let users := (base.withColumn ⟨"email", "UTF8Type", .regular⟩).withColumn
      ⟨"phone", "UTF8Type", .regular⟩
    let app := (Keyspace.simple "app" 1).withTable users
    let record := Tag.addition .columnDrop "app.users.phone" Tag.permanentDrop 2
    let n₀ := idle (.v4 10 0 0 1) .standard ∅ "node" ⟨1000, 0, 0⟩ 0
    let n := (n₀.run ((Activity.merges [app.creation 1, record]).run net)).2
    let request := Request.updateTable base
    Relation.ReflTransGen Evolves n₀ n ∧ base.validate = .ok () ∧
      n.schema.table "app" "users" = some users ∧ users.checkReplacement base = .ok () ∧
      users.droppedColumns base = ["email", "phone"] ∧
      (Tag.load n.storage .columnDrop ["app", "users", "phone"]).value = some Tag.permanentDrop ∧
      ∃ e n', n.run (request.run net none) = (.error (.tag e), n') ∧ Failure.IsRefusal (.tag e) ∧
        n.Rested n' := by
  intro net base users app record n₀ n request
  have h : Relation.ReflTransGen Evolves n₀ n :=
    .single (.acts (.does n₀ net trivial))
  have valid : base.validate = .ok () := by
    have named : ∀ name ∈ ["app", "users", "id"], ∀ what, checkName what name = .ok () := by
      simp [checkName, isName, isNameChar, maxNameLength]
      decide
    refine Table.validate_withColumn (Table.validate_new.mpr ⟨?_, ?_⟩) (seq_eq_ok_iff.mpr ⟨?_, rfl⟩)
    all_goals exact named _ (by simp) _
  have shown : n.schema.table "app" "users" = some users := by decide +kernel
  have compatible : users.checkReplacement base = .ok () := by decide +kernel
  have dropped : users.droppedColumns base = ["email", "phone"] := by decide +kernel
  have permanent : (Tag.load n.storage .columnDrop ["app", "users", "phone"]).value =
      some Tag.permanentDrop := by decide +kernel
  obtain ⟨rests, refuses⟩ := refused_run net none h
  have last : "phone" ∈ users.droppedColumns base := by simp [dropped]
  obtain ⟨e, n', refused, -⟩ := refuses valid shown compatible ⟨"phone", last, permanent⟩
  have refused : n.run (request.run net none) = (.error (.tag e), n') := refused
  exact ⟨h, valid, shown, compatible, dropped, permanent, e, n', refused, trivial,
    rests refused trivial⟩

end Node
end ClusterMetadata
