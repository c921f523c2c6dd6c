import ClusterMetadata.Proofs.Node.Aside
import ClusterMetadata.Proofs.Node.Pulls
import ClusterMetadata.Proofs.Node.Stage

/-!
What a node submits. Of all that a node does, only hearing of a member, a delayed pull that fires
and a reset submit pulls. Everything else takes pulls further and leaves it at that. Whoever waits
for a pull or for a merge has a ticket of his own, and what the node shows under a name has that
name.
-/

namespace ClusterMetadata

def Job.IsPull : Job → Prop
  | pull _ _ => True
  | _        => False

namespace Node

-- Submits a job that somebody waits for.
def submit (job : Nat → Job) : NodeM Nat := do
  let ticket ← newTicket
  execute .migration (job ticket)
  return ticket

theorem run_submit (n : Node) (job : Nat → Job) : n.run (submit job) =
    match n.migration.execute (job n.nextTicket) with
    | .ok stage => (.ok n.nextTicket, { n with nextTicket := n.nextTicket + 1, migration := stage })
    | .error e  => (.error (.stage e), { n with nextTicket := n.nextTicket + 1 }) := by
  let n₁ : Node := { n with nextTicket := n.nextTicket + 1 }
  change n₁.run (execute .migration (job n.nextTicket) >>= fun _ => pure n.nextTicket) = _
  rw [run_bind, run_execute, stage]
  cases n.migration.execute (job n.nextTicket) <;> rfl

theorem announce_eq (net : Network) (batch : List Mutation) : announce net batch = (do
    let ticket ← submit (.merge batch)
    quietly (broadcast net batch)
    runStage net .migration
    discard (await ticket (.stage (.abandoned (← get).migration.name)))) := by
  simp only [announce, submit, bind_assoc, pure_bind]

-- The pull is queued, with a worker, or waits for its response.
inductive HasPull (n : Node) (peer : Address) (ticket : Nat) : Prop
  | onStage (name : StageName)
      (mem : .pull peer ticket ∈ (n.stage name).queue ++ (n.stage name).running)
  | requested (id : String) (waits : n.messenger.waiting[id]? = some ⟨peer, ticket⟩)

-- A job or a request that waits has the ticket, or something has come of it.
inductive Knows (n : Node) (ticket : Nat) : Prop
  | onStage {job : Job} (name : StageName)
      (mem : job ∈ (n.stage name).queue ++ (n.stage name).running)
      (has : job.ticket? = some ticket)
  | requested {request : PullRequest} (id : String)
      (waits : n.messenger.waiting[id]? = some request) (has : request.ticket = ticket)
  | settled (found : ticket ∈ n.outcomes)

theorem HasPull.knows {n : Node} {peer : Address} {ticket : Nat} (h : n.HasPull peer ticket) :
    n.Knows ticket := by
  cases h
  case onStage name mem   => exact .onStage name mem rfl
  case requested id waits => exact .requested id waits rfl

-- The job pulls from the member, under the ticket.
def isPull (peer : Address) (ticket : Nat) : Job → Bool
  | .pull peer' ticket' => peer' = peer ∧ ticket' = ticket
  | _                   => false

theorem HasPull.of_any {n : Node} {peer : Address} {ticket : Nat}
    (h : n.migration.queue.any (isPull peer ticket) = true) : n.HasPull peer ticket := by
  obtain ⟨job, hm, hj⟩ := List.any_eq_true.mp h
  cases job
  case pull peer' ticket' =>
    obtain ⟨rfl, rfl⟩ := of_decide_eq_true hj
    exact .onStage .migration (List.mem_append_left _ hm)
  all_goals cases hj

-- What there is to do, and what has come of what there was to do.
def agenda (n : Node) : (StageName → List Job) × SortedMap String PullRequest ×
    SortedMap Nat (Except Failure MergeReport) :=
  (fun name => (n.stage name).queue ++ (n.stage name).running, n.messenger.waiting, n.outcomes)

section

variable {n n' : Node} {peer : Address} {ticket : Nat}

theorem HasPull.of_agenda (h : n'.HasPull peer ticket) (ha : n'.agenda = n.agenda) :
    n.HasPull peer ticket := by
  simp only [agenda, Prod.mk.injEq] at ha
  cases h
  case onStage name mem   => exact .onStage name (congrFun ha.left name ▸ mem)
  case requested id waits => exact .requested id (ha.right.left ▸ waits)

theorem Knows.of_agenda (h : n'.Knows ticket) (ha : n'.agenda = n.agenda) : n.Knows ticket := by
  simp only [agenda, Prod.mk.injEq] at ha
  cases h
  case onStage name mem has   => exact .onStage name (congrFun ha.left name ▸ mem) has
  case requested id waits has => exact .requested id (ha.right.left ▸ waits) has
  case settled found          => exact .settled (ha.right.right ▸ found)

end

-- The node has come from the other one, and on the way pulls were submitted, or put off, from
-- these members only. Tickets were new, and what is shown under a name has the name if it had
-- before.
structure Submits (submitted deferred : Address → Prop) (n n' : Node) : Prop where
  address  : n'.address = n.address
  tickets  : n.nextTicket ≤ n'.nextTicket
  knows    : ∀ {ticket}, n'.Knows ticket →
    n.Knows ticket ∨ n.nextTicket ≤ ticket ∧ ticket < n'.nextTicket
  pulls    : ∀ {peer ticket}, n'.HasPull peer ticket →
    n.HasPull peer ticket ∨ submitted peer ∧ n.nextTicket ≤ ticket
  deferred : ∀ {t peer}, t ∈ n'.timers.entries → t.task = .delayedPull peer →
    t ∈ n.timers.entries ∨ deferred peer
  names    : Definitions.Consistent n.schema.keyspaces → Definitions.Consistent n'.schema.keyspaces

namespace Submits

variable {submitted deferred : Address → Prop} {n n₁ n₂ n' : Node} {message : Inbound}
  {name : StageName} {job : Job} {peer : Address} {ticket : Nat}

theorem of_agenda (h : n'.agenda = n.agenda) (ha : n'.address = n.address)
    (ht : n'.timers = n.timers) (hk : n.nextTicket ≤ n'.nextTicket)
    (hn : Definitions.Consistent n.schema.keyspaces → Definitions.Consistent n'.schema.keyspaces) :
    Submits submitted deferred n n' where
  address       := ha
  tickets       := hk
  knows h'      := .inl (h'.of_agenda h)
  pulls h'      := .inl (h'.of_agenda h)
  deferred hm _ := .inl (ht ▸ hm)
  names         := hn

theorem aside (h : n'.agenda = n.agenda) (ha : n'.address = n.address) (ht : n'.timers = n.timers)
    (hk : n'.nextTicket = n.nextTicket) (hs : n'.schema = n.schema) :
    Submits submitted deferred n n' :=
  of_agenda h ha ht (Nat.le_of_eq hk.symm) (hs ▸ id)

theorem refl (n : Node) : Submits submitted deferred n n := aside rfl rfl rfl rfl rfl

theorem trans (h : Submits submitted deferred n n₁) (h' : Submits submitted deferred n₁ n₂) :
    Submits submitted deferred n n₂ where
  address := h'.address.trans h.address
  tickets := Nat.le_trans h.tickets h'.tickets
  knows hk := by
    rcases h'.knows hk with hk | ⟨hl, hu⟩
    · exact (h.knows hk).imp_right fun ⟨hl, hu⟩ => ⟨hl, Nat.lt_of_lt_of_le hu h'.tickets⟩
    · exact .inr ⟨Nat.le_trans h.tickets hl, hu⟩
  pulls hp := by
    rcases h'.pulls hp with hp | ⟨hs, hl⟩
    · exact h.pulls hp
    · exact .inr ⟨hs, Nat.le_trans h.tickets hl⟩
  deferred hm ht := (h'.deferred hm ht).elim (h.deferred · ht) .inr
  names    := h'.names ∘ h.names

-- The jobs of a stage are those that it had, and others. Their tickets are known from the
-- beginning, or new.
theorem setStage (h : Submits submitted deferred n n₁) {stage : Stage Job}
    (hq : ∀ job ∈ stage.queue ++ stage.running,
      job ∈ (n₁.stage name).queue ++ (n₁.stage name).running ∨
        (∀ ticket, job.ticket? = some ticket →
          n.Knows ticket ∨ n.nextTicket ≤ ticket ∧ ticket < n₁.nextTicket) ∧
        ∀ peer ticket, job = .pull peer ticket → submitted peer ∧ n.nextTicket ≤ ticket) :
    Submits submitted deferred n (n₁.setStage stage name) := by
  have he (other : StageName) :
      (n₁.setStage stage name).stage other = if other = name then stage else n₁.stage other :=
    stage_setStage n₁ stage name other
  have hm : (n₁.setStage stage name).messenger = n₁.messenger := by cases name <;> rfl
  have ho : (n₁.setStage stage name).outcomes = n₁.outcomes := by cases name <;> rfl
  have hk : (n₁.setStage stage name).nextTicket = n₁.nextTicket := by cases name <;> rfl
  refine ⟨?_, hk ▸ h.tickets, fun hk' => hk ▸ ?_, fun hp => ?_, fun hm => h.deferred ?_, ?_⟩
  case refine_1 => cases name <;> exact h.address
  case refine_2 =>
    cases hk'
    case requested id waits has => exact h.knows (.requested id (hm ▸ waits) has)
    case settled found          => exact h.knows (.settled (ho ▸ found))
    case onStage job other mem has =>
      rw [he] at mem
      split at mem
      case isFalse => exact h.knows (.onStage other mem has)
      case isTrue =>
        rcases hq _ mem with mem | ⟨known, -⟩
        · exact h.knows (.onStage name mem has)
        · exact known _ has
  case refine_3 =>
    cases hp
    case requested id waits => exact h.pulls (.requested id (hm ▸ waits))
    case onStage other mem =>
      rw [he] at mem
      split at mem
      case isFalse => exact h.pulls (.onStage other mem)
      case isTrue =>
        rcases hq _ mem with mem | ⟨-, pulls⟩
        · exact h.pulls (.onStage name mem)
        · exact .inr (pulls _ _ rfl)
  case refine_4 => cases name <;> exact hm
  case refine_5 => cases name <;> exact h.names

theorem admits (n : Node) : IgnoresTalk (Submits submitted deferred n) where
  watches _ _ _ h := h.trans (aside rfl rfl rfl rfl rfl)
  draws _ h       := h.trans (aside rfl rfl rfl rfl rfl)
  emits _ _ _ h   := h.trans (aside rfl rfl rfl rfl rfl)

section

variable (n : Node)

theorem keeps_queryRegistry (target : String) (kind : AuditKind) :
    Keeps (Submits submitted deferred n) (queryRegistry target kind) :=
  keeps_modifyGet fun _ h => h.trans (aside rfl rfl rfl rfl rfl)

theorem keeps_announceEntry (net : Network) (target : String) (kind : AuditKind)
    (client value : String) :
    Keeps (Submits submitted deferred n) (announceEntry net target kind client value) :=
  Node.keeps_announceEntry (admits n) tellsDefinitions_true (keeps_queryRegistry n target kind) net
    client value

-- What comes of a ticket that is known.
theorem keeps_settle (hk : n.Knows ticket) (result : Except Failure MergeReport) :
    Keeps (Submits submitted deferred n) (settle ticket result) := by
  refine fun n₁ h => ⟨h.address, h.tickets, fun hk' => ?_, fun hp => ?_, h.deferred, h.names⟩
  · cases hk'
    case onStage name mem has   => exact h.knows (.onStage name mem has)
    case requested id waits has => exact h.knows (.requested id waits has)
    case settled found =>
      rcases Std.ExtTreeMap.mem_insertIfNew.mp found with he | found
      · exact .inl (Std.LawfulEqOrd.eq_of_compare he ▸ hk)
      · exact h.knows (.settled found)
  · cases hp
    case onStage name mem   => exact h.pulls (.onStage name mem)
    case requested id waits => exact h.pulls (.requested id waits)

theorem keeps_merge (batch : List Mutation) :
    Keeps (Submits submitted deferred n) (merge batch) := by
  refine Node.keeps_merge (admits n) (fun _ => trivial)
    (fun _ _ h => h.trans (aside rfl rfl rfl rfl rfl)) fun n₁ h => ?_
  have hn (hc : Definitions.Consistent n₁.schema.keyspaces) :
      Definitions.Consistent (n₁.replica.attempt batch).1.schema.keyspaces :=
    Replica.consistent_attempt hc batch
  exact h.trans (of_agenda rfl rfl rfl (Nat.le_refl _) hn)

theorem keeps_execute (hj : ¬job.IsPull)
    (hk : ∀ ticket, job.ticket? = some ticket → n.Knows ticket) :
    Keeps (Submits submitted deferred n) (execute name job) := by
  intro n₁ h
  rw [run_execute]
  split
  case h_1 stage hx =>
    obtain ⟨-, rfl⟩ := Stage.execute_eq_ok_iff.mp hx
    refine h.setStage fun job' hm => ?_
    simp only [List.mem_append, List.mem_singleton] at hm ⊢
    rcases hm with (hm | rfl) | hm
    · exact .inl (.inl hm)
    · refine .inr ⟨fun ticket ht => .inl (hk ticket ht), ?_⟩
      rintro peer ticket rfl
      exact absurd trivial hj
    · exact .inl (.inr hm)
  case h_2 => exact h

theorem keeps_finishJob (name : StageName) :
    Keeps (Submits submitted deferred n) (finishJob name) := by
  refine fun n₁ h => h.setStage fun job hm => .inl ?_
  rw [Stage.finish] at hm
  split at hm
  case isTrue  => exact (((List.eraseIdx_sublist ..).append_left _).subset hm)
  case isFalse => exact hm

-- A request that is claimed does not wait any more.
theorem claim (id : String) :
    Submits submitted deferred n { n with messenger := (n.messenger.claim id).2 } := by
  have waits {id' : String} {request : PullRequest}
      (h : (n.messenger.claim id).2.waiting[id']? = some request) :
      n.messenger.waiting[id']? = some request := by
    rw [Messenger.claim, Std.ExtTreeMap.getElem?_erase] at h
    split at h
    case isTrue  => cases h
    case isFalse => exact h
  refine ⟨rfl, Nat.le_refl _, fun hk => .inl ?_, fun hp => .inl ?_, fun hm _ => .inl hm, fun h => h⟩
  · cases hk
    case onStage name mem has => exact .onStage name mem has
    case requested id' h has  => exact .requested id' (waits h) has
    case settled found        => exact .settled found
  · cases hp
    case onStage name mem => exact .onStage name mem
    case requested id' h  => exact .requested id' (waits h)

theorem keeps_handleResponse (message : Inbound) (id : String) :
    Keeps (Submits submitted deferred n) (handleResponse message id) := by
  refine fun n₁ h => h.trans (holds_handleResponse (claim n₁ id) fun request waits => ?_)
  have known : n₁.Knows request.ticket := .requested id waits rfl
  refine keeps_mergeResponse (keeps_settle n₁ known) fun batch => keeps_execute n₁ nofun ?_
  rintro _ ⟨⟩
  exact known

theorem handling : Handling (Submits submitted deferred n) where
  talks       := admits n
  asks        := keeps_queryRegistry n
  applies _ _ := fun h => h.trans (aside rfl rfl rfl rfl rfl)
  merges      := keeps_merge n
  responds    := keeps_handleResponse n

-- A timer is set, unless timers are shut down.
theorem schedule {delay : Nat} {alarm : Alarm}
    (hd : ∀ peer, alarm = .delayedPull peer → deferred peer) :
    Submits submitted deferred n (n.run (schedule delay alarm)).2 := by
  refine ⟨rfl, Nat.le_refl _, fun h => .inl (h.of_agenda rfl), fun h => .inl (h.of_agenda rfl),
    fun {t peer} hm ht => ?_, id⟩
  change t ∈ (n.timers.schedule _ _ alarm).entries at hm
  rw [Timers.schedule] at hm
  split at hm
  case isTrue => exact .inl hm
  case isFalse =>
    rcases List.mem_append.mp hm with hm | hm
    · exact .inl hm
    · cases List.mem_singleton.mp hm
      exact .inr (hd peer ht)

-- The request of a pull under way is registered; that it expires is no delayed pull.
theorem requestPull (h : n.HasPull peer ticket) :
    Submits submitted deferred n (n.run (requestPull peer ticket)).2 := by
  have registers : Submits submitted deferred n { n with
      messenger := n.messenger.fresh.2.await n.messenger.fresh.1 ⟨peer, ticket⟩
      outbox := n.outbox ++ [.send peer n.messenger.fresh.1 (.plain .migrationRequest [])] } := by
    have waits {id : String} {request : PullRequest}
        (h : (n.messenger.waiting.insert n.messenger.fresh.1 ⟨peer, ticket⟩)[id]? = some request) :
        request = ⟨peer, ticket⟩ ∨ n.messenger.waiting[id]? = some request := by
      rw [Std.ExtTreeMap.getElem?_insert] at h
      split at h
      case isTrue  => exact .inl (Option.some.inj h).symm
      case isFalse => exact .inr h
    refine ⟨rfl, Nat.le_refl _, fun hk => .inl ?_, fun hp => .inl ?_, fun hm _ => .inl hm,
      fun h => h⟩
    · cases hk
      case onStage name mem has => exact .onStage name mem has
      case settled found        => exact .settled found
      case requested request id hw has =>
        rcases waits hw with rfl | hw
        · exact has ▸ h.knows
        · exact .requested id hw has
    · cases hp
      case onStage name mem => exact .onStage name mem
      case requested id hw =>
        rcases waits hw with he | hw
        · cases he
          exact h
        · exact .requested id hw
  exact registers.trans (schedule _ fun _ h => by cases h)

-- A worker does a job that the node has.
theorem runJob (net : Network)
    (hk : ∀ ticket, job.ticket? = some ticket → n.Knows ticket)
    (hp : ∀ peer ticket, job = .pull peer ticket → n.HasPull peer ticket) :
    Submits submitted deferred n (n.run (runJob net job)).2 := by
  cases job
  case inbound message id arrived =>
    have hc : Keeps (Submits submitted deferred n) (countDropped message.verb) :=
      fun _ h => h.trans (aside rfl rfl rfl rfl rfl)
    exact (((handling n).handle net message id).runInbound hc arrived).map _ n (refl n)
  case merge batch ticket =>
    have known := hk ticket rfl
    exact ((keeps_merge n batch).outcome.bind fun _ => keeps_settle n known _) n (refl n)
  case pull peer ticket => exact requestPull n (hp peer ticket rfl)

theorem runNext (net : Network) (name : StageName) :
    Submits submitted deferred n (n.run (runNext net name)).2 := by
  rw [Node.runNext, run_bind, run_takeJob]
  cases ht : (n.stage name).take
  case none => exact refl n
  case some taken =>
    obtain ⟨job, stage⟩ := taken
    obtain ⟨-, queue, hq, rfl⟩ := Stage.take_eq_some_iff.mp ht
    let n₁ := n.setStage { n.stage name with
      queue, running := (n.stage name).running ++ [job] } name
    have takes : Submits submitted deferred n n₁ := by
      refine (refl n).setStage fun job' hm => .inl ?_
      rw [hq]
      simp only [List.mem_append, List.mem_cons, List.not_mem_nil] at hm ⊢
      tauto
    have has : job ∈ (n₁.stage name).queue ++ (n₁.stage name).running := by
      have hs : n₁.stage name = { n.stage name with
          queue, running := (n.stage name).running ++ [job] } :=
        (stage_setStage n _ name name).trans (if_pos rfl)
      rw [hs]
      simp
    refine takes.trans (holds_bind (runJob n₁ net ?_ ?_) fun _ => keeps_finishJob _ name)
    · exact fun ticket h => .onStage name has h
    · rintro peer ticket rfl
      exact .onStage name has

end

section

variable (n : Node) (net : Network)

theorem keeps_runStage (name : StageName) :
    Keeps (Submits submitted deferred n) (runStage net name) :=
  .runStage fun n₁ h => h.trans (runNext n₁ net name)

theorem keeps_broadcast (batch : List Mutation) :
    Keeps (Submits submitted deferred n) (broadcast net batch) :=
  Node.keeps_broadcast (admits n) (tellsDefinitions_true batch) net

-- A job that is submitted has a ticket of its own. A closed stage does not take it.
theorem submit {job : Nat → Job} (ht : ∀ ticket, (job ticket).ticket? = some ticket)
    (hs : ∀ peer ticket ticket', job ticket = .pull peer ticket' → submitted peer) :
    Submits submitted deferred n (n.run (submit job)).2 := by
  rw [run_submit]
  split
  case h_2 => exact of_agenda rfl rfl rfl (Nat.le_succ _) fun h => h
  case h_1 stage hx =>
    obtain ⟨-, rfl⟩ := Stage.execute_eq_ok_iff.mp hx
    let n₁ : Node := { n with nextTicket := n.nextTicket + 1 }
    have draws : Submits submitted deferred n n₁ :=
      of_agenda rfl rfl rfl (Nat.le_succ _) fun h => h
    refine (draws.setStage fun job' hm => ?_ : Submits _ _ _ (n₁.setStage _ .migration))
    simp only [List.mem_append, List.mem_singleton] at hm ⊢
    rcases hm with (hm | rfl) | hm
    · exact .inl (.inl hm)
    · refine .inr ⟨fun ticket h => .inr ?_, fun peer ticket h => ⟨hs peer _ _ h, ?_⟩⟩
      · cases (ht _).symm.trans h
        exact ⟨Nat.le_refl _, Nat.lt_succ_self _⟩
      · have h := congrArg Job.ticket? h
        rw [ht] at h
        exact Nat.le_of_eq (Option.some.inj h)
    · exact .inl (.inr hm)

theorem keeps_announce (batch : List Mutation) :
    Keeps (Submits submitted deferred n) (announce net batch) := by
  have submits : Keeps (Submits submitted deferred n) (Node.submit (.merge batch)) :=
    fun n₁ h => h.trans (submit n₁ (fun _ => rfl) nofun)
  rw [announce_eq]
  exact submits.bind fun ticket => (keeps_broadcast n net batch).quietly.bind fun _ =>
    (keeps_runStage n net _).bind fun _ => keeps_get.bind fun _ => (keeps_await _ _).map _

theorem keeps_audit (target : String) (kind : AuditKind) (client : Option String)
    (value : String) : Keeps (Submits submitted deferred n) (audit net target kind client value) :=
  Node.keeps_audit (admits n) tellsDefinitions_true (keeps_queryRegistry n target kind) net client
    value

end

section

variable (n : Node) {net : Network} {theirs : Uuid}

-- A pull that a closed stage does not take is not submitted.
theorem keeps_submitPull (hs : submitted peer) :
    Keeps (Submits submitted deferred n) (submitPull peer) := by
  refine fun n₁ h => h.trans (submit n₁ (fun _ => rfl) ?_)
  rintro _ _ _ ⟨⟩
  exact hs

theorem considerPull {now : Int}
    (h : n.schema.version ≠ theirs → net.isPullSource peer → submitted peer ∧ deferred peer) :
    Submits submitted deferred n (n.run (considerPull net theirs peer now)).2 := by
  rw [Node.considerPull, run_bind, run_get]
  dsimp only
  split
  case isTrue => exact refl n
  case isFalse hv =>
    split
    case isTrue => exact refl n
    case isFalse hs =>
      have ⟨hs, hd⟩ := h hv (by simpa using hs)
      split
      case isTrue =>
        exact ((keeps_submitPull n hs).quietly.bind fun _ => keeps_pure _) n (refl n)
      case isFalse => exact (schedule n fun _ h => by cases h; exact hd)

theorem firePull (h : net.isAlive peer → net.isPullSource peer →
      ∀ theirs, net.schema peer = some theirs → theirs ≠ n.schema.version → submitted peer) :
    Submits submitted deferred n (n.run (firePull net peer)).2 := by
  rw [Node.firePull]
  split
  case isFalse => exact refl n
  case isTrue hs =>
    split
    case h_2 => exact refl n
    case h_1 theirs ht =>
      rw [run_bind, run_get]
      dsimp only
      split
      case isFalse => exact refl n
      case isTrue hv =>
        exact (keeps_submitPull n (h hs.left hs.right theirs ht hv)).quietly n (refl n)

theorem keeps_expire (id : String) : Keeps (Submits submitted deferred n) (expire id) :=
  fun n₁ h => h.trans (holds_expire (claim n₁ id) fun _ waits =>
    keeps_settle n₁ (.requested id waits rfl))

theorem startReset (h : ∀ peer ∈ net.live, peer ≠ n.address → net.isPullSource peer →
      submitted peer) : Submits submitted deferred n (n.run (startReset net)).2 := by
  have clears : Keeps (Submits submitted deferred n) clearSchema := by
    refine keeps_replace (fun n₁ cleared hc h => h.trans ?_) fun _ _ => keeps_pure _
    obtain ⟨storage, -, hc⟩ := bind_eq_ok_iff.mp hc
    cases hc
    exact of_agenda rfl rfl rfl (Nat.le_refl _) fun _ => Definitions.consistent_empty
  refine (clears.bind fun _ => keeps_get.bind fun _ => (keeps_advertise (admits n) trivial).bind
    fun _ => keeps_get_bind fun n₁ hn => ?_) n (refl n)
  dsimp only
  split
  case h_2 => exact hn
  case h_1 peer hf =>
    obtain ⟨hp, hs⟩ : peer ≠ n₁.address ∧ net.isPullSource peer := by
      simpa using List.find?_some hf
    have hm := h peer (List.mem_of_find?_eq_some hf) (hn.address ▸ hp) hs
    exact ((keeps_submitPull n hm).bind fun _ => keeps_pure _) n₁ hn

end

end Submits

end Node
end ClusterMetadata
