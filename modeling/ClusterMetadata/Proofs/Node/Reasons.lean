import ClusterMetadata.Proofs.Node.Request
import ClusterMetadata.Proofs.Node.Submission
import Mathlib.Logic.Relation

/-!
Why a node pulls. Between the moment at which a pull is put off and the moment at which it is
submitted anything can happen to the node and to the network, and there are three ways to come by a
pull. Whichever it was, at the moment of its submission the pull is called for
(`pulls_justified`).
-/

namespace ClusterMetadata

-- The event tells that the member has the version. Of a member that joins the version is looked up.
inductive MemberEvent.Tells (net : Network) (peer : Address) (version : Uuid) : MemberEvent → Prop
  | joined (known : net.schema peer = some version) : Tells net peer version (joined peer)
  | advertised : Tells net peer version (advertised peer version)
  | revived : Tells net peer version (revived peer (some version))

inductive Activity where
  | starts (parts : List NodePart)
  -- The node is told of a member, or the text that a member advertises as its version.
  | hears (event : MemberEvent)
  | hearsText (peer : Address) (text : String)
  -- Some of the timers go off, the others stay.
  | fires (due rest : List (Timer Alarm))
  | resets
  -- Messages arrive, and workers work.
  | receives (message : Inbound) (id : String)
  | works (name : StageName)
  | merges (batch : List Mutation)
  | changes (request : Request) (client : Option String)
  | registers (target : String) (kind : AuditKind) (tag : String)
  | unregisters (target : String)
  | announces (target : String) (kind : AuditKind) (client value : String)
  | writes (batch : List Mutation) (answer : Except Failure Unit)
  -- Time passes, and what has gone out is gone.
  | waits (clock : Clock)
  | shutsDown

namespace Activity

open Node

def run (net : Network) : Activity → NodeM Unit
  | starts parts               => start parts
  | hears event                => hear net event
  | hearsText peer text        => hearAdvertised net peer text
  | fires due rest             => do
    modify fun n => { n with timers := { n.timers with entries := rest } }
    due.forM fun t => fire net t.task
  | resets                     => discard (startReset net)
  | receives message id        => receive message id
  | works name                 => runNext net name
  | merges batch               => discard (merge batch)
  | changes request client     => request.run net client
  | registers target kind tag  => updateRegistry net target kind tag
  | unregisters target         => dropRegistry net target
  | announces target kind client value =>
    discard (announceEntry net target kind client value)
  | writes batch answer        => executeBatch net batch answer
  | waits clock                => modify ({ · with clock, outbox := [], notes := [] })
  | shutsDown                  => shutdown

-- Only timers that are set can go off.
def Possible (n : Node) : Activity → Prop
  | fires due rest => n.timers.entries.Perm (due ++ rest)
  | _              => True

-- What calls for a pull from the member: that it has another version than the node, as the node
-- has just been told or as it now finds out, or that the node resets.
inductive Reason (net : Network) (n : Node) (peer : Address) : Activity → Prop
  | told {event : MemberEvent} {theirs : Uuid} (tells : event.Tells net peer theirs)
      (differs : theirs ≠ n.schema.version) : Reason net n peer (hears event)
  | read {text : String} {theirs : Uuid} (parses : Uuid.parse? text = some theirs)
      (differs : theirs ≠ n.schema.version) : Reason net n peer (hearsText peer text)
  | fired {due rest : List (Timer Alarm)} {theirs : Uuid} (putOff : ∃ t ∈ n.timers.entries,
      t ∈ due ∧ t.task = .delayedPull peer)
      (alive : net.isAlive peer) (found : net.schema peer = some theirs)
      (differs : theirs ≠ n.schema.version) : Reason net n peer (fires due rest)
  | reset (live : peer ∈ net.live) : Reason net n peer resets

structure Justifies (net : Network) (n : Node) (activity : Activity) (peer : Address) : Prop where
  foreign     : peer ≠ n.address
  version     : Protocol.trustedTimestamps ≤ net.version peer ∧ net.version peer ≤ Protocol.current
  replicating : net.isNonReplicating peer = false
  reason      : activity.Reason net n peer

variable {n n' : Node} {net : Network} {activity : Activity} {peer : Address}

theorem Justifies.of_source (foreign : peer ≠ n.address) (source : net.isPullSource peer)
    (reason : activity.Reason net n peer) : activity.Justifies net n peer := by
  simp only [Network.isPullSource, Bool.and_eq_true, Bool.not_eq_true', decide_eq_true_eq] at source
  exact ⟨foreign, source.left, source.right, reason⟩

end Activity

namespace Node

variable {n n' : Node} {net : Network} {activity : Activity} {peer : Address}
  {submitted : Address → Prop}

-- The next ticket is a new one, no pull from the node itself is put off, and what is shown under a
-- name has the name.
structure Cautious (n : Node) : Prop where
  tickets  : ∀ ticket, n.Knows ticket → ticket < n.nextTicket
  deferred : ∀ t ∈ n.timers.entries, ∀ peer, t.task = .delayedPull peer → peer ≠ n.address
  names    : Definitions.Consistent n.schema.keyspaces

theorem cautious_idle (address : Address) (config : Config) (storage : Storage) (metrics : String)
    (clock : Clock) (startedAt : Int) :
    (idle address config storage metrics clock startedAt).Cautious where
  tickets := by
    intro ticket h
    cases h
    case onStage name mem _   => cases name <;> cases mem
    case requested id waits _ => simp [idle, Messenger.new] at waits
    case settled found        => simp [idle] at found
  deferred := nofun
  names    := Definitions.consistent_empty

theorem Cautious.of_submits (hn : n.Cautious) (h : Submits submitted (· ≠ n.address) n n') :
    n'.Cautious where
  tickets ticket hk :=
    (h.knows hk).elim (fun hk => Nat.lt_of_lt_of_le (hn.tickets ticket hk) h.tickets) (·.right)
  deferred t hm peer ht := (h.deferred hm ht).elim
    (fun hm => h.address ▸ hn.deferred t hm peer ht) (h.address ▸ ·)
  names := h.names hn.names

theorem cautious_ignoresNotes : IgnoresNotes Cautious := by
  intro n clock notes hn
  have aside : Submits (fun _ => False) (· ≠ n.address) n { n with clock, notes } :=
    .aside rfl rfl rfl rfl rfl
  exact hn.of_submits aside

namespace Submits

section

variable {deferred : Address → Prop} (n : Node)

theorem keeps_start (parts : List NodePart) :
    Keeps (Submits submitted deferred n) (start parts) := by
  have loads : Keeps (Submits submitted deferred n) loadSchema :=
    keeps_replace (fun _ _ hl h => h.trans (of_agenda rfl rfl rfl (Nat.le_refl _)
      fun _ => (Schema.load_eq_ok hl).consistent)) fun _ _ => keeps_pure _
  exact Node.keeps_start (admits n) loads (fun _ _ h => h.trans (aside rfl rfl rfl rfl rfl)) parts

theorem hearAlive {theirs : Option Uuid}
    (h : ∀ version, theirs = some version → n.schema.version ≠ version → peer ≠ n.address →
      net.isPullSource peer → submitted peer ∧ deferred peer) :
    Submits submitted deferred n (n.run (hearAlive net peer theirs)).2 := by
  rw [Node.hearAlive, run_bind, run_get]
  dsimp only
  split
  case isFalse => exact refl n
  case isTrue hp =>
    cases theirs
    case none => exact refl n
    case some version =>
      change Submits submitted deferred n
        (n.run (discard (Node.considerPull net version peer n.clock.elapsed))).2
      rw [snd_run_discard]
      exact considerPull n fun hv source => h version rfl hv hp source

end

end Submits

-- Nothing that goes off changes the views.
theorem keeps_fire {I : Node → Prop} (hI : OfViews I) (net : Network) (alarm : Alarm) :
    Keeps I (fire net alarm) := by
  cases alarm
  case expiry id =>
    exact Keeps.map (fun n h => holds_expire (hI n _ rfl rfl rfl h) fun _ _ _ n =>
      hI n _ rfl rfl rfl) _
  case delayedPull peer =>
    have submits : Keeps I (submitPull peer) :=
      Keeps.bind (fun n => hI n _ rfl rfl rfl) fun _ => (keeps_execute hI _ _).bind fun _ =>
        keeps_pure _
    rw [fire, firePull]
    split
    case isFalse => exact keeps_pure _
    case isTrue =>
      split
      case h_2 => exact keeps_pure _
      case h_1 =>
        refine keeps_get.bind fun _ => ?_
        split
        case isTrue  => exact submits.quietly
        case isFalse => exact keeps_pure _

theorem submits_hears (event : MemberEvent) :
    Submits (Activity.Justifies net n (.hears event)) (· ≠ n.address) n
      (n.run (hear net event)).2 := by
  have hears (peer : Address) (theirs : Option Uuid)
      (tells : ∀ version, theirs = some version → event.Tells net peer version) :
      Submits (Activity.Justifies net n (.hears event)) (· ≠ n.address) n
        (n.run (hearAlive net peer theirs)).2 :=
    .hearAlive n fun version hv differs foreign source =>
      ⟨.of_source foreign source (.told (tells version hv) differs.symm), foreign⟩
  cases event
  case joined peer =>
    change Submits _ _ n (n.run (hearJoin net peer)).2
    rw [hearJoin]
    split
    case h_1 theirs known => exact hears peer theirs fun _ hv => .joined (known.trans hv)
    case h_2              => exact .refl n
  case advertised peer theirs =>
    exact hears peer (some theirs) fun _ hv => by cases hv; exact .advertised
  case revived peer theirs    =>
    exact hears peer theirs fun _ hv => by cases hv; exact .revived
  case died                   => exact .refl n
  case removed                => exact .refl n

-- What goes off is looked at in the light of the network as it is and of the schema, which stays
-- what it is meanwhile.
theorem Cautious.submits_fires {due rest : List (Timer Alarm)} (hn : n.Cautious)
    (possible : n.timers.entries.Perm (due ++ rest)) :
    Submits (Activity.Justifies net n (.fires due rest)) (· ≠ n.address) n
      (n.run ((Activity.fires due rest).run net)).2 := by
  let I (n' : Node) : Prop :=
    Submits (Activity.Justifies net n (.fires due rest)) (· ≠ n.address) n n' ∧
      n'.schema = n.schema
  let n₁ : Node := { n with timers := { n.timers with entries := rest } }
  have remains : I n₁ := by
    refine ⟨⟨rfl, Nat.le_refl _, fun h => .inl (h.of_agenda rfl), fun h => .inl (h.of_agenda rfl),
      fun hm _ => .inl ?_, fun h => h⟩, rfl⟩
    exact possible.mem_iff.mpr (List.mem_append_right due hm)
  have fires : ∀ t ∈ due, Keeps I (fire net t.task) := by
    intro t hm n₂ ⟨h, hs⟩
    have hs' : (n₂.run (fire net t.task)).2.schema = n.schema :=
      keeps_fire (I := (·.schema = n.schema)) (fun _ _ _ hs _ h => hs.trans h) net t.task n₂ hs
    refine ⟨?_, hs'⟩
    cases ht : t.task
    case expiry id => exact (Submits.keeps_expire n id).map _ n₂ h
    case delayedPull peer =>
      have hm' := possible.mem_iff.mpr (List.mem_append_left rest hm)
      refine h.trans (Submits.firePull n₂ fun alive source theirs found differs => ?_)
      exact .of_source (hn.deferred t hm' peer ht) source
        (.fired ⟨t, hm', hm, ht⟩ alive found (hs ▸ differs))
  exact (Keeps.forM fires n₁ remains).left

theorem Cautious.submits (hn : n.Cautious) (possible : activity.Possible n) :
    Submits (activity.Justifies net n) (· ≠ n.address) n (n.run (activity.run net)).2 := by
  have registers (n₁ : Node) (m : Mutation) (registry : Registry) (storage : Storage)
      (_ : Registry.IsChange m) (_ : n₁.storage.apply m = .ok storage)
      (h : Submits (activity.Justifies net n) (· ≠ n.address) n n₁) :
      Submits (activity.Justifies net n) (· ≠ n.address) n { n₁ with registry, storage } :=
    h.trans (.aside rfl rfl rfl rfl rfl)
  cases activity
  case starts parts => exact Submits.keeps_start n parts n (.refl n)
  case hears event => exact submits_hears event
  case hearsText peer text =>
    exact Submits.hearAlive n fun version hv differs foreign source =>
      ⟨.of_source foreign source (.read hv differs.symm), foreign⟩
  case fires due rest => exact hn.submits_fires possible
  case resets =>
    rw [Activity.run, snd_run_discard]
    exact Submits.startReset n fun peer live foreign source =>
      .of_source foreign source (.reset live)
  case receives message id =>
    refine keeps_get.bind (fun n₁ => ?_) n (.refl n)
    exact Submits.keeps_execute n (fun h => h) fun _ h => by cases h
  case works name => exact Submits.runNext n net name
  case merges batch => exact (Submits.keeps_merge n batch).map _ n (.refl n)
  case changes request client =>
    exact request.keeps_run (Submits.admits n).watches (Submits.keeps_announce n net)
      (fun target kind value => Submits.keeps_audit n net target kind client value) n (.refl n)
  case registers target kind tag =>
    exact keeps_updateRegistry (Submits.admits n) tellsDefinitions_true registers net target kind tag
      n (.refl n)
  case unregisters target =>
    exact keeps_dropRegistry (Submits.admits n) tellsDefinitions_true registers net target n
      (.refl n)
  case announces target kind client value =>
    exact (Submits.keeps_announceEntry n net target kind client value).map _ n (.refl n)
  case writes batch answer =>
    exact keeps_executeBatch (Submits.admits n) tellsDefinitions_true
      (fun _ _ h => h.trans (.aside rfl rfl rfl rfl rfl)) net batch answer n (.refl n)
  case waits clock => exact .aside rfl rfl rfl rfl rfl
  case shutsDown =>
    have jobs : (fun name => ((n.run shutdown).2.stage name).queue ++
        ((n.run shutdown).2.stage name).running) =
          fun name => (n.stage name).queue ++ (n.stage name).running := by
      funext name
      cases name <;> rfl
    exact .of_agenda (congrArg (·, n.messenger.waiting, n.outcomes) jobs) rfl rfl (Nat.le_refl _)
      fun h => h

-- One activity after the other, whatever the network has become meanwhile.
inductive Acts : Node → Node → Prop
  | does (n : Node) (net : Network) {activity : Activity} (possible : activity.Possible n) :
      Acts n (n.run (activity.run net)).2

-- The timers of one delay go off together.
theorem acts_fireDelay (n : Node) (net : Network) (delay : Nat) :
    n.Acts (n.run (fireDelay net delay)).2 := by
  let due := n.timers.entries.filter (·.delay = delay)
  let rest := n.timers.entries.filter (·.delay ≠ delay)
  have possible : (Activity.fires due rest).Possible n := by
    have hp := List.filter_append_perm (fun t : Timer Alarm => t.delay = delay) n.timers.entries
    simpa only [Activity.Possible, due, rest, decide_not] using hp.symm
  have fires : (n.run (fireDelay net delay)).2 =
      (n.run ((Activity.fires due rest).run net)).2 := by
    let n₁ : Node := { n with timers := { n.timers with entries := rest } }
    change (n₁.run (due.forM (fun t => fire net t.task) >>= fun _ => pure due.length)).2 =
      (n₁.run (due.forM fun t => fire net t.task)).2
    rw [run_bind]
    cases n₁.run (due.forM fun t => fire net t.task)
    case mk result n₂ => cases result <;> rfl
  rw [fires]
  exact .does n net possible

theorem Cautious.acts (hn : n.Cautious) (h : Acts n n') : n'.Cautious := by
  cases h
  case does net activity possible => exact hn.of_submits (hn.submits possible)

theorem Cautious.steps (hn : n.Cautious) (h : Relation.ReflTransGen Acts n n') : n'.Cautious := by
  induction h
  case refl        => exact hn
  case tail _ h hi => exact hi.acts h

-- A pull that the node has after the activity and not before is called for.
theorem pulls_justified {address : Address} {config : Config} {storage : Storage}
    {metrics : String} {clock : Clock} {startedAt : Int} (net : Network)
    (h : Relation.ReflTransGen Acts (idle address config storage metrics clock startedAt) n)
    (possible : activity.Possible n) :
    let n' := (n.run (activity.run net)).2
    (∀ peer ticket, n.HasPull peer ticket → ticket < n.nextTicket) ∧
    ∀ peer ticket, n'.HasPull peer ticket → ¬n.HasPull peer ticket →
      n.nextTicket ≤ ticket ∧ ticket < n'.nextTicket ∧ activity.Justifies net n peer := by
  have hn := (cautious_idle address config storage metrics clock startedAt).steps h
  have hn' := hn.acts (.does n net possible)
  refine ⟨fun peer ticket hp => hn.tickets ticket hp.knows, fun peer ticket hp hnew => ?_⟩
  have ⟨hj, hl⟩ := ((hn.submits possible).pulls hp).resolve_left hnew
  exact ⟨hl, hn'.tickets ticket hp.knows, hj⟩

-- A pull that was put off goes off a minute later, and the member still has another version.
theorem pulls_justified_of_delay :
    let peer : Address := .v4 10 0 0 2
    let joined := ((Network.new 1 Network.defaultCapacity).add peer Protocol.current false).1
    let net := (joined.advertise peer SchemaVersion.empty).1
    let act (n : Node) (activity : Activity) := (n.run (activity.run net)).2
    let n₀ := idle (.v4 10 0 0 1) .standard ∅ "node" ⟨1000, 0, 0⟩ 0
    let n₁ := act n₀ (.merges [(Keyspace.simple "app" 1).creation 4])
    let n₂ := act n₁ (.waits ⟨1000, 0, 60000⟩)
    let n₃ := act n₂ (.hears (.advertised peer SchemaVersion.empty))
    let activity : Activity := .fires n₃.timers.entries []
    let n₄ := act n₃ activity
    Relation.ReflTransGen Acts n₀ n₃ ∧ activity.Possible n₃ ∧
      n₄.HasPull peer 0 ∧ ¬n₃.HasPull peer 0 ∧
      (∀ peer ticket, n₃.HasPull peer ticket → ticket < n₃.nextTicket) ∧
      ∀ peer ticket, n₄.HasPull peer ticket → ¬n₃.HasPull peer ticket →
        n₃.nextTicket ≤ ticket ∧ ticket < n₄.nextTicket ∧ activity.Justifies net n₃ peer := by
  intro peer joined net act n₀ n₁ n₂ n₃ activity n₄
  have pull₄ : n₄.HasPull peer 0 := .of_any (by decide +kernel)
  have ticket : n₃.nextTicket = 0 := by decide +kernel
  have h₁ : Acts n₀ n₁ := .does n₀ net trivial
  have h₂ : Acts n₁ n₂ := .does n₁ net trivial
  have h₃ : Acts n₂ n₃ := .does n₂ net trivial
  have h : Relation.ReflTransGen Acts n₀ n₃ := .tail (.tail (.single h₁) h₂) h₃
  clear_value n₃
  have possible : activity.Possible n₃ := .of_eq (List.append_nil _).symm
  obtain ⟨tickets, justified⟩ := pulls_justified net h possible
  exact ⟨h, possible, pull₄, fun hp => absurd (tickets peer 0 hp) (by simp [ticket]), tickets,
    justified⟩

end Node
end ClusterMetadata
