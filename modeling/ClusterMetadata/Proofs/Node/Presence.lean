import ClusterMetadata.Proofs.Node.Publication

/-!
The version that the network shows of a member, in all that the member and the others do. Threads of
the member that change its schema or tell the version come in between each other. When none of them
is under way, the network shows the version of the schema, provided that no version has been told
or lost out of turn (`shown_of_steps`); operations that do not overlap do not get out of turn
(`steps_of_alone`). Nothing else keeps the versions in their order. A reset in the middle of a merge
leaves the network with a version that the schema no longer has (`overtaken`), and so do an observer
that panics (`lost`) and whoever tells a version that he has read before (`misled`).
-/

namespace ClusterMetadata

open Node

def Outgoing.IsSend : Outgoing → Prop
  | send _ _ _  => True
  | advertise _ => False

theorem sendsAll_isSend : SendsAll Outgoing.IsSend := fun _ _ _ => trivial

variable {a : Address} {net net' : Network} {n n' : Node}

namespace Publisher

variable {w w' : Publisher} {before after ps : List Publisher} {shown shown' : Option Uuid}

-- The last version that has been taken and not told, or else the one that is shown.
def latest (shown : Option Uuid) (ps : List Publisher) : Option Uuid :=
  ps.foldl (fun v w => w.version?.or v) shown

-- Some thread has taken a version and not told it.
def Owes (ps : List Publisher) : Prop := ∃ w ∈ ps, w.version?.isSome

theorem latest_append (shown : Option Uuid) (before after : List Publisher) :
    latest shown (before ++ after) = latest (latest shown before) after :=
  List.foldl_append

theorem latest_cons (shown : Option Uuid) (w : Publisher) (ps : List Publisher) :
    latest shown (w :: ps) = latest (w.version?.or shown) ps :=
  rfl

-- What is shown counts only as long as no other version has been taken.

theorem latest_of_owes (h : Owes ps) (shown shown' : Option Uuid) :
    latest shown ps = latest shown' ps := by
  induction ps generalizing shown shown'
  case nil =>
    obtain ⟨w, hm, -⟩ := h
    cases hm
  case cons w ps hi =>
    rw [latest_cons, latest_cons]
    cases hv : w.version?
    case some v => rfl
    case none   =>
      obtain ⟨w', hm, hs⟩ := h
      rcases List.mem_cons.mp hm with rfl | hm
      case inl => simp [hv] at hs
      case inr => exact hi ⟨w', hm, hs⟩ _ _

theorem latest_of_not_owes (h : ¬Owes ps) (shown : Option Uuid) : latest shown ps = shown := by
  induction ps generalizing shown
  case nil => rfl
  case cons w ps hi =>
    have blank : w.version? = none := by
      rw [← Option.not_isSome_iff_eq_none]
      exact fun hs => h ⟨w, List.mem_cons_self, hs⟩
    rw [latest_cons, blank, Option.none_or]
    exact hi (fun ⟨w, hm, hs⟩ => h ⟨w, List.mem_cons_of_mem _ hm, hs⟩) shown

-- The threads when one of them has taken a step. They stand in the order in which they have taken
-- their versions.
def place (before : List Publisher) (w w' : Publisher) (after : List Publisher) : List Publisher :=
  if w.takes then before ++ after ++ [w'] else before ++ w' :: after

theorem mem_place_of_ne {w₀ : Publisher} (hne : w₀ ≠ w) (hm : w₀ ∈ before ++ w :: after) :
    w₀ ∈ place before w w' after := by
  rw [place]
  split <;> grind

theorem latest_place (h : w.takes = false) (shown : Option Uuid) :
    latest shown (place before w w' after) =
      latest (w'.version?.or (latest shown before)) after := by
  rw [place, h]
  exact latest_append ..

theorem latest_place_of_takes (h : w.takes) (shown : Option Uuid) :
    latest shown (place before w w' after) = w'.version?.or (latest shown (before ++ after)) := by
  rw [place, if_pos h]
  exact latest_append ..

-- When the version that was taken last is that of the schema, then so it is after a step in turn.
theorem latest_place_of_effect {version version' : Uuid} {os : List Outgoing}
    (effect : Effect version w w' version' os)
    (latest_eq : w ≠ .changed → latest shown (before ++ w :: after) = some version)
    (settled : .changed ∉ place before w w' after) (may : w.tells → ¬Owes before ∨ Owes after) :
    latest (if w.tells then w.version? else shown) (place before w w' after) = some version' := by
  rw [latest_append, latest_cons] at latest_eq
  cases effect
  case writes    => exact latest_place_of_takes rfl _
  case reads     => exact latest_place_of_takes rfl _
  case notifies  => exact (latest_place rfl _).trans (latest_eq nofun)
  case forgets   => exact (latest_place rfl _).trans (latest_eq nofun)
  case rests     => exact (latest_place rfl _).trans (latest_eq nofun)
  case changes _ => exact absurd (by rw [place]; split <;> simp) settled
  case fails begun blank =>
    rw [blank, Option.none_or] at latest_eq
    cases w
    case merging batch =>
      refine (latest_place_of_takes rfl _).trans ?_
      rw [latest_append]
      exact latest_eq nofun
    case resetting => exact (latest_place rfl _).trans (latest_eq nofun)
    case starting  => exact (latest_place rfl _).trans (latest_eq nofun)
    all_goals cases begun <;> cases blank
  case tells taken last took =>
    have waits : w ≠ .changed := by rintro rfl; cases last
    have other : w.takes = false := by cases w <;> first | rfl | cases last
    rw [if_pos last, took, latest_place other, ← latest_eq waits, took, Option.some_or]
    rcases may last with first | later
    case inl =>
      rw [latest_of_not_owes first]
      rfl
    case inr => exact latest_of_owes later _ _

end Publisher

-- A member, its network, and its threads that are under way. What the member has said happens to
-- the network at once.
structure Presence where
  network : Network
  node : Node
  publishers : List Publisher

namespace Presence

open Publisher

variable {p p' q : Presence} {ps before after : List Publisher} {w w' : Publisher}

def put (net : Network) (n : Node) (ps : List Publisher) : Presence where
  network    := n.outlook net
  node       := { n with outbox := [] }
  publishers := ps

inductive Move where
  | begins (w : Publisher)
  | goes (before : List Publisher) (w : Publisher) (after : List Publisher)
  | breaks (before after : List Publisher)

-- A version is told after those that were taken before it, or else before one that was taken later,
-- and is not lost unless one was taken later. Whoever tells a version of his own tells that of the
-- schema.
def InTurn (p : Presence) : Move → Prop
  | .begins w             => ∀ version ∈ w.version?, version = p.node.schema.version
  | .goes before w after  => w.tells → ¬Owes before ∨ Owes after
  | .breaks _ after       => Owes after

-- The threads of the member take steps, the rest of it does whatever leaves the version of the
-- schema alone, and the others go about their business.
inductive Step (P : Presence → Move → Prop) : Presence → Presence → Prop
  -- There is one worker for merges.
  | begins {p : Presence} {w : Publisher} (new : w.isNew)
      (free : w.isMerge → ∀ w' ∈ p.publishers, ¬w'.isMerge) (may : P p (.begins w)) :
      Step P p { p with publishers := p.publishers ++ [w] }
  | goes {net : Network} {n n' : Node} {w w' : Publisher} (before after : List Publisher)
      (goes : Publisher.Goes (n, w) (n', w'))
      (may : P ⟨net, n, before ++ w :: after⟩ (.goes before w after)) :
      Step P ⟨net, n, before ++ w :: after⟩ (put net n' (place before w w' after))
  -- An observer panics when it is told of an event, and the worker leaves the merge.
  | breaks {net : Network} {n : Node} {report : MergeReport} (before after : List Publisher)
      (told : report.events ≠ []) (watched : n.observers.isEmpty = false)
      (may : P ⟨net, n, before ++ .written report :: after⟩ (.breaks before after)) :
      Step P ⟨net, n, before ++ .written report :: after⟩ ⟨net, n, before ++ after⟩
  | ends {net : Network} {n : Node} (before after : List Publisher) :
      Step P ⟨net, n, before ++ .done :: after⟩ ⟨net, n, before ++ after⟩
  | rests {p : Presence} {n : Node} (address : n.address = p.node.address)
      (schema : n.schema.version = p.node.schema.version) (quiet : n.outbox = []) :
      Step P p { p with node := n }
  | around {p : Presence} {net : Network} (h : p.network.Around p.node.address net) :
      Step P p { p with network := net }

theorem Step.any {P : Presence → Move → Prop} (h : Step P p p') : Step (fun _ _ => True) p p' := by
  cases h
  case begins new free _         => exact .begins new free trivial
  case goes before after goes _  => exact .goes before after goes trivial
  case breaks before after told watched _ => exact .breaks before after told watched trivial
  case ends before after         => exact .ends before after
  case rests quiet address schema => exact .rests address schema quiet
  case around h                  => exact .around h

-- The member is alone with its network, and has told some version.
structure Stays (a : Address) (p : Presence) : Prop where
  quiet   : p.node.outbox = []
  address : p.node.address = a
  schema  : (p.network.schema a).isSome

-- The last version that was taken is that of the schema, unless some thread has yet to look it up.
structure Honest (a : Address) (p : Presence) : Prop where
  stays  : p.Stays a
  latest : .changed ∉ p.publishers →
    latest (p.network.schema a) p.publishers = some p.node.schema.version

theorem schema_outlook_of_effect {os : List Outgoing} {version version' : Uuid}
    (quiet : n.outbox = []) (said : n'.outbox = n.outbox ++ os)
    (effect : Effect version w w' version' os) (address : n'.address = a)
    (known : (net.schema a).isSome) : (n'.outlook net).schema a =
      if w.tells then w.version? else net.schema a := by
  have ⟨v, hv⟩ := Option.isSome_iff_exists.mp known
  rw [quiet, List.nil_append] at said
  rw [outlook, said, address]
  cases effect
  case tells version last took =>
    rw [if_pos last, took]
    exact Network.schema_advertise_self (Network.mem_of_schema_eq_some hv)
  case fails begun blank   => cases w <;> first | rfl | cases blank
  case changes begun blank => cases w <;> first | rfl | cases blank
  all_goals rfl

theorem Stays.joined (h : p.Stays a) : p.node.Joined p.network a := by
  have ⟨version, shown⟩ := Option.isSome_iff_exists.mp h.schema
  exact ⟨h.address, outlook_of_quiet h.quiet _ ▸ Network.mem_of_schema_eq_some shown⟩

theorem Stays.step {P : Presence → Move → Prop} (h : p.Stays a) (hs : Step P p p') :
    p'.Stays a := by
  cases hs
  case begins  => exact ⟨h.quiet, h.address, h.schema⟩
  case goes net n n' w w' before after goes _ =>
    obtain ⟨address, os, said, effect⟩ := (does_of_goes goes).effect
    have address : n'.address = a := address.trans h.address
    refine ⟨rfl, address, ?_⟩
    have shown := schema_outlook_of_effect h.quiet said effect address h.schema
    refine (congrArg Option.isSome shown).trans ?_
    split
    case isTrue tells => cases w <;> first | rfl | cases tells
    case isFalse      => exact h.schema
  case breaks  => exact ⟨h.quiet, h.address, h.schema⟩
  case ends    => exact ⟨h.quiet, h.address, h.schema⟩
  case rests n quiet address _ => exact ⟨quiet, address.trans h.address, h.schema⟩
  case around net ha =>
    have around : Network.Around a p.network net := h.address ▸ ha
    exact ⟨h.quiet, h.address, around.schema_eq ▸ h.schema⟩

theorem Honest.step (h : p.Honest a) (hs : Step InTurn p p') : p'.Honest a := by
  have stays := h.stays.step hs
  refine ⟨stays, fun settled => ?_⟩
  cases hs
  case begins w new free may =>
    have latest := h.latest fun hm => settled (List.mem_append_left _ hm)
    rw [latest_append, latest]
    cases hv : w.version?
    case none => rw [latest_cons, hv]; rfl
    case some version => rw [latest_cons, hv, may version hv]; rfl
  case goes net n n' w w' before after goes may =>
    obtain ⟨address, os, said, effect⟩ := (does_of_goes goes).effect
    have address : n'.address = a := address.trans h.stays.address
    have shown := schema_outlook_of_effect h.stays.quiet said effect address h.stays.schema
    have stepped : w ≠ .changed → .changed ∉ before ++ w :: after := fun hne hm =>
      settled (mem_place_of_ne hne.symm hm)
    refine (congrArg (fun v => Publisher.latest v (place before w w' after)) shown).trans ?_
    exact latest_place_of_effect effect (fun hne => h.latest (stepped hne)) settled may
  case breaks net n report before after told _ owes =>
    have latest := h.latest fun hm => settled (by simpa using hm)
    rw [latest_append, latest_cons] at latest
    rw [latest_append, ← latest]
    exact latest_of_owes owes _ _
  case ends net n before after =>
    have latest := h.latest fun hm => settled (by simpa using hm)
    rw [latest_append, latest_cons] at latest
    rw [latest_append]
    exact latest
  case rests n _ _ schema => exact (h.latest settled).trans (congrArg some schema.symm)
  case around net ha =>
    have around : Network.Around a p.network net := h.stays.address ▸ ha
    rw [around.schema_eq]
    exact h.latest settled

theorem Stays.steps {P : Presence → Move → Prop} (h : p.Stays a)
    (hs : Relation.ReflTransGen (Step P) p p') : p'.Stays a := by
  induction hs
  case refl         => exact h
  case tail _ hs hi => exact hi.step hs

theorem Honest.steps (h : p.Honest a) (hs : Relation.ReflTransGen (Step InTurn) p p') :
    p'.Honest a := by
  induction hs
  case refl         => exact h
  case tail _ hs hi => exact hi.step hs

theorem Honest.put (h : n.Shown net a) : (put net n []).Honest a where
  stays    := ⟨rfl, h.address, Option.isSome_iff_exists.mpr ⟨_, h.schema⟩⟩
  latest _ := h.schema

section

variable {P : Presence → Move → Prop} {o : Outgoing}

theorem put_congr (ha : n'.address = n.address) (ho : n'.outbox = n.outbox) :
    put net n' ps = { put net n ps with node := { n' with outbox := [] } } := by
  simp only [put, outlook, ha, ho]

theorem step_rests (ha : n'.address = n.address) (ho : n'.outbox = n.outbox)
    (hs : n'.schema.version = n.schema.version) : Step P (put net n ps) (put net n' ps) := by
  rw [put_congr ha ho]
  exact .rests ha hs rfl

theorem step_sends (ho : o.IsSend) :
    Step P (put net n ps) (put net { n with outbox := n.outbox ++ [o] } ps) := by
  cases o
  case advertise => exact ho.elim
  case send b id m =>
    have said : put net { n with outbox := n.outbox ++ [.send b id m] } ps =
        { put net n ps with network := ((n.outlook net).send n.address b id m).1 } := by
      simp only [put, outlook_emit, Network.heed]
    rw [said]
    exact .around (.sends ..)

end

-- A thread that is alone does not get out of turn.

theorem step_begins (new : w.isNew) (blank : w.version? = none) :
    Step InTurn (put net n []) (put net n [w]) :=
  .begins new (fun _ _ hm => absurd hm List.not_mem_nil) fun version hv => by
    rw [blank] at hv
    cases hv

theorem steps_goes {a b : Node × Publisher} (h : Goes a b) :
    Relation.ReflTransGen (Step InTurn) (put net a.1 [a.2]) (put net b.1 [b.2]) := by
  have ⟨n₁, does, address, schema, said⟩ := (does_of_goes h).unsaid
  have kept : b.1.address = a.1.address := (does_of_goes h).effect.left
  have placed : place [] a.2 b.2 [] = [b.2] := by
    rw [place]
    split <;> rfl
  have first : ¬Owes [] := fun ⟨_, hm, _⟩ => absurd hm List.not_mem_nil
  have stepped : Step InTurn (put net a.1 [a.2]) (put (a.1.outlook net) n₁ [b.2]) :=
    placed ▸ Step.goes [] [] (goes_of_does does) fun _ => .inl first
  have network : b.1.outlook net = n₁.outlook (a.1.outlook net) := by
    simp only [outlook, said, kept, address, List.foldl_append]
  have rested : Step InTurn (put (a.1.outlook net) n₁ [b.2]) (put net b.1 [b.2]) := by
    rw [put, put, network]
    exact .rests address.symm schema.symm rfl
  exact .head stepped (.single rested)

theorem steps_goesAll {a b : Node × Publisher} (h : Relation.ReflTransGen Goes a b) :
    Relation.ReflTransGen (Step InTurn) (put net a.1 [a.2]) (put net b.1 [b.2]) := by
  induction h
  case refl        => exact .refl
  case tail _ h hi => exact hi.trans (steps_goes h)

-- A thread that begins and ends alone.
theorem steps_of_goes {w : Publisher} (new : w.isNew) (blank : w.version? = none)
    (h : Relation.ReflTransGen Goes (n, w) (n', .done)) :
    Relation.ReflTransGen (Step InTurn) (put net n []) (put net n' []) :=
  .head (step_begins new blank) ((steps_goesAll h).tail (.ends [] []))

-- The node can be reached when its threads take their steps in turn, and none is under way then.
def Reaches (p : Presence) (net : Network) (n : Node) : Prop :=
  Relation.ReflTransGen (Step InTurn) p (put net n [])

namespace Reaches

theorem rest (h : p.Reaches net n) (ha : n'.address = n.address) (ho : n'.outbox = n.outbox)
    (hs : n'.schema.version = n.schema.version) : p.Reaches net n' :=
  h.tail (step_rests ha ho hs)

theorem goes {w : Publisher} (h : p.Reaches net n) (new : w.isNew) (blank : w.version? = none)
    (hg : Relation.ReflTransGen Goes (n, w) (n', .done)) : p.Reaches net n' :=
  h.trans (steps_of_goes new blank hg)

theorem setStage (h : p.Reaches net n) (name : StageName) (stage : Stage Job) :
    p.Reaches net (n.setStage stage name) := by
  cases name <;> exact h.rest rfl rfl rfl

theorem admits : Admits Outgoing.IsSend (p.Reaches net) where
  watches _ _ _ h := h.rest rfl rfl rfl
  draws _ h       := h.rest rfl rfl rfl
  emits _ _ ho h  := h.tail (step_sends ho)

theorem routine : Routine Outgoing.IsSend (p.Reaches net) where
  talks                 := admits
  pulls _ _             := trivial
  answers _ _ _ _       := trivial
  merges batch n h      := h.goes rfl rfl (goes_merge n batch)
  stages _ _ _ _ _ h    := h.setStage _ _
  books _ _ _ _ _ _ _ h := h.rest rfl rfl rfl

-- The registry learns between the reading of the schema and the look at its version.
theorem keeps_start (parts : List NodePart) : Keeps (p.Reaches net) (start parts) := by
  refine keeps_get.bind fun before => (keeps_lift _).bind fun _ => (keeps_lift _).bind fun _ => ?_
  intro n h
  rw [run_bind, run_loadSchema]
  cases hl : Schema.load n.storage
  case error e => exact h
  case ok schema =>
    let n₁ : Node := { n with schema }
    let registry := (n.registry.hydrate n.storage before.config.audit.hydrateTargets).2
    let n₂ : Node := { n₁ with registry }
    have loads : Relation.ReflTransGen (Step InTurn) (put net n []) (put net n₁ [.changed]) :=
      .head (step_begins rfl rfl) (steps_goes (goes_of_does (.loads hl)))
    have learns : Step InTurn (put net n₁ [.changed]) (put net n₂ [.changed]) :=
      step_rests rfl rfl rfl
    exact (((h.trans loads).tail learns).trans (steps_goesAll (goes_tell n₂))).tail (.ends [] [])

theorem conduct : Conduct Outgoing.IsSend (p.Reaches net) where
  routine          := routine
  sends            := sendsAll_isSend
  starts           := keeps_start
  resets           := routine.keeps_startReset fun _ _ hc h => h.goes rfl rfl (goes_reset hc)
  queues _ _ _ _ h := h.setStage _ _
  stores _ _ _ h   := h.rest rfl rfl rfl
  writes _ _ h     := h.rest rfl rfl rfl

theorem evolves (h : p.Reaches net n) (quiet : n.outbox = []) (he : n.Evolves n') :
    p.Reaches net n' := by
  cases he
  case adjusted => exact h.rest rfl rfl rfl
  case acts ha  =>
    cases ha
    case does known activity _ =>
      exact conduct.holds_run h (fun _ => h.rest rfl quiet.symm rfl) known activity

end Reaches

-- The node does something, looks whether to pull or pulls, from the beginning to the end, and the
-- others go about their business.
inductive Alone : Presence → Presence → Prop
  | evolves {p : Presence} {n : Node} (h : p.node.Evolves n) : Alone p (put p.network n [])
  | pulls (p : Presence) (peer : Address) :
      Alone p (put p.network (p.node.run (submitPull peer)).2 [])
  | considers (p : Presence) (known : Network) (theirs : Uuid) (peer : Address) (now : Int) :
      Alone p (put p.network (p.node.run (considerPull known theirs peer now)).2 [])
  | around {p : Presence} {net : Network} (h : p.network.Around p.node.address net) :
      Alone p { p with network := net }

theorem put_eq_self (quiet : p.node.outbox = []) (idle : p.publishers = []) :
    put p.network p.node [] = p := by
  rw [put, outlook_of_quiet quiet, ← quiet, ← idle]

-- So what a node does one after the other does not get out of turn.
theorem steps_of_alone (quiet : p.node.outbox = []) (idle : p.publishers = [])
    (h : Relation.ReflTransGen Alone p q) :
    Relation.ReflTransGen (Step InTurn) p q ∧ q.node.outbox = [] ∧ q.publishers = [] := by
  induction h
  case refl => exact ⟨.refl, quiet, idle⟩
  case tail q q' _ h hi =>
    obtain ⟨steps, quiet, idle⟩ := hi
    have reached : p.Reaches q.network q.node := (put_eq_self quiet idle).symm ▸ steps
    cases h
    case evolves he => exact ⟨reached.evolves quiet he, rfl, rfl⟩
    case pulls      => exact ⟨Reaches.routine.keeps_submitPull _ _ reached, rfl, rfl⟩
    case considers  => exact ⟨Reaches.routine.keeps_considerPull _ _ _ _ _ reached, rfl, rfl⟩
    case around ha  => exact ⟨steps.tail (.around ha), quiet, idle⟩

-- From its start on, whatever the member and the others do, and whether or not merges succeed: as
-- long as its threads tell their versions in turn, the network shows the version of its schema
-- whenever none of them is under way. If they have got out of turn, the next merge that succeeds
-- without being disturbed sets it right.
theorem shown_of_steps {address : Address} {config : Config} {storage : Storage} {metrics : String}
    {clock : Clock} {startedAt : Int} {parts : List NodePart} (member : address ∈ net.members)
    (started : (Node.idle address config storage metrics clock startedAt).run (start parts) =
      (.ok (), n)) :
    (∀ p, Relation.ReflTransGen (Step InTurn) (put net n []) p → p.publishers = [] →
      p.network.schema address = some p.node.schema.version) ∧
    (∀ p, Relation.ReflTransGen Alone (put net n []) p →
      Relation.ReflTransGen (Step InTurn) (put net n []) p ∧ p.publishers = []) ∧
    ∀ p batch report n', Relation.ReflTransGen (Step fun _ _ => True) (put net n []) p →
      p.node.run (merge batch) = (.ok report, n') →
      (n'.outlook p.network).schema address = some n'.schema.version := by
  have joined : (Node.idle address config storage metrics clock startedAt).Joined net address :=
    ⟨rfl, member⟩
  have shown : n.Shown net address := joined.start started
  refine ⟨fun p h idle => ?_, fun p h => ?_, fun p batch report n' h merged => ?_⟩
  case refine_1 =>
    have honest := (Honest.put shown).steps h
    have latest := honest.latest (by simp [idle])
    rwa [idle] at latest
  case refine_2 =>
    have ⟨steps, _, idle⟩ := steps_of_alone rfl rfl h
    exact ⟨steps, idle⟩
  case refine_3 =>
    have stays := (Honest.put shown).stays.steps h
    exact (stays.joined.merge merged).schema

-- A keyspace is merged, and the schema is reset after another member has told its version.
theorem shown_of_steps_of_reset :
    let address : Address := .v4 10 0 0 1
    let peer : Address := .v4 10 0 0 2
    let lone := ((Network.new 1 Network.defaultCapacity).add address Protocol.current false).1
    let net := (lone.add peer Protocol.current false).1
    let idle := Node.idle address .standard ∅ "node" ⟨1000, 0, 0⟩ 0
    let n := (idle.run (start NodePart.all)).2
    let act (p : Presence) (activity : Activity) : Presence :=
      put p.network (p.node.run (activity.run p.network)).2 []
    let p₁ := act (put net n []) (.merges [(Keyspace.simple "app" 1).creation 4])
    let p₂ : Presence := { p₁ with network := (p₁.network.advertise peer SchemaVersion.empty).1 }
    let p₃ := act p₂ .resets
    address ∈ net.members ∧ idle.run (start NodePart.all) = (.ok (), n) ∧
      Relation.ReflTransGen (Step InTurn) (put net n []) p₁ ∧
      Relation.ReflTransGen (Step InTurn) (put net n []) p₃ ∧
      p₁.node.schema.version ≠ SchemaVersion.empty ∧
      p₃.node.schema.version = SchemaVersion.empty ∧
      p₁.network.schema address = some p₁.node.schema.version ∧
      p₃.network.schema address = some p₃.node.schema.version := by
  intro address peer lone net idle n act p₁ p₂ p₃
  have member : address ∈ net.members := by decide +kernel
  have started : idle.run (start NodePart.all) = (.ok (), n) := run_eq_ok_of_toOption rfl
  have merged : p₁.node.schema.version ≠ SchemaVersion.empty := by decide +kernel
  have reset : p₃.node.schema.version = SchemaVersion.empty := by decide +kernel
  have h₁ : Alone (put net n []) p₁ := .evolves (.acts (.does _ _ trivial))
  have other : peer ≠ p₁.node.address := by decide +kernel
  have h₂ : Alone p₁ p₂ := .around (.advertises _ other _)
  have h₃ : Alone p₂ p₃ := .evolves (.acts (.does _ _ trivial))
  have ⟨shows, alone, _⟩ := shown_of_steps member started
  have ⟨hs₁, idle₁⟩ := alone p₁ (.single h₁)
  have ⟨hs₃, idle₃⟩ := alone p₃ (((Relation.ReflTransGen.single h₁).tail h₂).tail h₃)
  exact ⟨member, started, hs₁, hs₃, merged, reset, shows p₁ hs₁ idle₁, shows p₃ hs₃ idle₃⟩

section

variable {batch : List Mutation} {report : MergeReport} {r : Replica} {version : Uuid}

-- When a reset comes in between a merge and the advertisement of its version, then that version
-- stays to be shown, of a schema that is no more.
theorem overtaken {r' : Replica} (h : n.Joined net a)
    (merged : n.replica.attempt batch = (r, .ok report)) (reset : r.clear = .ok r') :
    ∃ p, Relation.ReflTransGen (Step fun _ _ => True) (put net n []) p ∧ p.publishers = [] ∧
      p.node.migration = n.migration ∧ p.node.schema.version = SchemaVersion.empty ∧
      p.network.schema a = some report.version := by
  let P : Presence → Move → Prop := fun _ _ => True
  let net₀ := n.outlook net
  let net₁ := (net₀.advertise n.address r'.schema.version).1
  let n₀ : Node := { n with outbox := [] }
  have merged : n₀.replica.attempt batch = (r, .ok report) := merged
  let n₁ : Node := n₀.withReplica r
  have cleared : n₁.replica.clear = .ok r' := reset
  let n₂ : Node := n₁.withReplica r'
  have ⟨clock, notes, tells⟩ := exists_run_notify n₂ report.events
  let n₃ : Node := { n₂ with clock, notes }
  let n₄ : Node :=
    { n₃ with registry := report.registryTargets.foldl (·.invalidate) n₃.registry }
  have alone : ∀ w ∈ ([] : List Publisher), ¬w.isMerge := nofun
  have begins : Step P ⟨net₀, n₀, []⟩ ⟨net₀, n₀, [.merging batch]⟩ :=
    .begins rfl (fun _ => alone) trivial
  have writes : Step P ⟨net₀, n₀, [.merging batch]⟩ ⟨net₀, n₁, [.written report]⟩ :=
    .goes [] [] (goes_of_does (.writes merged)) trivial
  have meanwhile : Step P ⟨net₀, n₁, [.written report]⟩ ⟨net₀, n₁, [.written report, .resetting]⟩ :=
    .begins rfl nofun trivial
  have clears : Step P ⟨net₀, n₁, [.written report, .resetting]⟩
      ⟨net₀, n₂, [.written report, .changed]⟩ :=
    .goes [.written report] [] (goes_of_does (.clears cleared)) trivial
  have looks : Step P ⟨net₀, n₂, [.written report, .changed]⟩
      ⟨net₀, n₂, [.written report, .holding r'.schema.version]⟩ :=
    .goes [.written report] [] (goes_of_does .looks) trivial
  have advertises : Step P ⟨net₀, n₂, [.written report, .holding r'.schema.version]⟩
      ⟨net₁, n₂, [.written report, .done]⟩ :=
    .goes [.written report] [] (goes_of_does (.announces _)) trivial
  have ends : Step P ⟨net₁, n₂, [.written report, .done]⟩ ⟨net₁, n₂, [.written report]⟩ :=
    .ends [.written report] []
  have notifies : Step P ⟨net₁, n₂, [.written report]⟩ ⟨net₁, n₃, [.told report]⟩ :=
    .goes [] [] (goes_of_does (.notifies tells)) trivial
  have forgets : Step P ⟨net₁, n₃, [.told report]⟩ ⟨net₁, n₄, [.forgot report]⟩ :=
    .goes [] [] (goes_of_does (.forgets report)) trivial
  have overtakes : Step P ⟨net₁, n₄, [.forgot report]⟩
      ⟨(net₁.advertise n.address report.version).1, n₄, [.done]⟩ :=
    .goes [] [] (goes_of_does (.publishes report)) trivial
  have steps := Relation.ReflTransGen.single begins |>.tail writes |>.tail meanwhile |>.tail clears
    |>.tail looks |>.tail advertises |>.tail ends |>.tail notifies |>.tail forgets |>.tail overtakes
    |>.tail (.ends [] [])
  have shown : net₁.schema a = some r'.schema.version :=
    h.address ▸ Network.schema_advertise_self (h.address ▸ h.member)
  have member : a ∈ net₁.members := Network.mem_of_schema_eq_some shown
  obtain ⟨-, ⟨rounds, empty⟩, -⟩ := Replica.clear_eq_ok reset
  have version : r'.schema.version = SchemaVersion.empty := by rw [empty]; rfl
  exact ⟨_, steps, rfl, rfl, version, h.address ▸ Network.schema_advertise_self (h.address ▸ member)⟩

-- When an observer breaks off a merge, its version is never told.
theorem lost (merged : n.replica.attempt batch = (r, .ok report)) (told : report.events ≠ [])
    (watched : n.observers.isEmpty = false) :
    ∃ p, Relation.ReflTransGen (Step fun _ _ => True) (put net n []) p ∧ p.publishers = [] ∧
      p.node.migration = n.migration ∧ p.node.schema = r.schema ∧ p.network = n.outlook net := by
  let P : Presence → Move → Prop := fun _ _ => True
  let net₀ := n.outlook net
  let n₀ : Node := { n with outbox := [] }
  have merged : n₀.replica.attempt batch = (r, .ok report) := merged
  have alone : ∀ w ∈ ([] : List Publisher), ¬w.isMerge := nofun
  have begins : Step P ⟨net₀, n₀, []⟩ ⟨net₀, n₀, [.merging batch]⟩ :=
    .begins rfl (fun _ => alone) trivial
  have writes : Step P ⟨net₀, n₀, [.merging batch]⟩ ⟨net₀, n₀.withReplica r, [.written report]⟩ :=
    .goes [] [] (goes_of_does (.writes merged)) trivial
  have panics : Step P ⟨net₀, n₀.withReplica r, [.written report]⟩ ⟨net₀, n₀.withReplica r, []⟩ :=
    .breaks [] [] told watched trivial
  exact ⟨_, .tail (.tail (.single begins) writes) panics, rfl, rfl, rfl, rfl⟩

-- A version that is told from outside is shown, whatever it is.
theorem misled (h : n.Joined net a) (version : Uuid) :
    ∃ p, Relation.ReflTransGen (Step fun _ _ => True) (put net n []) p ∧ p.publishers = [] ∧
      p.node.migration = n.migration ∧ p.node.schema = n.schema ∧
      p.network.schema a = some version := by
  let P : Presence → Move → Prop := fun _ _ => True
  let net₀ := n.outlook net
  let n₀ : Node := { n with outbox := [] }
  have begins : Step P ⟨net₀, n₀, []⟩ ⟨net₀, n₀, [.holding version]⟩ := .begins rfl nofun trivial
  have tells : Step P ⟨net₀, n₀, [.holding version]⟩
      ⟨(net₀.advertise n.address version).1, n₀, [.done]⟩ :=
    .goes [] [] (goes_of_does (.announces version)) trivial
  have steps := Relation.ReflTransGen.single begins |>.tail tells |>.tail (.ends [] [])
  exact ⟨_, steps, rfl, rfl, rfl, h.address ▸ Network.schema_advertise_self (h.address ▸ h.member)⟩

end

-- A keyspace is merged, and an observer that is told of it resets the schema. Or else it is merged,
-- and then somebody tells the version of before. No thread is under way any more, and the migration
-- stage has nothing to do.
theorem not_shown_of_reset :
    let address : Address := .v4 10 0 0 1
    let net := ((Network.new 1 Network.defaultCapacity).add address Protocol.current false).1
    let idle := Node.idle address .standard ∅ "node" ⟨1000, 0, 0⟩ 0
    let n := (idle.run (start NodePart.all)).2
    let Runs (p : Presence) : Prop :=
      Relation.ReflTransGen (Step fun _ _ => True) (put net n []) p ∧ p.publishers = [] ∧
        p.node.isReady
    address ∈ net.members ∧ idle.run (start NodePart.all) = (.ok (), n) ∧
      (∃ p, Runs p ∧ p.network.schema address ≠ some SchemaVersion.empty ∧
        p.node.schema.version = SchemaVersion.empty) ∧
      ∃ p, Runs p ∧ p.network.schema address = some SchemaVersion.empty ∧
        p.node.schema.version ≠ SchemaVersion.empty := by
  intro address net idle n Runs
  have member : address ∈ net.members := by decide +kernel
  have started : idle.run (start NodePart.all) = (.ok (), n) := run_eq_ok_of_toOption rfl
  let batch := [(Keyspace.simple "app" 1).creation 4]
  have starts : idle.Joined net address := ⟨rfl, member⟩
  have honest : (put net n []).Honest address := .put (starts.start started)
  have ready : n.migration.inFlight = 0 := rfl
  have differs : (n.replica.attempt batch).2.toOption.any (·.version ≠ SchemaVersion.empty) =
      true := by decide +kernel
  have writable : (n.replica.attempt batch).1.storage.failing = false := by decide +kernel
  -- What is decided is all that counts of the node and the batch.
  clear_value n batch
  have isReady {p : Presence} (h : p.node.migration = n.migration) : p.node.isReady := by
    rw [isReady, h, ready]
    rfl
  have ⟨report, came, differs⟩ := exists_of_any_toOption differs
  have merged : n.replica.attempt batch = (_, .ok report) := Prod.ext rfl came
  have differs : report.version ≠ SchemaVersion.empty := by simpa using differs
  refine ⟨member, started, ?_, ?_⟩
  case refine_1 =>
    have ⟨r, reset⟩ := Replica.exists_clear_eq_ok writable
    have ⟨p, steps, idle, stage, version, shown⟩ := overtaken honest.stays.joined merged reset
    exact ⟨p, ⟨steps, idle, isReady stage⟩, by simpa [shown] using differs, version⟩
  case refine_2 =>
    let n₁ := (n.run (merge batch)).2
    have reached : Relation.ReflTransGen (Step InTurn) (put net n []) (put net n₁ []) :=
      steps_of_goes rfl rfl (goes_merge n batch)
    have stage₁ : n₁.migration = n.migration :=
      keeps_merge ofReplica_migration.ignoresTalk (fun _ => trivial) (fun _ _ h => h)
        (fun _ h => h) n rfl
    have version₁ : n₁.schema.version = report.version := by
      have left : n₁.replica = (n.replica.attempt batch).1 :=
        (attempt_of_run_merge (Prod.ext rfl rfl)).left
      rw [Replica.version_of_attempt_ok merged]
      exact congrArg (·.schema.version) left
    have ⟨p, steps, idle, stage, schema, shown⟩ :=
      misled (honest.steps reached).stays.joined SchemaVersion.empty
    have reached : Relation.ReflTransGen (Step fun _ _ => True) (put net n []) (put net n₁ []) :=
      Relation.ReflTransGen.mono (fun _ _ => Step.any) _ _ reached
    refine ⟨p, ⟨reached.trans steps, idle, isReady (stage.trans stage₁)⟩, shown, ?_⟩
    rw [schema]
    exact version₁ ▸ differs

end Presence
end ClusterMetadata
