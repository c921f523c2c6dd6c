import ClusterMetadata.Node.Dispatch

/-!
What the steps of a node leave alone. A computation keeps a property of the node if the property
holds afterwards whenever it held before, whether or not the computation fails. Most steps keep
every property of the views: the storage, the schema in memory and the registry.
-/

namespace ClusterMetadata.Node

variable {α β : Type} {n n' : Node} {x : NodeM α} {f : α → NodeM β} {I : Node → Prop}

@[simp]
theorem run_pure (a : α) : n.run (pure a) = (.ok a, n) := rfl

@[simp]
theorem run_throw (e : Failure) : n.run (throw e : NodeM α) = (.error e, n) := rfl

@[simp]
theorem run_get : n.run get = (.ok n, n) := rfl

@[simp]
theorem run_set : n.run (set n') = (.ok ⟨⟩, n') := rfl

theorem run_bind : n.run (x >>= f) =
    match n.run x with
    | (.ok a, n')    => n'.run (f a)
    | (.error e, n') => (.error e, n') := by
  simp only [run, bind, EStateM.bind]
  cases x n <;> rfl

theorem run_eq_ok_of_toOption {a : α} (h : (n.run x).1.toOption = some a) :
    n.run x = (.ok a, (n.run x).2) := by
  cases hr : n.run x
  case mk result n' =>
    rw [hr] at h
    cases result
    case error e => cases h
    case ok a'   => cases h; rfl

theorem run_bind_eq_ok_iff {b : β} : n.run (x >>= f) = (.ok b, n') ↔
    ∃ a n₁, n.run x = (.ok a, n₁) ∧ n₁.run (f a) = (.ok b, n') := by
  rw [run_bind]
  cases n.run x
  case mk result n₁ =>
    cases result
    case error e => simp
    case ok a    => simp [and_assoc]

theorem run_map (g : α → β) : n.run (g <$> x) =
    match n.run x with
    | (.ok a, n')    => (.ok (g a), n')
    | (.error e, n') => (.error e, n') := by
  simp only [run, Functor.map, EStateM.map]
  cases x n <;> rfl

theorem snd_run_map (g : α → β) : (n.run (g <$> x)).2 = (n.run x).2 := by
  rw [run_map]
  cases n.run x
  case mk result n' => cases result <;> rfl

theorem snd_run_discard : (n.run (discard x)).2 = (n.run x).2 := snd_run_map _

theorem run_map_eq_ok_iff {g : α → β} {b : β} :
    n.run (g <$> x) = (.ok b, n') ↔ ∃ a, n.run x = (.ok a, n') ∧ g a = b := by
  rw [run_map]
  cases n.run x
  case mk result n₁ =>
    cases result
    case error e => simp
    case ok a =>
      simp only [Prod.mk.injEq, Except.ok.injEq]
      grind

theorem run_lift_eq_ok_iff {ε : Type} {wrap : ε → Failure} {e : Except ε α} {a : α} :
    n.run (lift wrap e) = (.ok a, n') ↔ e = .ok a ∧ n' = n := by
  cases e <;> simp [lift, eq_comm]

theorem run_tryCatch (handler : Failure → NodeM α) : n.run (tryCatch x handler) =
    match n.run x with
    | (.ok a, n')    => (.ok a, n')
    | (.error e, n') => n'.run (handler e) := by
  have h : (tryCatch x handler : NodeM α) n = EStateM.tryCatch x handler n := rfl
  delta EStateM.tryCatch at h
  rw [run, run, h]
  cases x n <;> rfl

@[simp]
theorem run_quietly : n.run (quietly x) = (.ok ⟨⟩, (n.run x).2) := by
  change n.run (tryCatch ((fun _ => PUnit.unit) <$> x) fun _ => pure PUnit.unit) = _
  rw [run_tryCatch, run_map]
  cases n.run x
  case mk result n' => cases result <;> rfl

theorem fst_run_forM_quietly {γ : Type} (n : Node) (as : List γ) (g : γ → NodeM α) :
    (n.run (as.forM fun a => quietly (g a))).1 = .ok ⟨⟩ := by
  induction as generalizing n
  case nil => rfl
  case cons a as hi =>
    rw [List.forM, run_bind, run_quietly]
    exact hi _

@[simp]
theorem run_outcome : n.run (outcome x) = (.ok (n.run x).1, (n.run x).2) := by
  rw [outcome, run_tryCatch, run_map]
  cases n.run x
  case mk result n' => cases result <;> rfl

theorem run_execute (n : Node) (name : StageName) (job : Job) : n.run (execute name job) =
    match (n.stage name).execute job with
    | .ok stage => (.ok (), n.setStage stage name)
    | .error e  => (.error (.stage e), n) := by
  simp only [execute, run_bind, run_get]
  cases (n.stage name).execute job <;> rfl

theorem run_takeJob (n : Node) (name : StageName) : n.run (takeJob name) =
    match (n.stage name).take with
    | some (job, stage) => (.ok (some job), n.setStage stage name)
    | none              => (.ok none, n) := by
  change (Except.ok _, _) = _
  cases (n.stage name).take <;> rfl

-- A message that has waited for its timeout is counted, and any other is handled. In no case does
-- the worker fail.
theorem run_runInbound (n : Node) (net : Network) (message : Inbound) (id : String)
    (arrived : Nat) :
    n.run (runInbound net message id arrived) =
      if n.config.timeout message.verb ≤ n.clock.elapsed - arrived then
        (.ok .dropped, (n.run (countDropped message.verb)).2)
      else
        (.ok (if (n.run (handle net message id)).1.isOk then .completed else .failed),
          (n.run (handle net message id)).2) := by
  rw [runInbound, run_bind, run_get]
  dsimp only
  rw [runFresh]
  split
  case isTrue  => rfl
  case isFalse =>
    rw [run_bind, run_outcome]
    cases (n.run (handle net message id)).1 <;> rfl

def Keeps (I : Node → Prop) (x : NodeM α) : Prop :=
  ∀ n, I n → I (n.run x).2

theorem Keeps.of_run {result : Except Failure α} (hx : Keeps I x) (h : I n)
    (hr : n.run x = (result, n')) : I n' := by
  have hx := hx n h
  rwa [hr] at hx

theorem keeps_pure (a : α) : Keeps I (pure a) := fun _ h => h

theorem keeps_throw (e : Failure) : Keeps I (throw e : NodeM α) := fun _ h => h

-- What holds after the first part holds after the whole, also when the first part fails.
theorem holds_bind (h : I (n.run x).2) (hf : ∀ a, Keeps I (f a)) : I (n.run (x >>= f)).2 := by
  rw [run_bind]
  cases hr : n.run x
  case mk result n' =>
    rw [hr] at h
    cases result
    case error e => exact h
    case ok a    => exact hf a n' h

theorem Keeps.bind (hx : Keeps I x) (hf : ∀ a, Keeps I (f a)) : Keeps I (x >>= f) :=
  fun n h => holds_bind (hx n h) hf

theorem Keeps.map (hx : Keeps I x) (g : α → β) : Keeps I (g <$> x) := by
  intro n h
  rw [snd_run_map]
  exact hx n h

theorem Keeps.tryCatch {handler : Failure → NodeM α} (hx : Keeps I x)
    (hh : ∀ e, Keeps I (handler e)) : Keeps I (tryCatch x handler) := by
  intro n h
  have hx := hx n h
  rw [run_tryCatch]
  cases hr : n.run x
  case mk result n' =>
    rw [hr] at hx
    cases result
    case error e => exact hh e n' hx
    case ok a    => exact hx

theorem Keeps.forM {g : α → NodeM PUnit} {as : List α} (h : ∀ a ∈ as, Keeps I (g a)) :
    Keeps I (as.forM g) := by
  induction as
  case nil => exact keeps_pure _
  case cons a as hi =>
    have ⟨ha, has⟩ := List.forall_mem_cons.mp h
    exact ha.bind fun _ => hi has

theorem Keeps.mapM {as : List α} (h : ∀ a ∈ as, Keeps I (f a)) : Keeps I (as.mapM f) := by
  induction as
  case nil => exact keeps_pure _
  case cons a as hi =>
    have ⟨ha, has⟩ := List.forall_mem_cons.mp h
    rw [List.mapM_cons]
    exact ha.bind fun _ => (hi has).bind fun _ => keeps_pure _

theorem Keeps.quietly (hx : Keeps I x) : Keeps I (quietly x) :=
  (hx.map _).tryCatch fun _ => keeps_pure _

theorem Keeps.outcome (hx : Keeps I x) : Keeps I (outcome x) :=
  (hx.map _).tryCatch fun _ => keeps_pure _

theorem keeps_get : Keeps I get := fun _ h => h

theorem keeps_modifyGet {g : Node → α × Node} (h : ∀ n, I n → I (g n).2) :
    Keeps I (modifyGet g : NodeM α) := h

-- What is read first is the node itself.
theorem keeps_get_bind {g : Node → NodeM β} (h : ∀ n, I n → I (n.run (g n)).2) :
    Keeps I (get >>= g) := by
  intro n hn
  rw [run_bind]
  exact h n hn

theorem keeps_lift {ε : Type} {wrap : ε → Failure} (e : Except ε α) : Keeps I (lift wrap e) := by
  cases e
  case error e => exact keeps_throw _
  case ok a    => exact keeps_pure _

-- A computation that reads the node, may fail, and replaces the node.
theorem keeps_replace {ε : Type} {wrap : ε → Failure} {e : Node → Except ε α}
    {g : Node → α → Node} {k : Node → α → NodeM β}
    (hg : ∀ n a, e n = .ok a → I n → I (g n a)) (hk : ∀ n a, Keeps I (k n a)) :
    Keeps I (do
      let n ← get
      let a ← lift wrap (e n)
      set (g n a)
      k n a) := by
  refine keeps_get_bind fun n h => ?_
  cases he : e n
  case error _ => exact h
  case ok a    => exact hk n a _ (hg n a he h)

theorem Keeps.runInbound {net : Network} {message : Inbound} {id : String}
    (hh : Keeps I (handle net message id)) (hc : Keeps I (countDropped message.verb))
    (arrived : Nat) : Keeps I (runInbound net message id arrived) := by
  intro n h
  rw [run_runInbound]
  split
  case isTrue  => exact hc n h
  case isFalse => exact hh n h

theorem keeps_checkNewKeyspace (k : Keyspace) : Keeps I (checkNewKeyspace k) := by
  refine (keeps_lift _).bind fun _ => keeps_get.bind fun _ => ?_
  split
  case isTrue  => exact keeps_throw _
  case isFalse => exact keeps_pure _

-- The property is not about what a node notes, and when.
def IgnoresNotes (I : Node → Prop) : Prop :=
  ∀ (n : Node) (clock : Clock) (notes : List Note), I n → I { n with clock, notes }

section

variable (hI : IgnoresNotes I)

include hI

theorem keeps_readClock : Keeps I readClock := fun n => hI n _ _

theorem keeps_note (x : Note) : Keeps I (note x) := fun n => hI n _ _

theorem keeps_react (callback : Callback) (o : Observer) : Keeps I (react callback o) := by
  cases o
  case recorder name => exact keeps_note hI _
  case companion definition =>
    have announce : Keeps I (announceFromWorker definition) :=
      ((keeps_readClock hI).map _).bind fun _ => (keeps_checkNewKeyspace _).bind fun _ =>
        keeps_get.bind fun _ => keeps_throw _
    cases callback
    case createKeyspace k => exact announce.outcome.bind fun _ => keeps_note hI _
    all_goals exact keeps_pure _

theorem keeps_notify (events : List SchemaEvent) : Keeps I (notify events) :=
  keeps_get.bind fun _ => .forM fun (o, callback) _ => keeps_react hI callback o

end

-- Nor about which ids a node draws, nor about what goes out as long as it may be said.
structure Admits (permitted : Outgoing → Prop) (I : Node → Prop) : Prop where
  watches : IgnoresNotes I
  draws (n : Node) : I n → I { n with messenger := n.messenger.fresh.2 }
  emits (n : Node) (o : Outgoing) : permitted o → I n → I { n with outbox := n.outbox ++ [o] }

abbrev IgnoresTalk (I : Node → Prop) : Prop := Admits (fun _ => True) I

-- The batch is among what may be said.
def Tells (permitted : Outgoing → Prop) (batch : List Mutation) : Prop :=
  ∀ a id payload, Wire.writeBatch Protocol.current batch = .ok payload →
    permitted (.send a id (.plain .definitionsUpdate payload))

def TellsDefinitions (permitted : Outgoing → Prop) : Prop := ∀ batch, Tells permitted batch

theorem tellsDefinitions_true : TellsDefinitions fun _ => True := fun _ _ _ _ _ => trivial

section

variable {permitted : Outgoing → Prop} (hI : Admits permitted I)

include hI

theorem keeps_emit {o : Outgoing} (ho : permitted o) : Keeps I (emit o) := fun n => hI.emits n o ho

theorem keeps_advertise {version : Uuid} (hs : permitted (.advertise version)) :
    Keeps I (advertise version) :=
  keeps_emit hI hs

theorem keeps_send {recipient : Address} {id : String} {m : Message}
    (hs : permitted (.send recipient id m)) : Keeps I (send recipient id m) :=
  keeps_emit hI hs

theorem keeps_freshId : Keeps I freshId := fun n => hI.draws n

theorem keeps_sendFresh {m : Message} {recipient : Address}
    (hs : ∀ id, permitted (.send recipient id m)) : Keeps I (sendFresh m recipient) :=
  (keeps_freshId hI).bind fun id => (keeps_send hI (hs id)).bind fun _ => keeps_pure _

-- The same batch goes to each member under an id of its own.
theorem keeps_tellAll {batch : List Mutation} (hs : Tells permitted batch)
    (targets : List Address) : Keeps I (do
      let m ← definitionsMessage batch
      targets.forM fun a => discard (sendFresh m a)
      return targets) := by
  simp only [definitionsMessage, bind_assoc, pure_bind]
  cases hw : Wire.writeBatch Protocol.current batch
  case error e => exact keeps_throw _
  case ok payload =>
    exact (Keeps.forM fun a _ =>
      (keeps_sendFresh hI fun id => hs a id payload hw).map _).bind fun _ => keeps_pure _

theorem keeps_push (hs : TellsDefinitions permitted) (net : Network) (m : Mutation) :
    Keeps I (push net m) :=
  keeps_get.bind fun _ => keeps_tellAll hI (hs [m]) _

theorem keeps_broadcast {batch : List Mutation} (hs : Tells permitted batch) (net : Network) :
    Keeps I (broadcast net batch) := by
  refine keeps_get.bind fun _ => ?_
  dsimp only
  split
  case isTrue  => exact keeps_pure _
  case isFalse => exact keeps_tellAll hI hs _

-- Announcing entries asks the registry, which may learn.
theorem keeps_announceEntry {target : String} {kind : AuditKind} (hs : TellsDefinitions permitted)
    (hq : Keeps I (queryRegistry target kind)) (net : Network) (client value : String) :
    Keeps I (announceEntry net target kind client value) := by
  refine hq.bind fun _ => ?_
  split
  case isTrue => exact keeps_pure _
  case isFalse =>
    exact (keeps_readClock hI.watches).bind fun _ => (keeps_readClock hI.watches).bind fun _ =>
      ((keeps_push hI hs _ _).map _).bind fun _ => keeps_pure _

-- That an accompanying entry fails goes unnoticed.
theorem keeps_audit {target : String} {kind : AuditKind} (hs : TellsDefinitions permitted)
    (hq : Keeps I (queryRegistry target kind)) (net : Network) (client : Option String)
    (value : String) : Keeps I (audit net target kind client value) :=
  (keeps_announceEntry hI hs hq net _ value).quietly

theorem keeps_announceRows (hs : TellsDefinitions permitted)
    (hq : ∀ target kind, Keeps I (queryRegistry target kind)) (net : Network) (m : Mutation) :
    Keeps I (announceRows net m) := by
  refine Keeps.forM fun (kind, rows) _ => Keeps.quietly ?_
  exact (Keeps.mapM fun (target, value) _ => keeps_announceEntry hI hs (hq _ _) _ _ _).bind fun _ =>
    keeps_pure _

end

-- Whatever message is sent may be.
def SendsAll (permitted : Outgoing → Prop) : Prop := ∀ a id m, permitted (.send a id m)

theorem sendsAll_true : SendsAll fun _ => True := fun _ _ _ => trivial

theorem SendsAll.tellsDefinitions {permitted : Outgoing → Prop} (hs : SendsAll permitted) :
    TellsDefinitions permitted :=
  fun _ a id _ _ => hs a id _

section

variable {permitted : Outgoing → Prop} (hI : Admits permitted I) (hs : SendsAll permitted)

include hI hs

theorem keeps_relay (message : Inbound) (forwardList : Bytes) :
    Keeps I (relay message forwardList) :=
  (keeps_lift _).bind fun _ => .forM fun _ _ => keeps_send hI (hs _ _ _)

theorem keeps_replyAddress (message : Inbound) : Keeps I (replyAddress message) := by
  rw [replyAddress]
  split
  case h_1 => exact keeps_lift _
  case h_2 =>
    split
    case isTrue =>
      refine Keeps.bind ?_ fun _ => keeps_pure _
      cases message.parameter? Message.forwardTo
      case none   => exact keeps_pure _
      case some l => exact keeps_relay hI hs message l
    case isFalse => exact keeps_pure _

end

-- The property is about the views alone.
def OfViews (I : Node → Prop) : Prop :=
  ∀ n n' : Node, n'.storage = n.storage → n'.schema = n.schema → n'.registry = n.registry →
    I n → I n'

theorem OfViews.ignoresTalk (hI : OfViews I) : IgnoresTalk I where
  watches n _ _ := hI n _ rfl rfl rfl
  draws n       := hI n _ rfl rfl rfl
  emits n _ _   := hI n _ rfl rfl rfl

-- The views are those of the other node.
def SameViews (n n' : Node) : Prop :=
  n'.storage = n.storage ∧ n'.schema = n.schema ∧ n'.registry = n.registry

theorem ofViews_sameViews (n : Node) : OfViews n.SameViews := by
  intro n₁ n₂ hs hk hr h
  exact ⟨hs.trans h.left, hk.trans h.right.left, hr.trans h.right.right⟩

-- A computation that keeps all properties of the views keeps the views.
theorem sameViews_of_keeps {result : Except Failure α} (h : ∀ I, OfViews I → Keeps I x)
    (hr : n.run x = (result, n')) : n.SameViews n' :=
  (h _ (ofViews_sameViews n)).of_run ⟨rfl, rfl, rfl⟩ hr

section

variable (hI : OfViews I)

include hI

theorem keeps_takeJob (name : StageName) : Keeps I (takeJob name) := by
  refine keeps_modifyGet fun n h => ?_
  split
  case h_1 => cases name <;> exact hI n _ rfl rfl rfl h
  case h_2 => exact h

theorem keeps_finishJob (name : StageName) : Keeps I (finishJob name) := by
  refine keeps_modifyGet fun n h => ?_
  cases name <;> exact hI n _ rfl rfl rfl h

theorem keeps_execute (name : StageName) (job : Job) : Keeps I (execute name job) := by
  refine keeps_get_bind fun n h => ?_
  cases (n.stage name).execute job
  case error e => exact h
  case ok s    => cases name <;> exact hI n _ rfl rfl rfl h

theorem keeps_receive (message : Inbound) (id : String) : Keeps I (receive message id) :=
  keeps_get.bind fun _ => keeps_execute hI _ _

end

end ClusterMetadata.Node
