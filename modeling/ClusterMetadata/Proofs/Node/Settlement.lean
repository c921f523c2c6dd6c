import ClusterMetadata.Proofs.Node.Fanout

/-!
The run of a write that is passed on. In whatever order messages arrive, it goes once to the relay
and once for each entry of the list, each time it is applied and acknowledged to the coordinator,
and nobody passes it on again. Where no definitions come in between, nothing else is stored
(`settles_in_any_order`). Each write is in one of three places, on its way, waiting at its
recipient, or handled (`Going`).
-/

namespace ClusterMetadata

open Node

-- Since it was another, the node has done nothing to its storage but apply mutations. If it has
-- handled the write so many times, that is one of them, and when all was calm they are the write and
-- nothing else.
structure Node.Takes (calm : Prop) (n₀ : Node) (m : Mutation) (queue : List Job) (times : Nat)
    (n : Node) : Prop where
  mutation : n.mutation.Holds queue []
  sorted   : n.Sorted
  writable : n.storage.failing = false
  quiet    : n.outbox = []
  storage  : ∃ batch, n₀.storage.applyAll batch = .ok n.storage ∧ (0 < times → m ∈ batch) ∧
    (calm → batch = List.replicate times m)

namespace Node.Takes

variable {calm : Prop} {m : Mutation} {n n₀ n' : Node} {queue : List Job} {job : Job} {times : Nat}
  {os : List Outgoing}

theorem of_ready (h : n.Ready) : n.Takes calm m [] 0 n where
  mutation := h.idle
  sorted   := h.sorted
  writable := h.writable
  quiet    := h.quiet
  storage  := ⟨[], rfl, nofun, fun _ => rfl⟩

theorem aside (h : n₀.Takes calm m queue times n) (ha : n.Aside calm n') :
    n₀.Takes calm m queue times { n' with outbox := [] } := by
  have ⟨batch, hb, hm, hc⟩ := h.storage
  have ⟨batch', hb', hn⟩ := ha.storage
  refine ⟨ha.mutation ▸ h.mutation, ha.sorted h.sorted, ha.failing.trans h.writable, rfl,
    batch ++ batch', ?_, fun ht => List.mem_append_left _ (hm ht), fun calm => ?_⟩
  case refine_1 => rw [Storage.applyAll_append hb, hb']
  case refine_2 => rw [hn calm, List.append_nil, hc calm]

theorem receive {stage : Stage Job} (h : n₀.Takes calm m queue times n)
    (hs : stage.Holds (queue ++ [job]) []) :
    n₀.Takes calm m (queue ++ [job]) times { n with mutation := stage, outbox := [] } where
  mutation := hs
  sorted   := h.sorted.setMutation stage
  writable := h.writable
  quiet    := rfl
  storage  := h.storage

theorem handle (h : n₀.Takes calm m (job :: queue) times n) (hh : n.Handles m queue os n') :
    n₀.Takes calm m queue (times + 1) { n' with outbox := [] } := by
  have ⟨batch, hb, _, hc⟩ := h.storage
  have one : n.storage.applyAll [m] = .ok n'.storage := by
    rw [Storage.applyAll, List.foldlM_cons, hh.storage]
    rfl
  have hf : n'.storage.failing = n.storage.failing := (Storage.writes_applyAll one).failing
  refine ⟨hh.mutation, hh.sorted h.sorted, hf.trans h.writable, rfl, batch ++ [m], ?_, ?_, ?_⟩
  case refine_1 => rw [Storage.applyAll_append hb, one]
  case refine_2 => exact fun _ => List.mem_append_right _ List.mem_cons_self
  case refine_3 => exact fun calm => by rw [hc calm, List.replicate_succ']

end Node.Takes

namespace Fanout

variable {calm : Prop} {f : Fanout} {t t' : Traffic} {a : Address} {n : Node} {s : SentMessage} {queue : List Job}
  {waiting waiting' : List (SentMessage × Nat)} {handled handled' rest : List SentMessage}

-- A write, and when it arrived.
def jobOf (w : SentMessage × Nat) : Job := .inbound w.1.inbound w.1.id w.2

-- What waits at the member.
def queueAt (waiting : List (SentMessage × Nat)) (a : Address) : List Job :=
  (waiting.filter (·.1.recipient = a)).map jobOf

theorem queueAt_put (waiting : List (SentMessage × Nat)) (w : SentMessage × Nat) :
    queueAt (waiting ++ [w]) w.1.recipient = queueAt waiting w.1.recipient ++ [jobOf w] := by
  simp [queueAt]

theorem queueAt_put_of_ne {w : SentMessage × Nat} (h : a ≠ w.1.recipient) :
    queueAt (waiting ++ [w]) a = queueAt waiting a := by
  simp [queueAt, h.symm]

-- The first that waits for the recipient is taken.
theorem queueAt_take {w : SentMessage × Nat} {before after : List (SentMessage × Nat)}
    (first : ∀ w' ∈ before, w'.1.recipient ≠ w.1.recipient) :
    queueAt (before ++ w :: after) w.1.recipient =
      jobOf w :: queueAt (before ++ after) w.1.recipient := by
  have hb : before.filter (·.1.recipient = w.1.recipient) = [] :=
    List.filter_eq_nil_iff.mpr fun w' hm => by simp [first w' hm]
  simp [queueAt, List.filter_append, hb]

theorem queueAt_take_of_ne {w : SentMessage × Nat} {before after : List (SentMessage × Nat)}
    (h : a ≠ w.1.recipient) : queueAt (before ++ after) a = queueAt (before ++ w :: after) a := by
  simp [queueAt, List.filter_append, h.symm]

-- How many of the messages are the member's.
def countAt (sent : List SentMessage) (a : Address) : Nat := sent.countP (·.recipient = a)

theorem countAt_put (sent : List SentMessage) (s : SentMessage) :
    countAt (sent ++ [s]) s.recipient = countAt sent s.recipient + 1 := by
  simp [countAt]

theorem countAt_put_of_ne (h : a ≠ s.recipient) (sent : List SentMessage) :
    countAt (sent ++ [s]) a = countAt sent a := by
  simp [countAt, h.symm]

theorem countAt_pos (hs : s ∈ handled) : 0 < countAt handled s.recipient :=
  List.countP_pos_iff.mpr ⟨s, hs, decide_eq_true rfl⟩

-- The writes that have arrived wait or have been handled. When the first one is handled the others
-- are sent.
structure Going (calm : Prop) (f : Fanout) (waiting : List (SentMessage × Nat))
    (handled : List SentMessage) (t : Traffic) : Prop where
  serves (a : Address) : a ∈ f.members → t.network.Serves a
  nodes (a : Address) :
    (f.node a).Takes calm f.mutation (queueAt waiting a) (countAt handled a) (t.node a)
  places : t.writes.Perm (t.abroad ++ waiting.map (·.1) ++ handled)
  sent   : f.root ∉ handled ∧ t.writes = [f.root] ∨ f.root ∈ handled ∧ t.writes = f.writes
  acks   : t.acks = handled.map f.ack

theorem going_start (f : Fanout) : f.Going calm [] [] f.start := by
  have posts : Traffic.Posts _ [f.root] f.start := Traffic.posts_emit_send
    (f.serves f.coordinator List.mem_cons_self)
    (f.serves f.relay (List.mem_cons_of_mem _ List.mem_cons_self))
  have hr : f.root ∈ f.writes := List.mem_cons_self
  have writes : f.start.writes = [f.root] :=
    posts.writes.trans (by simp [Traffic.writes, isWrite_of_mem hr])
  have abroad : f.start.abroad = [f.root] :=
    posts.abroad.trans (by simp [Traffic.abroad, isWrite_of_mem hr])
  refine ⟨fun a ha => posts.serves a (f.serves a ha), fun a => ?_, ?_,
    .inl ⟨List.not_mem_nil, writes⟩, ?_⟩
  case refine_1 =>
    rw [posts.node]
    exact .of_ready (f.ready a)
  case refine_2 =>
    rw [writes, abroad]
    exact .refl _
  case refine_3 => exact posts.acks.trans (by simp [Traffic.acks, isAck_of_mem hr])

namespace Going

theorem nodes_become (g : f.Going calm waiting handled t)
    (ha : (f.node a).Takes calm f.mutation (queueAt waiting' a) (countAt handled' a)
      { n with outbox := [] })
    (others : ∀ b ≠ a, queueAt waiting' b = queueAt waiting b ∧
      countAt handled' b = countAt handled b) (b : Address) :
    (f.node b).Takes calm f.mutation (queueAt waiting' b) (countAt handled' b)
      ((t.become a n).node b) := by
  by_cases hb : b = a
  case pos =>
    rw [hb, Traffic.node_become_self]
    exact ha
  case neg =>
    have ⟨hq, hh⟩ := others b hb
    rw [Traffic.node_become_of_ne hb, hq, hh]
    exact g.nodes b

-- What the node does is nothing to the write.
theorem aside (g : f.Going calm waiting handled t) (ha : (t.node a).Aside calm n) :
    f.Going calm waiting handled (t.put a n) := by
  have ⟨os, ho, hos⟩ := ha.outbox
  have hn : n.outbox = os := by rw [ho, (g.nodes a).quiet, List.nil_append]
  have posts : (t.become a n).Posts [] (t.put a n) := Traffic.posts_put_aside (hn ▸ hos) t a
  have hw : (t.put a n).writes = t.writes := posts.writes.trans (List.append_nil _)
  have hf : (t.put a n).abroad = t.abroad := posts.abroad.trans (List.append_nil _)
  refine ⟨fun b hb => posts.serves b (g.serves b hb), ?_, ?_, hw ▸ g.sent, ?_⟩
  case refine_1 =>
    rw [posts.node]
    exact g.nodes_become ((g.nodes a).aside ha) fun b _ => ⟨rfl, rfl⟩
  case refine_2 => rw [hw, hf]; exact g.places
  case refine_3 => exact posts.acks.trans ((List.append_nil _).trans g.acks)

-- A message that is no write has left the network.
theorem of_other (g : f.Going calm waiting handled t) (one : t.flying.Perm (s :: rest))
    (hs : s.message.isWrite = false) : f.Going calm waiting handled { t with flying := rest } := by
  have hp : t.abroad.Perm (rest.filter (·.message.isWrite)) := by
    have hp := one.filter (·.message.isWrite)
    rwa [List.filter_cons, hs] at hp
  exact { g with places := g.places.trans ((hp.append_right _).append_right _) }

theorem arrive (g : f.Going calm waiting handled t) (one : t.flying.Perm (s :: rest))
    (hs : s.message.isWrite = true) :
    f.Going calm (waiting ++ [(s, (t.node s.recipient).clock.elapsed)]) handled
      ({ t with flying := rest }.run s.recipient (receive s.inbound s.id)) := by
  let w : SentMessage × Nat := (s, (t.node s.recipient).clock.elapsed)
  have ht := g.nodes s.recipient
  have hv : s.inbound.verb = .mutation := of_decide_eq_true hs
  have ⟨stage, hq, hr⟩ : ∃ stage, stage.Holds (queueAt waiting s.recipient ++ [jobOf w]) [] ∧
      ((t.node s.recipient).run (receive s.inbound s.id)).2 =
        { t.node s.recipient with mutation := stage } := receive_write ht.mutation hv
  have hp : t.abroad.Perm (s :: rest.filter (·.message.isWrite)) := by
    have hp := one.filter (·.message.isWrite)
    rwa [List.filter_cons, hs] at hp
  let n : Node := { t.node s.recipient with mutation := stage }
  have hn : Traffic.run { t with flying := rest } s.recipient (receive s.inbound s.id) =
      { t with flying := rest }.become s.recipient n := by
    have quiet : n.outbox = [] := ht.quiet
    have hr : (({ t with flying := rest }.node s.recipient).run
        (receive s.inbound s.id)).2 = n := hr
    rw [Traffic.run, hr, Traffic.put_of_quiet quiet]
  rw [hn]
  refine ⟨g.serves, ?_, ?_, g.sent, g.acks⟩
  case refine_1 =>
    refine g.nodes_become ?_ fun b hb => ⟨queueAt_put_of_ne hb, rfl⟩
    rw [queueAt_put waiting w]
    exact ht.receive hq
  case refine_2 =>
    have hl : (waiting ++ [w]).map (·.1) = waiting.map (·.1) ++ [s] := by simp [w]
    have places := g.places.trans ((hp.append_right _).append_right _)
    rw [hl, ← List.append_assoc, List.append_assoc]
    exact places.trans List.perm_middle.symm

theorem mem_writes (g : f.Going calm waiting handled t) (hs : s ∈ t.writes) : s ∈ f.writes := by
  cases g.sent
  case inl h => exact List.mem_singleton.mp (h.right ▸ hs) ▸ List.mem_cons_self
  case inr h => exact h.right ▸ hs

-- As soon as the first write is handled it is passed on.
theorem sent_handle (g : f.Going calm waiting handled t) (hs : s ∈ waiting.map (·.1)) :
    f.root ∈ handled ++ [s] ∧ t.writes ++ f.passedOn s = f.writes := by
  rw [passedOn]
  cases g.sent
  case inl h =>
    have hs : s ∈ t.writes := g.places.mem_iff.mpr (by simp [List.mem_map.mp hs])
    have he : s = f.root := List.mem_singleton.mp (h.right ▸ hs)
    rw [if_pos he, h.right, he]
    exact ⟨by simp, rfl⟩
  case inr h =>
    have hn : s ≠ f.root := by
      intro he
      have count := g.places.count_eq f.root
      have one : t.writes.count f.root = 1 := by
        rw [h.right, writes, List.count_cons_self, List.count_eq_zero.mpr f.root_not_mem_relays]
      have hw : 0 < (waiting.map (·.1)).count f.root := List.count_pos_iff.mpr (he ▸ hs)
      have hh : 0 < handled.count f.root := List.count_pos_iff.mpr h.left
      simp only [List.count_append, one] at count
      omega
    rw [if_neg hn, List.append_nil]
    exact ⟨List.mem_append_left _ h.left, h.right⟩

-- What a member does with the first write that waits there.
theorem handles {w : SentMessage × Nat} (g : f.Going calm waiting handled t)
    (hq : queueAt waiting w.1.recipient = jobOf w :: queue) (hw : w.1 ∈ f.writes)
    (prompt : (t.node w.1.recipient).Prompt) :
    (t.node w.1.recipient).Handles f.mutation queue
      (f.onward w.1 ++ [.send f.coordinator w.1.id .ack])
      ((t.node w.1.recipient).run (runNext t.network .mutation)).2 := by
  have ht := g.nodes w.1.recipient
  rw [hq] at ht
  have fresh : (t.node w.1.recipient).clock.elapsed - w.2 <
      (t.node w.1.recipient).config.timeout w.1.inbound.verb := by
    rw [Prompt, ht.mutation.queue] at prompt
    exact of_decide_eq_true prompt
  exact handles_write ht.mutation (verb_of_mem hw) fresh (reads_of_mem hw) (directs_of_mem hw)
    ht.writable

-- What goes out then.
theorem posts {w : SentMessage × Nat} (g : f.Going calm waiting handled t)
    (hh : (t.node w.1.recipient).Handles f.mutation queue
      (f.onward w.1 ++ [.send f.coordinator w.1.id .ack]) n) (hw : w.1 ∈ f.writes) :
    (t.become w.1.recipient n).Posts (f.passedOn w.1 ++ [f.ack w.1]) (t.put w.1.recipient n) := by
  have ⟨rest, ho, hr⟩ := hh.outbox
  rw [(g.nodes w.1.recipient).quiet, List.nil_append] at ho
  rw [← f.posted_onward]
  exact Traffic.posts_put ho hr (g.serves _ (recipient_mem_of_mem hw))
    fun b id m hm => g.serves b (mem_of_send_mem hm)

-- A write that waits at a member is handled.
theorem handle {w : SentMessage × Nat} {before after : List (SentMessage × Nat)}
    (g : f.Going calm (before ++ w :: after) handled t)
    (first : ∀ w' ∈ before, w'.1.recipient ≠ w.1.recipient)
    (prompt : (t.node w.1.recipient).Prompt) :
    f.Going calm (before ++ after) (handled ++ [w.1])
      (t.run w.1.recipient (runNext t.network .mutation)) := by
  let n : Node := ((t.node w.1.recipient).run (runNext t.network .mutation)).2
  have hq : queueAt (before ++ w :: after) w.1.recipient =
      jobOf w :: queueAt (before ++ after) w.1.recipient := queueAt_take first
  have hw : w.1 ∈ f.writes := g.mem_writes (g.places.mem_iff.mpr (by simp))
  have hh := g.handles hq hw prompt
  have posts := g.posts hh hw
  have writes : (t.put w.1.recipient n).writes = t.writes ++ f.passedOn w.1 :=
    posts.writes.trans (congrArg _ (f.filter_isWrite w.1))
  have abroad : (t.put w.1.recipient n).abroad = t.abroad ++ f.passedOn w.1 :=
    posts.abroad.trans (congrArg _ (f.filter_isWrite w.1))
  have acks : (t.put w.1.recipient n).acks = t.acks ++ [f.ack w.1] :=
    posts.acks.trans (congrArg _ (f.filter_isAck w.1))
  change f.Going calm (before ++ after) (handled ++ [w.1]) (t.put w.1.recipient n)
  refine ⟨fun b hb => posts.serves b (g.serves b hb), ?_, ?_, .inr ?_, ?_⟩
  case refine_1 =>
    have ht := g.nodes w.1.recipient
    rw [hq] at ht
    rw [posts.node]
    refine g.nodes_become ?_ fun b hb => ⟨queueAt_take_of_ne hb, countAt_put_of_ne hb handled⟩
    rw [countAt_put]
    exact ht.handle hh
  case refine_2 =>
    rw [writes, abroad]
    refine List.perm_iff_count.mpr fun x => ?_
    have count := g.places.count_eq x
    simp only [List.map_append, List.map_cons, List.count_append, List.count_cons, List.count_nil]
      at count ⊢
    omega
  case refine_3 =>
    rw [writes]
    exact g.sent_handle (by simp)
  case refine_4 => rw [acks, g.acks, List.map_append]; rfl

theorem acks_subperm (g : f.Going calm waiting handled t) : t.acks.Subperm (f.writes.map f.ack) := by
  have hs : t.writes.Subperm f.writes := by
    cases g.sent
    case inl h =>
      rw [h.right]
      exact (List.singleton_sublist.mpr List.mem_cons_self).subperm
    case inr h => rw [h.right]
  have hh : handled.Subperm t.writes :=
    (List.sublist_append_right _ handled).subperm.trans g.places.symm.subperm
  have ⟨sent, hp, hl⟩ := hh.trans hs
  rw [g.acks]
  exact ⟨sent.map f.ack, hp.map f.ack, hl.map f.ack⟩

theorem moves_eq (g : f.Going calm waiting handled t) :
    t.moves = waiting.length + 2 * handled.length := by
  have hl := g.places.length_eq
  simp only [List.length_append, List.length_map] at hl
  rw [Traffic.moves, g.acks, List.length_map]
  omega

theorem length_le (g : f.Going calm waiting handled t) : t.writes.length ≤ 1 + f.entries.length := by
  cases g.sent
  case inl h => simp [h.right]
  case inr h => simp [h.right, Fanout.writes, relays, Nat.add_comm]

theorem moves_le (g : f.Going calm waiting handled t) : t.moves ≤ 2 * (1 + f.entries.length) := by
  have hl := g.places.length_eq
  have hs := g.length_le
  simp only [List.length_append, List.length_map] at hl
  rw [g.moves_eq]
  omega

-- At every step writes arrive and are handled, or nothing happens to them.
theorem step (g : f.Going calm waiting handled t) (hc : calm → t.Calm) (h : Traffic.Step t t') :
    ∃ waiting' handled', f.Going calm waiting' handled' t' ∧ t.moves ≤ t'.moves := by
  have stays (g' : f.Going calm waiting handled t') :
      ∃ waiting' handled', f.Going calm waiting' handled' t' ∧ t.moves ≤ t'.moves :=
    ⟨waiting, handled, g', by rw [g.moves_eq, g'.moves_eq]⟩
  cases h
  case arrives i =>
    let s := t.flying[i]
    have one : t.flying.Perm (s :: t.flying.eraseIdx i) :=
      (List.getElem_cons_eraseIdx_perm i.isLt).symm
    cases hs : s.message.isWrite
    case true =>
      have g' : f.Going calm _ handled (t.arrive i) := g.arrive one hs
      refine ⟨_, _, g', ?_⟩
      rw [g.moves_eq, g'.moves_eq, List.length_append]
      omega
    case false =>
      have hv : s.inbound.verb ≠ .mutation := of_decide_eq_false hs
      exact stays ((g.of_other one hs).aside (aside_receive hv))
  case works a name prompt =>
    by_cases hn : name = .mutation
    case neg => exact stays (g.aside (aside_runNext (hc · a name) hn (g.nodes a).sorted))
    case pos =>
      subst hn
      cases hq : waiting.filter (·.1.recipient = a)
      case nil =>
        have hm := (g.nodes a).mutation
        rw [queueAt, hq] at hm
        refine stays (g.aside ?_)
        rw [run_runNext_of_holds_nil hm]
        exact .refl _
      case cons w ws =>
        obtain ⟨before, after, hw, hb, ha, _⟩ := List.filter_eq_cons_iff.mp hq
        have ha : w.1.recipient = a := of_decide_eq_true ha
        subst hw ha
        have first (w' : SentMessage × Nat) (hm : w' ∈ before) :
            w'.1.recipient ≠ w.1.recipient := by
          simpa using hb w' hm
        have g' := g.handle first (prompt rfl)
        refine ⟨_, _, g', ?_⟩
        rw [g.moves_eq, g'.moves_eq]
        simp only [List.length_append, List.length_cons, List.length_nil]
        omega
  case hears a event => exact stays (g.aside (aside_hear event))
  case fires a alarm => exact stays (g.aside (aside_fire alarm))
  case waits a clock => exact stays (g.aside (.of_eq rfl rfl rfl))

-- A write that is on its way can arrive, and one that waits can be handled.
theorem progress (g : f.Going calm waiting handled t) (hn : ¬t.Settled)
    (prompt : ∀ a, (t.node a).Prompt) : ∃ t', Traffic.Step t t' ∧ t.moves < t'.moves := by
  cases waiting
  case cons w waiting =>
    have first : f.Going calm ([] ++ w :: waiting) handled t := g
    have g' := first.handle nofun (prompt w.1.recipient)
    refine ⟨_, .works t w.1.recipient .mutation fun _ => prompt _, ?_⟩
    rw [g.moves_eq, g'.moves_eq]
    simp only [List.length_append, List.length_cons, List.length_nil]
    omega
  case nil =>
    have hf : t.abroad ≠ [] := fun hf => hn ⟨hf, fun a => (g.nodes a).mutation.queue⟩
    have ⟨s, hs⟩ := List.exists_mem_of_ne_nil _ hf
    have ⟨hs, hw⟩ := List.mem_filter.mp hs
    have ⟨i, hi, he⟩ := List.getElem_of_mem hs
    have g' : f.Going calm _ handled (t.arrive ⟨i, hi⟩) :=
      g.arrive (List.getElem_cons_eraseIdx_perm hi).symm (he ▸ hw)
    refine ⟨_, .arrives t ⟨i, hi⟩, ?_⟩
    rw [g.moves_eq, g'.moves_eq, List.length_append]
    simp

theorem settled_iff (g : f.Going calm waiting handled t) : t.Settled ↔ t.abroad = [] ∧ waiting = [] := by
  refine and_congr_right fun _ => ⟨fun hq => ?_, fun hw a => ?_⟩
  case refine_1 =>
    refine List.eq_nil_iff_forall_not_mem.mpr fun w hm => ?_
    have hj : jobOf w ∈ queueAt waiting w.1.recipient :=
      List.mem_map_of_mem (List.mem_filter.mpr ⟨hm, decide_eq_true rfl⟩)
    rw [← (g.nodes w.1.recipient).mutation.queue, hq] at hj
    cases hj
  case refine_2 =>
    rw [(g.nodes a).mutation.queue, hw]
    rfl

-- All have been sent, and all have been handled.
theorem of_settled (g : f.Going calm waiting handled t) (h : t.Settled) :
    t.writes = f.writes ∧ f.writes.Perm handled := by
  have ⟨hf, hw⟩ := g.settled_iff.mp h
  have hp : t.writes.Perm handled := by
    have hp := g.places
    rwa [hf, hw] at hp
  have hw : t.writes = f.writes := by
    cases g.sent
    case inr h => exact h.right
    case inl h =>
      have hr : f.root ∈ handled := hp.mem_iff.mp (h.right ▸ List.mem_cons_self)
      exact absurd hr h.left
  exact ⟨hw, hw ▸ hp⟩

theorem settled_iff_moves (g : f.Going calm waiting handled t) :
    t.Settled ↔ t.moves = 2 * (1 + f.entries.length) := by
  have hf : f.writes.length = 1 + f.entries.length := by
    simp [Fanout.writes, relays, Nat.add_comm]
  rw [g.moves_eq]
  constructor
  case mp =>
    intro h
    obtain ⟨_, hw⟩ := g.settled_iff.mp h
    have hl := (g.of_settled h).right.length_eq
    rw [hw, List.length_nil]
    omega
  case mpr =>
    intro hm
    have hl := g.places.length_eq
    have hs := g.length_le
    simp only [List.length_append, List.length_map] at hl
    have hf : t.abroad.length = 0 := by omega
    have hw : waiting.length = 0 := by omega
    exact g.settled_iff.mpr ⟨List.length_eq_zero_iff.mp hf, List.length_eq_zero_iff.mp hw⟩

theorem settled (g : f.Going calm waiting handled t) (h : t.Settled) :
    t.writes = f.writes ∧ t.acks.Perm (f.writes.map f.ack) ∧
      ∀ s ∈ f.writes, ∃ batch, f.mutation ∈ batch ∧
        (f.node s.recipient).storage.applyAll batch = .ok (t.node s.recipient).storage := by
  have ⟨hw, hp⟩ := g.of_settled h
  refine ⟨hw, ?_, fun s hs => ?_⟩
  case refine_1 =>
    rw [g.acks]
    exact (hp.map f.ack).symm
  case refine_2 =>
    have ⟨batch, hb, hm, _⟩ := (g.nodes s.recipient).storage
    exact ⟨batch, hm (countAt_pos (hp.mem_iff.mp hs)), hb⟩

theorem stored (g : f.Going True waiting handled t) (h : t.Settled) (a : Address) :
    (f.node a).storage.applyAll (f.copies a) = .ok (t.node a).storage := by
  have hp : f.writes.countP (·.recipient = a) = countAt handled a :=
    (g.of_settled h).right.countP_eq _
  have ⟨batch, hb, _, hc⟩ := (g.nodes a).storage
  rw [copies, hp, ← hc trivial]
  exact hb

end Going

theorem exists_going {R : Traffic → Traffic → Prop}
    (steps : ∀ t t', R t t' → (calm → t.Calm) ∧ Traffic.Step t t')
    (h : Relation.ReflTransGen R f.start t) :
    ∃ waiting handled, f.Going calm waiting handled t := by
  induction h
  case refl => exact ⟨[], [], f.going_start⟩
  case tail _ h hi =>
    have ⟨_, _, g⟩ := hi
    have ⟨hc, h⟩ := steps _ _ h
    have ⟨_, _, g', _⟩ := g.step hc h
    exact ⟨_, _, g'⟩

-- Whatever comes first, the write goes to the relay, and from it to each member of the list under
-- the id that goes with it, and nowhere else. No acknowledgement goes elsewhere than to the
-- coordinator. Moves are not taken back, and short of the end there is another one. In the end each
-- recipient has applied the write, and has acknowledged each copy of it. If no definitions come
-- meanwhile, the copies are all that is stored anywhere.
theorem settles_in_any_order (h : Relation.ReflTransGen Traffic.Step f.start t) :
    (t.writes = [f.root] ∨ t.writes = f.writes) ∧
    t.acks.Subperm (f.writes.map f.ack) ∧
    t.moves ≤ 2 * (1 + f.entries.length) ∧
    (t.Settled ↔ t.moves = 2 * (1 + f.entries.length)) ∧
    (∀ t', Traffic.Step t t' → t.moves ≤ t'.moves) ∧
    (¬t.Settled → (∀ a, (t.node a).Prompt) → ∃ t', Traffic.Step t t' ∧ t.moves < t'.moves) ∧
    (t.Settled → t.writes = f.writes ∧ t.acks.Perm (f.writes.map f.ack) ∧
      ∀ s ∈ f.writes, ∃ batch, f.mutation ∈ batch ∧
        (f.node s.recipient).storage.applyAll batch = .ok (t.node s.recipient).storage) ∧
    (Relation.ReflTransGen Traffic.CalmStep f.start t → t.Settled →
      ∀ a, (f.node a).storage.applyAll (f.copies a) = .ok (t.node a).storage) := by
  have ⟨waiting, handled, g⟩ : ∃ waiting handled, f.Going False waiting handled t :=
    exists_going (fun _ _ h => ⟨nofun, h⟩) h
  refine ⟨g.sent.imp And.right And.right, g.acks_subperm, g.moves_le, g.settled_iff_moves,
    fun t' hs => ?_, g.progress, g.settled, fun calm => ?_⟩
  case refine_1 =>
    have ⟨_, _, _, hm⟩ := g.step nofun hs
    exact hm
  case refine_2 =>
    have ⟨_, _, g⟩ : ∃ waiting handled, f.Going True waiting handled t :=
      exists_going (fun _ _ h => ⟨fun _ => h.left, h.right⟩) calm
    exact g.stored

-- The coordinator and the relay are on the list, the relay twice. The relayed writes arrive in the
-- reverse order, some of them before another is handled. In the end the relay has stored the row
-- three times and the coordinator once.
theorem settles_in_any_order_of_repetitions :
    let k : Address := .v4 10 0 0 1
    let r : Address := .v4 10 0 0 2
    ∃ (f : Fanout) (t : Traffic), f.coordinator = k ∧ f.relay = r ∧
      f.entries = [(r, "2"), (k, "3"), (r, "4")] ∧
      Relation.ReflTransGen Traffic.Step f.start t ∧ t.Settled ∧
      t.writes = f.writes ∧ t.acks.Perm (f.writes.map f.ack) ∧
      (∀ s ∈ f.writes, ∃ batch, f.mutation ∈ batch ∧
        (f.node s.recipient).storage.applyAll batch = .ok (t.node s.recipient).storage) ∧
      Relation.ReflTransGen Traffic.CalmStep f.start t ∧
      (f.node r).storage.applyAll (.replicate 3 f.mutation) = .ok (t.node r).storage ∧
      (f.node k).storage.applyAll [f.mutation] = .ok (t.node k).storage := by
  intro k r
  let row := Mutation.ofFamilies "app" [1] [("users", Row.write [] 5 [(Row.marker, [])])]
  let entries : List (Address × String) := [(r, "2"), (k, "3"), (r, "4")]
  let payload := (Wire.writeMutation Protocol.current row).toOption.getD []
  let octets := (Wire.writeForwardList entries).toOption.getD []
  let join (net : Network) (a : Address) : Network := (net.add a Protocol.current false).1.attach a
  let f : Fanout := {
    network := [k, r].foldl join (.new 1 Network.defaultCapacity)
    node := fun a => idle a .standard ∅ "node" ⟨1000, 0, 0⟩ 0
    coordinator := k
    relay := r
    id := "1"
    entries
    message := (Message.plain .mutation payload).withParameter Message.forwardTo octets
    mutation := row
    ready := fun a => ⟨Stage.isIdle_new _ _, nofun, rfl, rfl⟩
    serves := by decide +kernel
    verb := rfl
    reads := by decide +kernel
    lists := ⟨octets, by decide +kernel, Wire.run_readForwardList (by decide) (by decide +kernel)⟩
    original := by decide +kernel }
  let works (t : Traffic) (a : Address) : Traffic := t.run a (runNext t.network .mutation)
  let t₁ := f.start.arrive ⟨0, by decide +kernel⟩
  let t₂ := works t₁ r
  let t₃ := t₂.arrive ⟨2, by decide +kernel⟩
  let t₄ := t₃.arrive ⟨1, by decide +kernel⟩
  let t₅ := works t₄ r
  let t₆ := t₅.arrive ⟨0, by decide +kernel⟩
  let t₇ := works (works t₆ k) r
  have calm₀ : f.start.Calm := by
    have none : ∀ job ∈ ([] : List Job), ¬job.Merges := nofun
    exact fun _ name => by cases name <;> exact none
  have calm₁ : t₁.Calm := calm₀.arrive _ fun name => by cases name <;> decide +kernel
  have calm₂ : t₂.Calm := calm₁.run fun name => by cases name <;> decide +kernel
  have calm₃ : t₃.Calm := calm₂.arrive _ fun name => by cases name <;> decide +kernel
  have calm₄ : t₄.Calm := calm₃.arrive _ fun name => by cases name <;> decide +kernel
  have calm₅ : t₅.Calm := calm₄.run fun name => by cases name <;> decide +kernel
  have calm₆ : t₆.Calm := calm₅.arrive _ fun name => by cases name <;> decide +kernel
  have calm₇ : (works t₆ k).Calm := calm₆.run fun name => by cases name <;> decide +kernel
  have hc : Relation.ReflTransGen Traffic.CalmStep f.start t₇ :=
    .head ⟨calm₀, .arrives f.start _⟩ <|
    .head ⟨calm₁, .works t₁ r _ fun _ => by decide +kernel⟩ <|
    .head ⟨calm₂, .arrives t₂ _⟩ <|
    .head ⟨calm₃, .arrives t₃ _⟩ <|
    .head ⟨calm₄, .works t₄ r _ fun _ => by decide +kernel⟩ <|
    .head ⟨calm₅, .arrives t₅ _⟩ <|
    .head ⟨calm₆, .works t₆ k _ fun _ => by decide +kernel⟩ <|
    .single ⟨calm₇, .works (works t₆ k) r _ fun _ => by decide +kernel⟩
  have h : Relation.ReflTransGen Traffic.Step f.start t₇ := Traffic.steps_of_calm hc
  have ⟨_, _, _, hs, _, _, settled, stored⟩ := settles_in_any_order h
  have ht : t₇.Settled := hs.mpr (by decide +kernel)
  have ⟨hw, ha, applied⟩ := settled ht
  have three : f.writes.countP (·.recipient = r) = 3 := by decide +kernel
  have one : f.writes.countP (·.recipient = k) = 1 := by decide +kernel
  have hr := stored hc ht r
  have hk := stored hc ht k
  rw [copies, three] at hr
  rw [copies, one] at hk
  exact ⟨f, t₇, rfl, rfl, rfl, h, ht, hw, ha, applied, hc, hr, hk⟩

end Fanout
end ClusterMetadata
