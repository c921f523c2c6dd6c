import ClusterMetadata.Proofs.Node.Pulls
import Mathlib.Data.List.Perm.Subperm
import Std.Data.String.ToNat

/-!
Each pull is resolved at most once, however the threads of the node take their turns
(`pulls_resolve_once`). Its id and its ticket are in one place at any time: with a thread, in the
queue, with the requests that wait for a response, or with what is over.
-/

namespace ClusterMetadata

open Node

theorem Messenger.nodup_idAfter {κ : Type} (m : Messenger κ) {k : Nat} (hk : k ≤ UInt64.size) :
    ((List.range k).map m.idAfter).Nodup := by
  refine List.Nodup.map_on (fun i hi j hj h => ?_) List.nodup_range
  have hi := Nat.lt_of_lt_of_le (List.mem_range.mp hi) hk
  have hj := Nat.lt_of_lt_of_le (List.mem_range.mp hj) hk
  have he := UInt64.toNat_inj.mp (Nat.repr_inj.mp h)
  have hn := UInt64.toNat_inj.mpr ((UInt64.add_right_inj _).mp he)
  rwa [UInt64.toNat_ofNat_of_lt' hi, UInt64.toNat_ofNat_of_lt' hj] at hn

-- The pulls and merges that wait in the queue, and the pulls that wait for a response.
def Books.tickets (b : Books) : List Nat :=
  b.queue.filterMap (·.ticket?) ++ b.messenger.waiting.toList.map (·.2.ticket)

namespace Work

-- The request has an id, but is not registered yet.
def unregistered? : Work → Option String
  | drawn _ id => some id
  | _          => none

-- The thread has the pull or the merge in hand.
def ticket? : Work → Option Nat
  | job j             => j.ticket?
  | drawn request _   => some request.ticket
  | claimed request _ => some request.ticket
  | settling ticket _ => some ticket
  | _                 => none

-- The thread knows what became of the pull or the merge.
def settling? : Work → Option Nat
  | settling ticket _ => some ticket
  | _                 => none

section

variable {b b' : Books} {w w' : Work} (h : Effect b w w' b')

include h

-- A step moves ids and tickets on, but makes none, except that a pull draws its id.

theorem Effect.next : b'.messenger.nextId = (b.messenger.skip w.draws).nextId := by
  cases h
  case draws => rfl
  all_goals simp [Work.draws, Messenger.skip, Messenger.await, Messenger.claim]

theorem Effect.ids : (w.event w').toList.filterMap (·.requested?) ++ w'.unregistered?.toList =
    w.unregistered?.toList ++ (List.range w.draws).map b.messenger.idAfter := by
  cases h <;> rfl

theorem Effect.sent : (w.event w').toList.filterMap (·.sent?) ++ w'.unsent?.toList =
    w.unsent?.toList ++ (w.event w').toList.filterMap (·.requested?) := by
  cases h <;> rfl

theorem Effect.merged :
    (w.settling?.toList ++ (w.event w').toList.filterMap (·.merged?)).Subperm
      (w'.settling?.toList ++ ((w.event w').toList.filterMap (·.settled?)).map (·.1)) := by
  cases h
  case fails   => exact List.nil_subperm
  case expires => exact List.nil_subperm
  all_goals exact .refl _

theorem Effect.nextTicket : b'.nextTicket = b.nextTicket := by
  cases h <;> rfl

-- Outcomes change only where a thread says what became of a pull or a merge.
theorem Effect.outcomes :
    b'.outcomes = b.outcomes ∧ (w.event w').toList.filterMap (·.settled?) = [] ∨
    ∃ ticket result, (w.event w').toList.filterMap (·.settled?) = [(ticket, result)] ∧
      b'.outcomes = b.outcomes.insertIfNew ticket result := by
  cases h
  case settles ticket result => exact .inr ⟨ticket, result, rfl, rfl⟩
  all_goals exact .inl ⟨rfl, rfl⟩

-- A request is not registered over another one.
variable (hn : ∀ id ∈ w.unregistered?, b.messenger.waiting[id]? = none)

include hn

theorem Effect.pending :
    ((w.event w').toList.filterMap (·.claimed?) ++ (w.event w').toList.filterMap (·.expired?) ++
      b'.messenger.waiting.keys).Perm
    (b.messenger.waiting.keys ++ (w.event w').toList.filterMap (·.requested?)) := by
  have nothing {ids : List String} : ids.Perm (ids ++ []) := .of_eq (List.append_nil ids).symm
  simp only [← Std.ExtTreeMap.map_fst_toList_eq_keys]
  cases h
  case registers request id =>
    have hp := (SortedMap.toList_insert_perm (b := request) (hn id rfl)).map (·.1)
    exact hp.trans (List.perm_append_singleton ..).symm
  case claims message id request hw =>
    exact ((SortedMap.toList_perm_erase hw).map (·.1)).symm.trans nothing
  case expires id request e hw =>
    exact ((SortedMap.toList_perm_erase hw).map (·.1)).symm.trans nothing
  all_goals exact nothing

theorem Effect.tickets :
    (b'.tickets ++ w'.ticket?.toList ++
      ((w.event w').toList.filterMap (·.settled?)).map (·.1)).Perm
      (b.tickets ++ w.ticket?.toList) := by
  refine List.perm_iff_count.mpr fun t => ?_
  cases h
  case registers request id =>
    have hp := SortedMap.toList_insert_perm (b := request) (hn id rfl)
    have hc := (hp.map (·.2.ticket)).count_eq t
    simp [Books.tickets, event, Messenger.await, ticket?, hc, List.count_cons, PullEvent.settled?]
  case claims message id request hw =>
    have hc := ((SortedMap.toList_perm_erase hw).map (·.2.ticket)).count_eq t
    simp [Books.tickets, event, ticket?, Messenger.claim, hc, List.count_cons, PullEvent.settled?]
  case expires id request e hw =>
    have hc := ((SortedMap.toList_perm_erase hw).map (·.2.ticket)).count_eq t
    simp [Books.tickets, event, ticket?, Messenger.claim, hc, List.count_cons, PullEvent.settled?]
  all_goals
    simp [Books.tickets, event, ticket?, Messenger.skip, PullEvent.settled?, Job.ticket?,
      List.count_cons]

end

end Work

namespace Pulls

variable {p p' : Pulls}

theorem filterMap_cons_eq {α β : Type} (f : α → Option β) (a : α) (as : List α) :
    (a :: as).filterMap f = (f a).toList ++ as.filterMap f := by
  rw [List.filterMap_cons]
  cases f a <;> rfl

-- Each id that has been drawn for a request is in one place.
structure Counted (first : Messenger PullRequest) (p : Pulls) : Prop where
  next    : p.node.books.messenger.nextId = (first.skip p.drawn).nextId
  ids     : (p.requested ++ p.works.filterMap (·.unregistered?)).Subperm
    ((List.range p.drawn).map first.idAfter)
  pending : (p.claimed ++ p.expired ++ p.node.books.messenger.waiting.keys).Perm p.requested
  sent    : (p.sent ++ p.unsent).Perm p.requested

section

variable {first : Messenger PullRequest} (hc : p.Counted first)

include hc

theorem Counted.nodup_ids (hd : p.drawn ≤ UInt64.size) :
    (p.requested ++ p.works.filterMap (·.unregistered?)).Nodup := by
  have ⟨ids, hp, hs⟩ := hc.ids
  exact hp.nodup_iff.mp (hs.nodup (first.nodup_idAfter hd))

theorem Counted.absent (hd : p.drawn ≤ UInt64.size) {w : Work} {rest : List Work}
    (one : p.works.Perm (w :: rest)) :
    ∀ id ∈ w.unregistered?, p.node.books.messenger.waiting[id]? = none := by
  intro id hid
  have hm : id ∈ p.works.filterMap (·.unregistered?) :=
    List.mem_filterMap.mpr ⟨w, one.mem_iff.mpr List.mem_cons_self, hid⟩
  have hn : id ∉ p.requested := fun hr => (List.disjoint_of_nodup_append (hc.nodup_ids hd)) hr hm
  by_contra hw
  have ⟨r, hw⟩ := Option.ne_none_iff_exists'.mp hw
  have hk := SortedMap.mem_keys_iff.mpr ⟨r, hw⟩
  exact hn (hc.pending.mem_iff.mp (List.mem_append_right _ hk))

-- The ids that are drawn next.
theorem Counted.map_idAfter (k : Nat) :
    (List.range (p.drawn + k)).map first.idAfter =
      (List.range p.drawn).map first.idAfter ++
        (List.range k).map p.node.books.messenger.idAfter := by
  have he : p.node.books.messenger.idAfter = fun i => first.idAfter (p.drawn + i) := by
    funext i
    rw [← Messenger.idAfter_skip, Messenger.idAfter, hc.next]
    rfl
  rw [List.range_add, List.map_append, List.map_map, he]
  rfl

theorem Counted.next_skip (k : Nat) :
    (p.node.books.messenger.skip k).nextId = (first.skip (p.drawn + k)).nextId := by
  rw [← Messenger.skip_skip]
  simp only [Messenger.skip] at *
  rw [hc.next]
  rfl

theorem Counted.change (h : Change p p') (hd : p'.drawn ≤ UInt64.size) : p'.Counted first := by
  cases h
  case queues n js k books belong tickets =>
    exact ⟨books ▸ hc.next, hc.ids, books ▸ hc.pending, hc.sent⟩
  case takes n j js queue books =>
    exact ⟨books ▸ hc.next, hc.ids, books ▸ hc.pending, hc.sent⟩
  case hears message id => exact { hc with }
  case fires id => exact { hc with }
  case works n w w' rest one effect =>
    have hn := hc.absent (Nat.le_trans (Nat.le_add_right ..) hd) one
    refine ⟨?_, ?_, ?_, ?_⟩
    · exact effect.next.trans (hc.next_skip w.draws)
    · have hm : (List.range (p.after n w w' rest).drawn).map first.idAfter = _ :=
        hc.map_idAfter w.draws
      rw [hm]
      refine List.subperm_ext_iff.mpr fun id _ => ?_
      have hids := hc.ids.count_le id
      have hone := (one.filterMap (·.unregistered?)).count_eq id
      have hw := congrArg (List.count id) effect.ids
      simp only [after, requested, filterMap_cons_eq, List.filterMap_append, List.count_append] at *
      omega
    · refine List.perm_iff_count.mpr fun id => ?_
      have hids := hc.pending.count_eq id
      have hw := (effect.pending hn).count_eq id
      simp only [after, requested, claimed, expired, List.filterMap_append, List.count_append] at *
      omega
    · refine List.perm_iff_count.mpr fun id => ?_
      have hids := hc.sent.count_eq id
      have hone := (one.filterMap (·.unsent?)).count_eq id
      have hw := congrArg (List.count id) effect.sent
      simp only [after, requested, Pulls.sent, unsent, filterMap_cons_eq, List.filterMap_append,
        List.count_append] at *
      omega
  case elsewhere n k books =>
    refine ⟨?_, ?_, ?_, hc.sent⟩
    · rw [books]
      exact hc.next_skip k
    · rw [hc.map_idAfter]
      exact hc.ids.trans (List.sublist_append_left ..).subperm
    · rw [books]
      exact hc.pending

end

-- Of all pulls and merges, those whose outcome is not known.
def unresolved (p : Pulls) : List Nat :=
  p.node.books.tickets ++ p.works.filterMap (·.ticket?)

theorem settling_sublist (ws : List Work) :
    (ws.filterMap (·.settling?)).Sublist (ws.filterMap (·.ticket?)) := by
  induction ws
  case nil => exact .slnil
  case cons w ws hi =>
    simp only [filterMap_cons_eq]
    refine List.Sublist.append ?_ hi
    cases w
    case settling ticket result => exact .refl _
    all_goals exact List.nil_sublist _

-- The ticket of each pull and merge is in one place, until it is known what became of it.
structure Resolving (p : Pulls) : Prop where
  tickets  : (p.unresolved ++ p.settled.map (·.1)).Subperm (List.range p.node.books.nextTicket)
  merged   : p.merged.Subperm (p.works.filterMap (·.settling?) ++ p.settled.map (·.1))
  unknown  : ∀ t, t ∈ p.unresolved ∨ p.node.books.nextTicket ≤ t →
    p.node.books.outcomes[t]? = none
  outcomes : ∀ e ∈ p.settled, p.node.books.outcomes[e.1]? = some e.2

theorem Resolving.of_perm (hr : p.Resolving) (hu : p'.unresolved.Perm p.unresolved)
    (hw : p'.works.filterMap (·.settling?) = p.works.filterMap (·.settling?))
    (hh : p'.history = p.history) (hn : p'.node.books.nextTicket = p.node.books.nextTicket)
    (ho : p'.node.books.outcomes = p.node.books.outcomes) : p'.Resolving := by
  have hs : p'.settled = p.settled := by rw [settled, hh, settled]
  have hm : p'.merged = p.merged := by rw [Pulls.merged, hh, Pulls.merged]
  refine ⟨?_, ?_, fun t ht => ?_, fun e he => ?_⟩
  · rw [hs, hn]
    exact (hu.append_right _).subperm.trans hr.tickets
  · rw [hm, hw, hs]
    exact hr.merged
  · rw [ho]
    rw [hn, hu.mem_iff] at ht
    exact hr.unknown t ht
  · rw [ho]
    exact hr.outcomes e (hs ▸ he)

theorem Resolving.nodup_unresolved (hr : p.Resolving) : p.unresolved.Nodup := by
  have ⟨ts, hp, hs⟩ := hr.tickets
  exact (hp.nodup_iff.mp (hs.nodup List.nodup_range)).of_append_left

theorem Resolving.lt_nextTicket (hr : p.Resolving) {t : Nat} (ht : t ∈ p.unresolved) :
    t < p.node.books.nextTicket :=
  List.mem_range.mp (hr.tickets.subset (List.mem_append_left _ ht))

section

variable (hr : p.Resolving)

include hr

-- New tickets come with what is queued.
theorem Resolving.queue {n : Node} {ts : List Nat} {k : Nat}
    (hu : (Pulls.unresolved { p with node := n }).Perm (p.unresolved ++ ts))
    (hk : ts.Sublist (List.range' p.node.books.nextTicket k))
    (hn : n.books.nextTicket = p.node.books.nextTicket + k)
    (ho : n.books.outcomes = p.node.books.outcomes) : Resolving { p with node := n } := by
  refine ⟨?_, hr.merged, fun t ht => ?_, fun e he => ?_⟩
  · rw [hn, List.range_add, ← List.range'_eq_map_range]
    refine List.subperm_ext_iff.mpr fun t _ => ?_
    have hold := hr.tickets.count_le t
    have hnew := hk.count_le t
    have hu := hu.count_eq t
    simp only [settled, List.count_append] at *
    omega
  · rw [ho]
    apply hr.unknown
    rw [hn, hu.mem_iff, List.mem_append] at ht
    rcases ht with (ht | ht) | ht
    · exact .inl ht
    · exact .inr (List.mem_range'_1.mp (hk.subset ht)).left
    · exact .inr (Nat.le_trans (Nat.le_add_right ..) ht)
  · rw [ho]
    exact hr.outcomes e he

-- An outcome is settled that was not known before.
theorem Resolving.getElem?_settle {ts : List Nat} {t : Nat} {result : Except Failure MergeReport}
    {outcomes : SortedMap Nat (Except Failure MergeReport)} (hu : (ts ++ [t]).Perm p.unresolved)
    (ho : outcomes = p.node.books.outcomes.insertIfNew t result) :
    (∀ t', t' ∈ ts ∨ p.node.books.nextTicket ≤ t' → outcomes[t']? = none) ∧
      ∀ e ∈ p.settled ++ [(t, result)], outcomes[e.1]? = some e.2 := by
  have hm : t ∈ p.unresolved := hu.subset (by simp)
  have hn := hr.unknown t (.inl hm)
  rw [ho, SortedMap.insertIfNew_eq_insert hn]
  simp only [Std.ExtTreeMap.getElem?_insert, Std.compare_eq_iff_eq]
  constructor
  case left =>
    intro t' ht
    have hd := List.disjoint_of_nodup_append (hu.nodup_iff.mpr hr.nodup_unresolved)
    have hne : t ≠ t' := by
      intro h
      subst h
      rcases ht with ht | ht
      · exact hd ht (by simp)
      · exact absurd (hr.lt_nextTicket hm) (Nat.not_lt.mpr ht)
    rw [if_neg hne]
    exact hr.unknown t' (ht.imp_left fun ht => hu.subset (List.mem_append_left _ ht))
  case right =>
    intro e he
    rcases List.mem_append.mp he with he | he
    case inl =>
      have hold := hr.outcomes e he
      have hne : t ≠ e.1 := by
        intro h
        rw [h, hold] at hn
        cases hn
      rw [if_neg hne]
      exact hold
    case inr => simp [List.mem_singleton.mp he]

variable {n : Node} {w w' : Work} {rest : List Work}

theorem Resolving.work (one : p.works.Perm (w :: rest))
    (effect : Work.Effect p.node.books w w' n.books)
    (hn : ∀ id ∈ w.unregistered?, p.node.books.messenger.waiting[id]? = none) :
    (p.after n w w' rest).Resolving := by
  have hs : (p.after n w w' rest).settled =
      p.settled ++ (w.event w').toList.filterMap (·.settled?) := List.filterMap_append
  have hu : ((p.after n w w' rest).unresolved ++
      ((w.event w').toList.filterMap (·.settled?)).map (·.1)).Perm p.unresolved := by
    refine List.perm_iff_count.mpr fun t => ?_
    have hone := (one.filterMap (·.ticket?)).count_eq t
    have hw := (effect.tickets hn).count_eq t
    simp only [after, unresolved, filterMap_cons_eq, List.count_append] at *
    omega
  have ht : (p.after n w w' rest).node.books.nextTicket = p.node.books.nextTicket :=
    effect.nextTicket
  have known : (∀ t, t ∈ (p.after n w w' rest).unresolved ∨ p.node.books.nextTicket ≤ t →
      n.books.outcomes[t]? = none) ∧
      ∀ e ∈ (p.after n w w' rest).settled, n.books.outcomes[e.1]? = some e.2 := by
    rw [hs]
    rcases effect.outcomes with ⟨ho, he⟩ | ⟨t, result, he, ho⟩
    case inl =>
      rw [he, List.map_nil, List.append_nil] at hu
      rw [ho, he, List.append_nil]
      exact ⟨fun t ht => hr.unknown t (ht.imp_left hu.mem_iff.mp), hr.outcomes⟩
    case inr =>
      rw [he] at hu ⊢
      exact hr.getElem?_settle hu ho
  refine ⟨?_, ?_, ht ▸ known.left, known.right⟩
  · rw [ht]
    refine List.subperm_ext_iff.mpr fun t _ => ?_
    have hold := hr.tickets.count_le t
    have hnew := hu.count_eq t
    simp only [hs, List.map_append, List.count_append] at *
    omega
  · refine List.subperm_ext_iff.mpr fun t _ => ?_
    have hold := hr.merged.count_le t
    have hone := (one.filterMap (·.settling?)).count_eq t
    have hw := effect.merged.count_le t
    simp only [hs, after, Pulls.merged, filterMap_cons_eq, List.filterMap_append, List.map_append,
      List.count_append] at *
    omega

theorem Resolving.change (h : Change p p')
    (hn : ∀ w rest, p.works.Perm (w :: rest) → ∀ id ∈ w.unregistered?,
      p.node.books.messenger.waiting[id]? = none) : p'.Resolving := by
  cases h
  case queues n js k books belong tickets =>
    refine hr.queue ?_ tickets (by rw [books]) (by rw [books])
    refine List.perm_iff_count.mpr fun t => ?_
    simp only [unresolved, Books.tickets, books, List.filterMap_append, List.count_append]
    omega
  case takes n j js queue books =>
    refine hr.of_perm ?_ rfl rfl (by rw [books]) (by rw [books])
    refine List.perm_iff_count.mpr fun t => ?_
    simp only [unresolved, Books.tickets, books, queue, filterMap_cons_eq, List.count_append,
      Work.ticket?]
    omega
  case hears message id => exact { hr with }
  case fires id => exact { hr with }
  case works n w w' rest one effect => exact hr.work one effect (hn w rest one)
  case elsewhere n k books =>
    refine hr.of_perm ?_ rfl rfl (by rw [books]) (by rw [books])
    rw [unresolved, books]
    exact .refl _

end

-- Nobody has asked for a pull or a merge whose outcome is not known.
structure IsQuiet (n : Node) : Prop where
  waiting : n.messenger.waiting = ∅
  queue   : n.migration.queue = []
  unknown : ∀ t, n.nextTicket ≤ t → n.outcomes[t]? = none

variable {n : Node}

theorem sorted_start (hn : IsQuiet n) : (start n).Sorted := by
  refine ⟨fun j hj => ?_, nofun⟩
  have hq : n.books.queue = [] := hn.queue
  rw [start, hq] at hj
  cases hj

theorem counted_start (hn : IsQuiet n) : (start n).Counted n.messenger := by
  have hw : n.books.messenger.waiting = ∅ := hn.waiting
  refine ⟨?_, List.nil_subperm, ?_, .nil⟩
  · rw [start, Messenger.skip_zero]
    rfl
  · simp [requested, claimed, expired, start, hw]

theorem resolving_start (hn : IsQuiet n) : (start n).Resolving := by
  have hu : (start n).unresolved = [] := by
    have hq : n.books.queue = [] := hn.queue
    have hw : n.books.messenger.waiting = ∅ := hn.waiting
    simp [unresolved, start, Books.tickets, hq, hw]
  refine ⟨?_, List.nil_subperm, fun t ht => ?_, nofun⟩
  · rw [hu]
    exact List.nil_subperm
  · rw [hu] at ht
    exact hn.unknown t (ht.resolve_left List.not_mem_nil)

theorem Change.drawn_le (h : Change p p') : p.drawn ≤ p'.drawn := by
  cases h
  case works     => exact Nat.le_add_right ..
  case elsewhere => exact Nat.le_add_right ..
  all_goals exact Nat.le_refl _

theorem orderly_of_run (hn : IsQuiet n) (h : Relation.ReflTransGen Step (start n) p) :
    p.Sorted ∧ (p.drawn ≤ UInt64.size → p.Counted n.messenger ∧ p.Resolving) := by
  induction h
  case refl => exact ⟨sorted_start hn, fun _ => ⟨counted_start hn, resolving_start hn⟩⟩
  case tail p p' _ step hi =>
    have hc := hi.left.change step
    refine ⟨hi.left.of_change hc, fun hd => ?_⟩
    have hd' := Nat.le_trans hc.drawn_le hd
    have ⟨hp, hr⟩ := hi.right hd'
    exact ⟨hp.change hc hd, hr.change hc fun _ _ one => hp.absent hd' one⟩

-- However the threads take their turns, and whatever responses come, as long as the ids do not
-- start again: those of requests are distinct. A pull is merged at most once and settled at most
-- once, and what was settled stays its outcome. A response under an id that has been claimed or has
-- expired does nothing. Waiting are the requests that were made, but for those claimed and those
-- expired.
theorem pulls_resolve_once (hn : IsQuiet n) (h : Relation.ReflTransGen Step (start n) p)
    (hd : p.drawn ≤ UInt64.size) :
    p.requested.Nodup ∧
    (p.merged.Nodup ∧ (p.settled.map (·.1)).Nodup ∧
      ∀ e ∈ p.settled, p.node.outcomes[e.1]? = some e.2) ∧
    (∀ id ∈ p.claimed ++ p.expired, ∀ message,
      p.node.run (handleResponse message id) = (.ok (), p.node)) ∧
    p.node.messenger.pending + p.claimed.length + p.expired.length = p.requested.length ∧
    (p.sent ++ p.unsent).Perm p.requested := by
  have ⟨_, ho⟩ := orderly_of_run hn h
  have ⟨hc, hr⟩ := ho hd
  have hids : p.requested.Nodup := (hc.nodup_ids hd).of_append_left
  have ⟨ts, hp, hs⟩ := hr.tickets
  have htickets := hp.nodup_iff.mp (hs.nodup List.nodup_range)
  refine ⟨hids, ⟨?_, htickets.of_append_right, hr.outcomes⟩, ?_, ?_, hc.sent⟩
  case refine_1 =>
    have ⟨ts, hp, hs⟩ := hr.merged
    have hw : (p.works.filterMap (·.settling?)).Sublist p.unresolved :=
      (settling_sublist _).trans (List.sublist_append_right ..)
    exact hp.nodup_iff.mp ((hs.trans (hw.append_right _)).nodup htickets)
  case refine_2 =>
    intro id hid message
    have hw : p.node.messenger.waiting[id]? = none := by
      by_contra hw
      have ⟨request, hw⟩ := Option.ne_none_iff_exists'.mp hw
      have hd := List.disjoint_of_nodup_append (hc.pending.nodup_iff.mpr hids)
      exact hd hid (SortedMap.mem_keys_iff.mpr ⟨request, hw⟩)
    have h : p.node.run (handleResponse message id) =
        { p.node with messenger := (p.node.messenger.claim id).2 }.run
          (p.node.messenger.waiting[id]?.forM (mergeResponse · message)) := rfl
    rw [h, hw, Work.claim_eq_self hw]
    rfl
  case refine_3 =>
    have hl := hc.pending.length_eq
    have hk : p.node.books.messenger.waiting.keys.length = p.node.messenger.pending :=
      Std.ExtTreeMap.length_keys
    simp only [List.length_append] at hl
    omega

-- Responses come before the request is registered and before it is sent. The second one is claimed,
-- and the timer finds nothing.
theorem pulls_resolve_once_of_early_responses :
    let n := idle (.v4 10 0 0 1) .standard ∅ "node" ⟨1000, 0, 0⟩ 0
    let id := n.messenger.fresh.1
    ∃ p, IsQuiet n ∧ Relation.ReflTransGen Step (start n) p ∧ p.drawn ≤ UInt64.size ∧
      p.history = [.requested id, .claimed id, .sent id] ∧
      p.requested.Nodup ∧
      (p.merged.Nodup ∧ (p.settled.map (·.1)).Nodup ∧
        ∀ e ∈ p.settled, p.node.outcomes[e.1]? = some e.2) ∧
      (∀ id ∈ p.claimed ++ p.expired, ∀ message,
        p.node.run (handleResponse message id) = (.ok (), p.node)) ∧
      p.node.messenger.pending + p.claimed.length + p.expired.length = p.requested.length ∧
      (p.sent ++ p.unsent).Perm p.requested := by
  intro n id
  let message : Inbound :=
    { Message.plain .requestResponse [] with sender := .v4 10 0 0 2, version := Protocol.current }
  let net := Network.new 1 Network.defaultCapacity
  let r : PullRequest := { peer := message.sender, ticket := n.nextTicket }
  let j : Job := .pull r.peer r.ticket
  let n₁ := (n.run (submitPull r.peer)).2
  let n₂ := (n₁.run (takeJob .migration)).2
  let n₃ : Node := { n₂ with messenger := (n₂.messenger.claim id).2 }
  let n₄ : Node := { n₃ with messenger := n₃.messenger.fresh.2 }
  let n₅ : Node := { n₄ with messenger := n₄.messenger.await id r }
  let n₆ : Node := { n₅ with messenger := (n₅.messenger.claim id).2 }
  let n₇ := (n₆.run (send r.peer id (.plain .migrationRequest []))).2
  let n₈ : Node := { n₇ with messenger := (n₇.messenger.claim id).2 }
  have submits : Step (start n) ⟨n₁, [], 0, []⟩ := .submits (start n) r.peer
  have takes : Step ⟨n₁, [], 0, []⟩ ⟨n₂, [.job j], 0, []⟩ := .takes rfl
  have hears : Step ⟨n₂, [.job j], 0, []⟩ ⟨n₂, [.response message id, .job j], 0, []⟩ :=
    .hears _ message id
  have nobody : n₂.messenger.waiting[id]? = none := by
    change (∅ : SortedMap String PullRequest)[id]? = none
    simp
  have misses : Step ⟨n₂, [.response message id, .job j], 0, []⟩ ⟨n₃, [.done, .job j], 0, []⟩ := by
    refine .goes net ?_
    change (Except.ok (n₂.messenger.waiting[id]?.elim _ _), n₃) = _
    rw [nobody]
    rfl
  have drew : Work.Goes net (n₃, .job j) (n₄, .drawn r id) := rfl
  have draws : Step ⟨n₃, [.done, .job j], 0, []⟩ ⟨n₄, [.drawn r id, .done], 1, []⟩ :=
    .works (p := ⟨n₃, [.done, .job j], 0, []⟩) (.swap ..) drew
  have registers : Step ⟨n₄, [.drawn r id, .done], 1, []⟩
      ⟨n₅, [.registered r id, .done], 1, [.requested id]⟩ := .goes net rfl
  have hearsAgain : Step ⟨n₅, [.registered r id, .done], 1, [.requested id]⟩
      ⟨n₅, [.response message id, .registered r id, .done], 1, [.requested id]⟩ :=
    .hears _ message id
  have found : n₅.messenger.waiting[id]? = some r := Std.ExtTreeMap.getElem?_insert_self
  have claims : Step ⟨n₅, [.response message id, .registered r id, .done], 1, [.requested id]⟩
      ⟨n₆, [.claimed r message, .registered r id, .done], 1, [.requested id, .claimed id]⟩ := by
    refine .goes net ?_
    change (Except.ok (n₅.messenger.waiting[id]?.elim _ _), n₆) = _
    rw [found]
    rfl
  have sent : Work.Goes net (n₆, .registered r id) (n₇, .sent id) := rfl
  have sends : Step
      ⟨n₆, [.claimed r message, .registered r id, .done], 1, [.requested id, .claimed id]⟩
      ⟨n₇, [.sent id, .claimed r message, .done], 1, [.requested id, .claimed id, .sent id]⟩ :=
    .works (p := ⟨n₆, [.claimed r message, .registered r id, .done], 1, _⟩) (.swap ..) sent
  have fires : Step
      ⟨n₇, [.sent id, .claimed r message, .done], 1, [.requested id, .claimed id, .sent id]⟩
      ⟨n₇, [.alarm id, .sent id, .claimed r message, .done], 1,
        [.requested id, .claimed id, .sent id]⟩ := .fires _ id
  have tooLate : n₇.messenger.waiting[id]? = none := Std.ExtTreeMap.getElem?_erase_self
  have late : Step
      ⟨n₇, [.alarm id, .sent id, .claimed r message, .done], 1,
        [.requested id, .claimed id, .sent id]⟩
      ⟨n₈, [.done, .sent id, .claimed r message, .done], 1,
        [.requested id, .claimed id, .sent id]⟩ := by
    refine .goes net ?_
    change (Except.ok (n₇.messenger.waiting[id]?.elim _ _), n₈) = _
    rw [tooLate]
    rfl
  have run : Relation.ReflTransGen Step (start n) _ :=
    .head submits <| .head takes <| .head hears <| .head misses <| .head draws <| .head registers <|
      .head hearsAgain <| .head claims <| .head sends <| .head fires <| .single late
  have quiet : IsQuiet n := ⟨rfl, rfl, fun _ _ => rfl⟩
  have few : 1 ≤ UInt64.size := by decide
  exact ⟨_, quiet, run, few, rfl, pulls_resolve_once quiet run few⟩

end Pulls
end ClusterMetadata
