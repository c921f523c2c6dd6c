import ClusterMetadata.Node.Start
import ClusterMetadata.Proofs.Audit.Log
import ClusterMetadata.Proofs.Node.Push
import ClusterMetadata.Proofs.Schema.Rows
import Mathlib.Data.List.Pairwise
import Mathlib.Logic.Relation

/-!
The audit log that several nodes write together. A record is named by the time, the client and the
kind of its entry, and not by the node that announces it. Times that a node reads increase, so its
own entries never meet (`rising_steps`); what the log holds under a name is the greatest of the
entries that do (`getElem?_value_iff`).
-/

namespace ClusterMetadata

-- An entry that a node has sent to the replicas of its target, with the instant of its cells.
structure Announcement (ι : Type) where
  node : ι
  entry : AuditEntry
  timestamp : Int64

namespace Announcement

variable {ι : Type}

def mutation (a : Announcement ι) : Mutation := a.entry.addition a.timestamp

-- What the record of the entry holds.
def cell (a : Announcement ι) : Stamped where
  value     := Utf8.encode a.entry.value
  timestamp := a.timestamp

def name (a : Announcement ι) : CellName := a.entry.row.child AuditEntry.valueLeaf

def marker (a : Announcement ι) : CellName := a.entry.row.child Row.marker

theorem mutation_on (a : Announcement ι) (id : PartitionId) : a.mutation.on id =
    if AuditEntry.partition a.entry.target = id then
      [.write a.marker ⟨[], a.timestamp⟩, .write a.name a.cell]
    else [] :=
  a.entry.addition_on a.timestamp id

-- Both entries have one record.
def Meets (a b : Announcement ι) : Prop :=
  a.entry.target = b.entry.target ∧ a.entry.row = b.entry.row

theorem Meets.symm {a b : Announcement ι} (h : a.Meets b) : b.Meets a := ⟨h.left.symm, h.right.symm⟩

end Announcement

-- What the announcement of an entry does that goes out to somebody.
structure Node.Announces (net : Network) (n : Node) (e : AuditEntry) (timestamp : Int64)
    (n' : Node) : Prop where
  ran       : n.run (announceEntry net e.target e.kind e.client e.value) = (.ok true, n')
  sent      : n'.outbox ≠ n.outbox
  time      : e.time = n.clock.next
  timestamp : timestamp = n.clock.read.2.next

theorem Node.Announces.clock_eq {net : Network} {n n' : Node} {e : AuditEntry} {timestamp : Int64}
    (h : n.Announces net e timestamp n') : n'.clock = n.clock.read.2.read.2 :=
  (run_announceEntry_eq_ok_true h.ran).left

-- The messages that go out carry the entry, and nothing else.
theorem Node.Announces.carries {net : Network} {n n' : Node} {e : AuditEntry} {timestamp : Int64}
    (h : n.Announces net e timestamp n') : ∃ payload,
      Wire.writeBatch Protocol.current [e.addition timestamp] = .ok payload ∧
      n'.outbox = n.outbox ++ n.copies (.plain .definitionsUpdate payload)
        (net.pushTargets n.address (Utf8.encode e.target)) := by
  have ⟨_, payload, hw, ho⟩ := run_announceEntry_eq_ok_true h.ran
  rw [← h.time, ← h.timestamp] at hw ho
  exact ⟨payload, hw, ho⟩

-- Nodes, and the entries that they have announced, oldest first.
structure Trail (ι : Type) where
  node : ι → Node
  announced : List (Announcement ι)

namespace Trail

variable {ι : Type} {p p' : Trail ι} {i : ι} {a b : Announcement ι}
  {announced added : List (Announcement ι)}

-- What a storage has taken in: the announced entries of the target, in any order and number, and
-- whatever concerns other partitions.
structure Heard (announced : List (Announcement ι)) (target : String) (heard : List Mutation) :
    Prop where
  all  : ∀ a ∈ announced, a.entry.target = target → a.mutation ∈ heard
  only : ∀ m ∈ heard, m.on (AuditEntry.partition target) ≠ [] → ∃ a ∈ announced, m = a.mutation

section

variable {target : String} {heard : List Mutation} {mod : Modification}

theorem Heard.mem_batchOn_iff (h : Heard announced target heard) :
    mod ∈ batchOn heard (AuditEntry.partition target) ↔
      ∃ a ∈ announced, a.entry.target = target ∧
        (mod = .write a.marker ⟨[], a.timestamp⟩ ∨ mod = .write a.name a.cell) := by
  rw [mem_batchOn]
  constructor
  case mp =>
    intro ⟨m, hm, hw⟩
    have ⟨a, ha, he⟩ := h.only m hm (List.ne_nil_of_mem hw)
    rw [he, a.mutation_on, List.mem_ite_nil_right] at hw
    exact ⟨a, ha, AuditEntry.partition_inj.mp hw.left, by simpa using hw.right⟩
  case mpr =>
    intro ⟨a, ha, ht, hw⟩
    refine ⟨a.mutation, h.all a ha ht, ?_⟩
    rw [a.mutation_on, ht, if_pos rfl]
    simpa using hw

theorem Heard.isDeletion_eq_false (h : Heard announced target heard) :
    ∀ mod ∈ batchOn heard (AuditEntry.partition target), mod.isDeletion = false := by
  intro mod hm
  have ⟨_, _, _, hw⟩ := h.mem_batchOn_iff.mp hm
  cases hw <;> simp_all [Modification.isDeletion]

variable {s s' : Storage}

theorem reflects_of_applyAll (he : s.partition (AuditEntry.partition target) = ∅)
    (hs : s.applyAll heard = .ok s') : (s'.partition (AuditEntry.partition target)).Reflects
      (batchOn heard (AuditEntry.partition target)) := by
  rw [(Storage.writes_applyAll hs).partition, he]
  exact Partition.reflects_empty.foldl _

variable (hh : Heard announced target heard)
  (he : s.partition (AuditEntry.partition target) = ∅) (hs : s.applyAll heard = .ok s')

include hh he hs

theorem Heard.getElem?_iff {n : CellName} {c : Stamped} :
    (s'.partition (AuditEntry.partition target)).cells[n]? = some c ↔
      IsGreatest {c | .write n c ∈ batchOn heard (AuditEntry.partition target)} c := by
  rw [(reflects_of_applyAll he hs).getElem?_eq_some_iff]
  refine ⟨IsLive.greatest, fun h => ⟨h, fun m hm path d hd => ?_⟩⟩
  cases hd <;> cases hh.isDeletion_eq_false _ hm

-- Nothing that was written under a name goes without being replaced.
theorem Heard.exists_getElem?_eq_some {n : CellName} {c : Stamped}
    (hw : .write n c ∈ batchOn heard (AuditEntry.partition target)) :
    ∃ c', (s'.partition (AuditEntry.partition target)).cells[n]? = some c' := by
  have hr := reflects_of_applyAll he hs
  have ⟨c', hc, _⟩ := hr.exists_live_of_not_covered hw (Std.le_refl _)
    (not_covered_of_writes hh.isDeletion_eq_false)
  exact ⟨c', hc⟩

-- Of the entries that have one record it holds the greatest.
theorem Heard.getElem?_name_iff (ht : a.entry.target = target) {c : Stamped} :
    (s'.partition (AuditEntry.partition target)).cells[a.name]? = some c ↔
      IsGreatest {c | ∃ b ∈ announced, b.Meets a ∧ c = b.cell} c := by
  have hset : {c | .write a.name c ∈ batchOn heard (AuditEntry.partition target)} =
      {c | ∃ b ∈ announced, b.Meets a ∧ c = b.cell} := by
    ext c
    simp only [Set.mem_ofPred_eq, hh.mem_batchOn_iff, Modification.write.injEq, Announcement.name,
      Announcement.marker, CellName.child_inj, Announcement.Meets, ht]
    constructor
    case mp =>
      intro ⟨b, hb, hbt, h⟩
      cases h
      case inl h => exact absurd h.left.right (by decide)
      case inr h => exact ⟨b, hb, ⟨hbt, h.left.left.symm⟩, h.right⟩
    case mpr => exact fun ⟨b, hb, hm, hc⟩ => ⟨b, hb, hm.left, .inr ⟨⟨hm.right.symm, trivial⟩, hc⟩⟩
  rw [hh.getElem?_iff he hs, hset]

-- A record of one entry alone holds that entry.
theorem Heard.holds_of_alone (ha : a ∈ announced) (ht : a.entry.target = target)
    (halone : ∀ b ∈ announced, b.Meets a → b = a) :
    (s'.partition (AuditEntry.partition target)).cells[a.name]? = some a.cell ∧
      (s'.partition (AuditEntry.partition target)).cells[a.marker]? = some ⟨[], a.timestamp⟩ := by
  constructor
  case left =>
    rw [hh.getElem?_name_iff he hs ht]
    refine ⟨⟨a, ha, ⟨rfl, rfl⟩, rfl⟩, fun c hc => ?_⟩
    have ⟨b, hb, hm, hc⟩ := hc
    exact (hc.trans (congrArg Announcement.cell (halone b hb hm))).le
  case right =>
    rw [hh.getElem?_iff he hs]
    refine ⟨hh.mem_batchOn_iff.mpr ⟨a, ha, ht, .inl rfl⟩, fun c hc => ?_⟩
    have ⟨b, hb, hbt, hw⟩ := hh.mem_batchOn_iff.mp hc
    simp only [Modification.write.injEq, Announcement.marker, Announcement.name,
      CellName.child_inj] at hw
    cases hw
    case inl hw =>
      have hba := halone b hb ⟨hbt.trans ht.symm, hw.left.left.symm⟩
      exact (hba ▸ hw.right).le
    case inr hw => exact absurd hw.left.right (by decide)

end

-- The times of a node's entries increase, and the next one is later still.
structure Rising (p : Trail ι) : Prop where
  times : p.announced.Pairwise fun a b => a.node = b.node → a.entry.time < b.entry.time
  past  : ∀ a ∈ p.announced, a.entry.time < (p.node a.node).clock.next

-- Entries of one node do not meet.
theorem Rising.not_meets (hr : p.Rising) :
    p.announced.Pairwise fun a b => a.node = b.node → ¬a.Meets b :=
  hr.times.imp fun {_ _} ht hn hm => Std.ne_of_lt (ht hn) (AuditEntry.time_eq_of_row_eq hm.right)

theorem Rising.eq_of_meets (hr : p.Rising) (ha : a ∈ p.announced) (hb : b ∈ p.announced)
    (hn : a.node = b.node) (hm : a.Meets b) : a = b := by
  have : Std.Symm fun a b : Announcement ι => a.node = b.node → a.Meets b → a = b :=
    ⟨fun a b h hn hm => (h hn.symm hm.symm).symm⟩
  have hp : p.announced.Pairwise fun a b => a.node = b.node → a.Meets b → a = b :=
    hr.not_meets.imp fun {_ _} h hn hm => absurd hm (h hn)
  exact hp.forall_of_forall (fun _ _ _ _ => rfl) ha hb hn hm

section

variable [DecidableEq ι]

-- The node has become another and has announced the entries.
def after (p : Trail ι) (i : ι) (n : Node) (added : List (Announcement ι)) : Trail ι where
  node      := Function.update p.node i n
  announced := p.announced ++ added

theorem node_after_self {n : Node} : (p.after i n added).node i = n :=
  Function.update_self ..

theorem node_after_of_ne {j : ι} {n : Node} (h : j ≠ i) : (p.after i n added).node j = p.node j :=
  Function.update_of_ne h ..

-- What can happen to a node. It announces entries, and otherwise does what it likes. The readings of
-- its clock increase.
inductive Step : Trail ι → Trail ι → Prop
  | moves (p : Trail ι) (i : ι) {n : Node} (later : (p.node i).clock.next ≤ n.clock.next) :
    Step p (p.after i n [])
  | announces (p : Trail ι) (i : ι) {net : Network} {e : AuditEntry} {timestamp : Int64} {n : Node}
      (ran : (p.node i).Announces net e timestamp n)
      (later : (p.node i).clock.next < n.clock.next) :
    Step p (p.after i n [⟨i, e, timestamp⟩])

theorem Rising.after {n : Node} (hr : p.Rising) (later : (p.node i).clock.next ≤ n.clock.next)
    (hadded : added = [] ∨ ∃ e timestamp, added = [⟨i, e, timestamp⟩] ∧
      e.time = (p.node i).clock.next ∧ (p.node i).clock.next < n.clock.next) :
    (p.after i n added).Rising where
  times := by
    refine List.pairwise_append.mpr ⟨hr.times, ?_, fun a ha b hb hab => ?_⟩
    · rcases hadded with rfl | ⟨_, _, rfl, _⟩ <;> simp
    · rcases hadded with rfl | ⟨e, timestamp, rfl, he, _⟩
      · cases hb
      · cases List.mem_singleton.mp hb
        have ht := hr.past a ha
        rw [hab] at ht
        exact he ▸ ht
  past := by
    intro a ha
    rcases List.mem_append.mp ha with ha | ha
    · have ht := hr.past a ha
      by_cases hi : a.node = i
      case neg => rwa [node_after_of_ne hi]
      case pos =>
        rw [hi] at ht ⊢
        rw [node_after_self]
        exact Std.lt_of_lt_of_le ht later
    · rcases hadded with rfl | ⟨e, timestamp, rfl, he, hl⟩
      · cases ha
      · cases List.mem_singleton.mp ha
        rw [node_after_self, he]
        exact hl

theorem Rising.step (hr : p.Rising) (h : Step p p') : p'.Rising := by
  cases h
  case moves i n later => exact hr.after later (.inl rfl)
  case announces i net e timestamp n ran later =>
    exact hr.after (Std.le_of_lt later) (.inr ⟨e, timestamp, rfl, ran.time, later⟩)

theorem rising_steps (h : Relation.ReflTransGen Step p p') (hp : p.announced = []) :
    p'.Rising := by
  induction h
  case refl        => exact ⟨by simp [hp], by simp [hp]⟩
  case tail _ h hi => exact hi.step h

-- Once a storage has taken in every entry of a target, the record of each entry holds the greatest
-- of those that share it. No two entries of one node do, and an entry that shares its record with
-- no other node's is there as it was announced.
theorem log_holds_announced {target : String} {heard : List Mutation} {s s' : Storage}
    (h : Relation.ReflTransGen Step p p') (hp : p.announced = [])
    (hh : Heard p'.announced target heard)
    (he : s.partition (AuditEntry.partition target) = ∅) (hs : s.applyAll heard = .ok s') :
    p'.announced.Pairwise (fun a b => a.node = b.node → ¬a.Meets b) ∧
    ∀ a ∈ p'.announced, a.entry.target = target →
      (∃ b ∈ p'.announced, b.Meets a ∧ (∀ c ∈ p'.announced, c.Meets a → c.cell ≤ b.cell) ∧
        (s'.partition (AuditEntry.partition target)).cells[a.name]? = some b.cell) ∧
      ((∀ b ∈ p'.announced, b.Meets a → b.node = a.node) →
        (s'.partition (AuditEntry.partition target)).cells[a.name]? = some a.cell ∧
        (s'.partition (AuditEntry.partition target)).cells[a.marker]? = some ⟨[], a.timestamp⟩) := by
  have hr := rising_steps h hp
  refine ⟨hr.not_meets, fun a ha ht => ⟨?_, fun hn => ?_⟩⟩
  · have hw := hh.mem_batchOn_iff.mpr ⟨a, ha, ht, .inr rfl⟩
    have ⟨c, hc⟩ := hh.exists_getElem?_eq_some he hs hw
    have hg := (hh.getElem?_name_iff he hs ht).mp hc
    obtain ⟨b, hb, hm, rfl⟩ := hg.left
    exact ⟨b, hb, hm, fun c' hc' hm' => hg.right ⟨c', hc', hm', rfl⟩, hc⟩
  · exact hh.holds_of_alone he hs ha ht fun b hb hm => hr.eq_of_meets hb ha (hn b hb hm) hm

-- Two entries of one node, and one of another node that has read its clock at another time. All come
-- late, and the first comes twice.
theorem log_holds_announced_of_two_nodes :
    let net := ((Network.new 1 Network.defaultCapacity).add (.v4 10 0 0 1) Protocol.current false).1
    let node (a : Address) (wall : Int64) : Node :=
      { Node.idle a .standard ∅ "node" ⟨wall, 0, 0⟩ 0 with
        registry := (∅ : Registry).learn "app.users" AuditKind.tableAltered.code "on" }
    let announce (n : Node) (value : String) :=
      (n.run (Node.announceEntry net "app.users" .tableAltered "eve" value)).2
    let entry (time : Int64) (value : String) : AuditEntry :=
      { target := "app.users", time, client := "eve", kind := .tableAltered, value }
    let n := node (.v4 10 0 0 1) 1000
    let n' := node (.v4 10 0 0 2) 1001
    let p : Trail Bool := { node := fun other => bif other then n' else n, announced := [] }
    let a : Announcement Bool := ⟨false, entry 1000 "one", 1001⟩
    let b : Announcement Bool := ⟨false, entry 1002 "two", 1003⟩
    let c : Announcement Bool := ⟨true, entry 1001 "three", 1002⟩
    let p' := ((p.after false (announce n "one") [a]).after false
      (announce (announce n "one") "two") [b]).after true (announce n' "three") [c]
    let heard := [c, a, b, a].map Announcement.mutation
    let partition := AuditEntry.partition "app.users"
    ∃ s, Relation.ReflTransGen Step p p' ∧ p.announced = [] ∧ Heard p'.announced "app.users" heard ∧
      (∅ : Storage).partition partition = ∅ ∧ (∅ : Storage).applyAll heard = .ok s ∧
      p'.announced.Pairwise (fun a b => a.node = b.node → ¬a.Meets b) ∧
      ∀ a ∈ p'.announced, a.entry.target = "app.users" →
        (∃ b ∈ p'.announced, b.Meets a ∧ (∀ c ∈ p'.announced, c.Meets a → c.cell ≤ b.cell) ∧
          (s.partition partition).cells[a.name]? = some b.cell) ∧
        ((∀ b ∈ p'.announced, b.Meets a → b.node = a.node) →
          (s.partition partition).cells[a.name]? = some a.cell ∧
          (s.partition partition).cells[a.marker]? = some ⟨[], a.timestamp⟩) := by
  intro net node announce entry n n' p a b c p' heard partition
  let n₁ := announce n "one"
  let p₁ := p.after false n₁ [a]
  let p₂ := p₁.after false (announce n₁ "two") [b]
  have ran (n : Node) (time timestamp : Int64) (value : String)
      (h : (n.run (Node.announceEntry net "app.users" .tableAltered "eve" value)).1.toOption =
        some true ∧ (announce n value).outbox ≠ n.outbox) (ht : time = n.clock.next)
      (hs : timestamp = n.clock.read.2.next) :
      n.Announces net (entry time value) timestamp (announce n value) :=
    ⟨Node.run_eq_ok_of_toOption h.left, h.right, ht, hs⟩
  have ran₁ : n.Announces net a.entry a.timestamp n₁ :=
    ran n 1000 1001 "one" (by decide +kernel) (by decide +kernel) (by decide +kernel)
  have hc₁ : n₁.clock = n.clock.read.2.read.2 := ran₁.clock_eq
  have ran₂ : n₁.Announces net b.entry b.timestamp (announce n₁ "two") :=
    ran n₁ 1002 1003 "two" (by decide +kernel) (by rw [hc₁]; decide +kernel)
      (by rw [hc₁]; decide +kernel)
  have hc₂ : (announce n₁ "two").clock = n₁.clock.read.2.read.2 := ran₂.clock_eq
  have ran₃ : n'.Announces net c.entry c.timestamp (announce n' "three") :=
    ran n' 1001 1002 "three" (by decide +kernel) (by decide +kernel) (by decide +kernel)
  have hn₁ : p₁.node false = n₁ := node_after_self
  have hn₂ : p₂.node true = n' :=
    (node_after_of_ne (by decide)).trans (node_after_of_ne (p := p) (by decide))
  have h₁ : Step p p₁ := .announces p false ran₁ (by rw [hc₁]; decide +kernel)
  have h₂ : Step p₁ p₂ := .announces p₁ false (by rw [hn₁]; exact ran₂) (by
    rw [hn₁, hc₂, hc₁]
    decide +kernel)
  have h₃ : Step p₂ p' := .announces p₂ true (by rw [hn₂]; exact ran₃) (by
    rw [hn₂, ran₃.clock_eq]
    decide +kernel)
  have h : Relation.ReflTransGen Step p p' := .tail (.tail (.single h₁) h₂) h₃
  have hh : Heard p'.announced "app.users" heard := by
    constructor
    case all  => simp [p', p, heard, Trail.after]
    case only => simp [p', p, heard, Trail.after]
  have he : (∅ : Storage).partition partition = ∅ := Storage.partition_empty _
  have ⟨s, hs⟩ := Storage.exists_applyAll_eq_ok (s := ∅) rfl heard
  exact ⟨s, h, rfl, hh, he, hs, log_holds_announced h rfl hh he hs⟩

-- Two nodes that read the same time announce entries of one client and kind. Only one of the entries
-- is in the log.
theorem entry_lost_of_same_time :
    let net := ((Network.new 1 Network.defaultCapacity).add (.v4 10 0 0 1) Protocol.current false).1
    let node (a : Address) : Node := { Node.idle a .standard ∅ "node" ⟨1000, 0, 0⟩ 0 with
      registry := (∅ : Registry).learn "app.users" AuditKind.tableAltered.code "on" }
    let announce (n : Node) (value : String) :=
      (n.run (Node.announceEntry net "app.users" .tableAltered "eve" value)).2
    let entry (value : String) : AuditEntry :=
      { target := "app.users", time := 1000, client := "eve", kind := .tableAltered, value }
    let n := node (.v4 10 0 0 1)
    let n' := node (.v4 10 0 0 2)
    let p : Trail Bool := { node := fun other => bif other then n' else n, announced := [] }
    let a : Announcement Bool := ⟨false, entry "one", 1001⟩
    let b : Announcement Bool := ⟨true, entry "two", 1001⟩
    let p' := (p.after false (announce n "one") [a]).after true (announce n' "two") [b]
    let heard := [a, b].map Announcement.mutation
    ∃ s, Relation.ReflTransGen Step p p' ∧ p.announced = [] ∧ Heard p'.announced "app.users" heard ∧
      (∅ : Storage).applyAll heard = .ok s ∧ a ∈ p'.announced ∧
      ∀ c ∈ s.read (AuditEntry.partition "app.users") .all, c.value ≠ Utf8.encode "one" := by
  intro net node announce entry n n' p a b p' heard
  let p₁ := p.after false (announce n "one") [a]
  have ran (n : Node) (value : String)
      (h : (n.run (Node.announceEntry net "app.users" .tableAltered "eve" value)).1.toOption =
        some true ∧ (announce n value).outbox ≠ n.outbox) (ht : 1000 = n.clock.next)
      (hs : 1001 = n.clock.read.2.next) :
      n.Announces net (entry value) 1001 (announce n value) :=
    ⟨Node.run_eq_ok_of_toOption h.left, h.right, ht, hs⟩
  have ran₁ : n.Announces net a.entry a.timestamp (announce n "one") :=
    ran n "one" (by decide +kernel) (by decide +kernel) (by decide +kernel)
  have ran₂ : n'.Announces net b.entry b.timestamp (announce n' "two") :=
    ran n' "two" (by decide +kernel) (by decide +kernel) (by decide +kernel)
  have hn : p₁.node true = n' := node_after_of_ne (by decide)
  have h₁ : Step p p₁ := .announces p false ran₁ (by rw [ran₁.clock_eq]; decide +kernel)
  have h₂ : Step p₁ p' := .announces p₁ true (by rw [hn]; exact ran₂) (by
    rw [hn, ran₂.clock_eq]
    decide +kernel)
  have hh : Heard p'.announced "app.users" heard := by
    constructor
    case all  => simp [p', p, heard, Trail.after]
    case only => simp [p', p, heard, Trail.after]
  have hs : ((∅ : Storage).applyAll heard).toOption.any (fun s =>
      (s.read (AuditEntry.partition "app.users") .all).all
        fun c => c.value ≠ Utf8.encode "one") = true := by
    decide +kernel
  have ⟨s, hs, hc⟩ := exists_of_any_toOption hs
  refine ⟨s, .tail (.single h₁) h₂, rfl, hh, hs, List.mem_cons_self, ?_⟩
  simpa using hc

end

end Trail
end ClusterMetadata
