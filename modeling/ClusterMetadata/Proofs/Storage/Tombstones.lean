import ClusterMetadata.Proofs.Storage.Calls
import ClusterMetadata.Proofs.Storage.Prevailing

/-!
How far a cell tombstone reaches. It deletes whatever extends its name, as a range tombstone does.
So it concerns all these names: the cell there and the writes to come are as they would be without it
just when every write that it hides is refused already (`alikeAt_after_apply_iff`).
-/

namespace ClusterMetadata

def Modification.isTombstone : Modification → Bool
  | tombstone .. => true
  | _            => false

theorem Modification.isDeletion_of_isTombstone {m : Modification} (h : m.isTombstone = true) :
    m.isDeletion = true := by
  cases m
  case write          => cases h
  case tombstone      => rfl
  case rangeTombstone => cases h

theorem lt_append_singleton (value : Bytes) (byte : UInt8) : value < value ++ [byte] := by
  induction value
  case nil          => exact List.nil_lt_cons byte []
  case cons _ _ hi => exact List.cons_lt_cons_iff.mpr (.inr ⟨rfl, hi⟩)

namespace Partition

variable {p p' p'' : Partition} {n n' : CellName} {c : Stamped} {t t' : Int64} {m : Modification}
  {mods : List Modification}

-- The write is taken in. One that is not leaves no trace.
def accepts (p : Partition) (n : CellName) (c : Stamped) : Bool :=
  !p.shadowed n c.timestamp && p.cells[n]?.all c.supersedes

theorem write_eq_ite :
    p.write n c = if p.accepts n c then { p with cells := p.cells.insert n c } else p := by
  cases hs : p.shadowed n c.timestamp
  case true  => simp [write, accepts, hs]
  case false => cases ho : p.cells[n]? <;> simp [write, accepts, hs, ho]

theorem getElem?_write_eq_ite :
    (p.write n c).cells[n]? = if p.accepts n c then some c else p.cells[n]? := by
  rw [write_eq_ite]
  split
  case isTrue  => exact Std.ExtTreeMap.getElem?_insert_self
  case isFalse => rfl

theorem accepts_iff : p.accepts n c = true ↔
    p.shadowed n c.timestamp = false ∧ ∀ old, p.cells[n]? = some old → old < c := by
  simp [accepts, Option.all_eq_true, Stamped.supersedes_iff]

theorem shadowed_of_le (hs : p.shadowed n t = true) (hle : t' ≤ t) : p.shadowed n t' = true := by
  rw [shadowed_eq_true_iff] at hs ⊢
  have ⟨path, d, hd, hp, ht⟩ := hs
  exact ⟨path, d, hd, hp, Std.le_trans hle ht⟩

-- No write of the name by the instant is taken in any more.
def Settled (p : Partition) (n : CellName) (t : Int64) : Prop :=
  ∀ c, c.timestamp ≤ t → p.accepts n c = false

theorem Settled.of_le (hs : p.Settled n t) (hle : t' ≤ t) : p.Settled n t' :=
  fun c hc => hs c (Std.le_trans hc hle)

-- A value that is longer wins at the instant of the cell, so only a later cell settles it.
theorem settled_iff :
    p.Settled n t ↔ p.shadowed n t = true ∨ ∃ c, p.cells[n]? = some c ∧ t < c.timestamp := by
  constructor
  case mp =>
    intro hs
    by_contra hn
    obtain ⟨hn, hc⟩ := not_or.mp hn
    rw [Bool.not_eq_true] at hn
    cases ho : p.cells[n]?
    case none =>
      have ha : p.accepts n ⟨[], t⟩ = true := accepts_iff.mpr ⟨hn, by simp [ho]⟩
      exact absurd ha (by simp [hs ⟨[], t⟩ (Std.le_refl _)])
    case some old =>
      have hlt : old < ⟨old.value ++ [0], t⟩ := by
        have hle : old.timestamp ≤ t := Std.not_lt.mp fun hlt => hc ⟨old, ho, hlt⟩
        rw [← Stamped.supersedes_iff]
        rcases Int64.le_iff_lt_or_eq.mp hle with hlt | he
        · simp [Stamped.supersedes, hlt]
        · simp [Stamped.supersedes, he, lt_append_singleton]
      have ha : p.accepts n ⟨old.value ++ [0], t⟩ = true :=
        accepts_iff.mpr ⟨hn, by simpa [ho] using hlt⟩
      exact absurd ha (by simp [hs ⟨old.value ++ [0], t⟩ (Std.le_refl _)])
  case mpr =>
    intro h c hc
    rw [← Bool.not_eq_true, accepts_iff]
    rintro ⟨hn, hl⟩
    rcases h with h | ⟨old, ho, hlt⟩
    · exact absurd (shadowed_of_le h hc) (by simp [hn])
    · exact Std.not_le.mpr hlt (Std.le_trans (Stamped.timestamp_le (hl old ho).le) hc)

theorem accepts_iff_not_settled : p.accepts n c = true ↔
    ¬p.Settled n c.timestamp ∧ ∀ old, p.cells[n]? = some old → old < c := by
  rw [accepts_iff, settled_iff]
  refine and_congr_left fun hl => ?_
  have hn : ¬∃ old, p.cells[n]? = some old ∧ c.timestamp < old.timestamp := by
    rintro ⟨old, ho, hlt⟩
    exact Std.not_le.mpr hlt (Stamped.timestamp_le (hl old ho).le)
  simp [hn]

theorem settled_write_self : (p.write n c).Settled n t ↔ p.Settled n t ∨ t < c.timestamp := by
  simp only [settled_iff, shadowed_write, getElem?_write_eq_ite, or_assoc]
  refine or_congr_right' fun hs => ?_
  by_cases ha : p.accepts n c = true
  case pos =>
    have hl (old) (ho : p.cells[n]? = some old) : old.timestamp ≤ c.timestamp :=
      Stamped.timestamp_le ((accepts_iff.mp ha).right old ho).le
    simp only [ha, if_true, Option.some.injEq, exists_eq_left']
    refine (or_iff_right_of_imp ?_).symm
    rintro ⟨old, ho, hlt⟩
    exact Std.lt_of_lt_of_le hlt (hl old ho)
  case neg =>
    simp only [ha]
    refine (or_iff_left_of_imp fun hlt => ?_).symm
    by_contra hn
    have hc : p.shadowed n c.timestamp = false := by
      rw [← Bool.not_eq_true]
      exact fun hc => hs (shadowed_of_le hc (Std.le_of_lt hlt))
    refine ha (accepts_iff.mpr ⟨hc, fun old ho => ?_⟩)
    have ht : old.timestamp ≤ t := Std.not_lt.mp fun ht => hn ⟨old, ho, ht⟩
    rw [← Stamped.supersedes_iff]
    simp [Stamped.supersedes, Std.lt_of_le_of_lt ht hlt]

theorem settled_delete {path : CellName} {d : DeletionTime} :
    (p.delete path d).Settled n t ↔ p.Settled n t ∨ path <+: n ∧ t ≤ d.markedAt := by
  simp only [settled_iff, shadowed_delete, getElem?_cells_delete, Option.filter_eq_some_iff]
  rw [or_right_comm]
  refine or_congr_left' fun hd => or_congr_right (exists_congr fun c => ?_)
  rw [and_right_comm, and_iff_left_iff_imp]
  rintro ⟨-, hlt⟩
  rw [Bool.not_eq_true', ← Bool.not_eq_true, Bool.and_eq_true, List.isPrefixOf_iff_prefix]
  rintro ⟨hp, hc⟩
  exact hd ⟨hp, Std.le_trans (Std.le_of_lt hlt) (of_decide_eq_true hc)⟩

theorem exists_delete_of_isDeletion (hm : m.isDeletion = true) :
    ∃ path d, m.Deletes path d ∧ p.modify m = p.delete path d := by
  cases m
  case write                 => cases hm
  case tombstone path d      => exact ⟨path, d, .tombstone path d, rfl⟩
  case rangeTombstone path d => exact ⟨path, d, .rangeTombstone path d, rfl⟩

theorem settled_foldl (hm : ∀ m ∈ mods, m.isDeletion = true) :
    (mods.foldl modify p).Settled n t ↔ p.Settled n t ∨ Covered mods n t := by
  induction mods generalizing p
  case nil => simp [not_covered_nil]
  case cons m mods hi =>
    have ⟨hd, hds⟩ := List.forall_mem_cons.mp hm
    have hc : Covered (m :: mods) n t ↔ Covered [m] n t ∨ Covered mods n t :=
      covered_append (h := [m])
    rw [List.foldl_cons, hi hds, hc, ← or_assoc]
    obtain ⟨path, d, hd, he⟩ := exists_delete_of_isDeletion hd
    rw [he, hd.covered_iff]
    exact or_congr_left settled_delete

-- Both have the same cell under the name and take in the same writes of it.
structure AlikeAt (n : CellName) (p p' : Partition) : Prop where
  cell    : p'.cells[n]? = p.cells[n]?
  accepts : ∀ c, p'.accepts n c = p.accepts n c

namespace AlikeAt

theorem refl : AlikeAt n p p := ⟨rfl, fun _ => rfl⟩

theorem symm (h : AlikeAt n p p') : AlikeAt n p' p :=
  ⟨h.cell.symm, fun c => (h.accepts c).symm⟩

theorem trans (h : AlikeAt n p p') (h' : AlikeAt n p' p'') : AlikeAt n p p'' :=
  ⟨h'.cell.trans h.cell, fun c => (h'.accepts c).trans (h.accepts c)⟩

theorem settled_iff (h : AlikeAt n p p') : p'.Settled n t ↔ p.Settled n t := by
  simp only [Settled, h.accepts]

theorem of_settled_iff (hc : p'.cells[n]? = p.cells[n]?)
    (hs : ∀ t, p'.Settled n t ↔ p.Settled n t) : AlikeAt n p p' where
  cell := hc
  accepts c := by rw [Bool.eq_iff_iff, accepts_iff_not_settled, accepts_iff_not_settled, hs, hc]

theorem of_sameAt (h : SameAt n p p') : AlikeAt n p p' where
  cell := h.cell
  accepts c := by rw [Partition.accepts, h.cell, h.shadowed, Partition.accepts]

theorem delete (h : AlikeAt n p p') (path : CellName) (d : DeletionTime) :
    AlikeAt n (p.delete path d) (p'.delete path d) := by
  refine of_settled_iff ?_ fun t => ?_
  · rw [getElem?_cells_delete, getElem?_cells_delete, h.cell]
  · rw [settled_delete, settled_delete, h.settled_iff]

theorem modify (h : AlikeAt n p p') (m : Modification) : AlikeAt n (p.modify m) (p'.modify m) := by
  cases m
  case tombstone path d      => exact h.delete path d
  case rangeTombstone path d => exact h.delete path d
  case write n' c =>
    change AlikeAt n (p.write n' c) (p'.write n' c)
    by_cases hn : n' = n
    case pos =>
      subst hn
      refine of_settled_iff ?_ fun t => ?_
      · rw [getElem?_write_eq_ite, getElem?_write_eq_ite, h.accepts, h.cell]
      · rw [settled_write_self, settled_write_self, h.settled_iff]
    case neg =>
      have same (p : Partition) : AlikeAt n p (p.write n' c) := of_sameAt (.write_of_ne hn)
      exact ((same p).symm.trans h).trans (same p')

theorem foldl (h : AlikeAt n p p') (mods : List Modification) :
    AlikeAt n (mods.foldl Partition.modify p) (mods.foldl Partition.modify p') := by
  induction mods generalizing p p'
  case nil            => exact h
  case cons m mods hi => exact hi (h.modify m)

end AlikeAt

theorem Reflects.not_shadowed {h : List Modification} (hr : p.Reflects h)
    (hc : p.cells[n]? = some c) : p.shadowed n c.timestamp = false := by
  rw [← Bool.not_eq_true, hr.shadowed_iff]
  exact (isLive_iff.mp (hr.getElem?_eq_some_iff.mp hc)).left.right

-- Deletions leave no trace at a name that they come too late for.
theorem Reflects.alikeAt_foldl_iff {h : List Modification} (hr : p.Reflects h)
    (hm : ∀ m ∈ mods, m.isDeletion = true) :
    AlikeAt n p (mods.foldl Partition.modify p) ↔
      ∀ m ∈ mods, ∀ path d, m.Deletes path d → path <+: n → p.Settled n d.markedAt := by
  constructor
  case mp =>
    intro ha m hmem path d hd hp
    rw [← ha.settled_iff, settled_foldl hm]
    exact .inr ⟨m, hmem, path, d, hd, hp, Std.le_refl _⟩
  case mpr =>
    intro hs
    refine .of_settled_iff (Option.ext fun c => ?_) fun t => ?_
    · have hw (c) : .write n c ∉ mods := fun hw => by cases hm _ hw
      rw [getElem?_foldl_of_unwritten hw, and_iff_left_iff_imp]
      intro hc m hmem path d hd hp
      -- A cell that is there is not hidden, so it can only be the one that settles the name.
      rcases settled_iff.mp (hs m hmem path d hd hp) with hs | ⟨c', hc', hlt⟩
      · refine Std.not_le.mp fun hle => ?_
        exact absurd (shadowed_of_le hs hle) (by simp [hr.not_shadowed hc])
      · exact Option.some.inj (hc.symm.trans hc') ▸ hlt
    · rw [settled_foldl hm]
      refine or_iff_left_of_imp ?_
      rintro ⟨m, hmem, path, d, hd, hp, hle⟩
      exact (hs m hmem path d hd hp).of_le hle

end Partition

namespace Storage

variable {s s' s₁ s₁' : Storage} {id : PartitionId} {n : CellName}
  {w : PartitionId → List Modification}

-- Both fail alike, and their partitions are alike at the name.
structure AlikeAt (id : PartitionId) (n : CellName) (s s' : Storage) : Prop where
  partition : (s.partition id).AlikeAt n (s'.partition id)
  failing   : s'.failing = s.failing

namespace AlikeAt

theorem writes (h : AlikeAt id n s s') (hw : Writes s w s₁) (hw' : Writes s' w s₁') :
    AlikeAt id n s₁ s₁' where
  failing := by rw [hw.failing, hw'.failing, h.failing]
  partition := by
    rw [hw.partition, hw'.partition]
    exact h.partition.foldl (w id)

theorem modify (h : AlikeAt id n s s') (id' : PartitionId) (mods : List Modification) :
    Alike (AlikeAt id n) (s.modify id' mods) (s'.modify id' mods) := by
  by_cases hm : mods = []
  case pos => subst hm; exact .ok h
  case neg =>
    cases hf : s.failing
    case true =>
      rw [modify_of_failing hf id' hm, modify_of_failing (h.failing.trans hf) id' hm]
      exact .error _
    case false =>
      obtain ⟨s₁, h₁⟩ := exists_modify_eq_ok hf id' mods
      obtain ⟨s₁', h₁'⟩ := exists_modify_eq_ok (h.failing.trans hf) id' mods
      rw [h₁, h₁']
      exact .ok (h.writes (writes_modify h₁) (writes_modify h₁'))

theorem truncate (h : AlikeAt id n s s') (keyspace table : String) :
    Alike (AlikeAt id n) (s.truncate keyspace table) (s'.truncate keyspace table) := by
  cases hf : s.failing
  case true =>
    rw [truncate_of_failing hf, truncate_of_failing (h.failing.trans hf)]
    exact .error _
  case false =>
    obtain ⟨s₁, h₁, hf₁⟩ := exists_run_eq_ok (c := .truncate keyspace table) hf (by simp)
    obtain ⟨s₁', h₁', hf₁'⟩ :=
      exists_run_eq_ok (c := .truncate keyspace table) (h.failing.trans hf) (by simp)
    rw [show s.truncate keyspace table = .ok s₁ from h₁,
      show s'.truncate keyspace table = .ok s₁' from h₁']
    refine .ok ⟨?_, hf₁'.trans hf₁.symm⟩
    rw [partition_truncate h₁, partition_truncate h₁']
    split
    case isTrue  => exact .refl
    case isFalse => exact h.partition

theorem run (h : AlikeAt id n s s') (c : Call) : Alike (AlikeAt id n) (c.run s) (c.run s') := by
  cases c
  case write id' n' c          => exact h.modify id' [.write n' c]
  case delete id' path d       => exact h.modify id' [.rangeTombstone path d]
  case truncate keyspace table => exact h.truncate keyspace table
  case failWrites on           => exact .ok ⟨h.partition, rfl⟩
  case apply m =>
    exact .foldlM (fun f h => h.modify ⟨m.keyspace, f.1, m.key⟩ f.2) h m.families.toList

-- The calls that succeed are the same ones, and what they make of the name.
theorem after (h : AlikeAt id n s s') (calls : List Call) :
    AlikeAt id n (s.after calls) (s'.after calls) := by
  induction calls generalizing s s'
  case nil => exact h
  case cons c calls hi =>
    have hr := h.run c
    simp only [Storage.after]
    generalize c.run s = x, c.run s' = x' at hr
    cases hr
    case ok h    => exact hi h
    case error e => exact hi h

end AlikeAt

-- The cell under a name and the fate of all later writes of it are as without the tombstones, unless
-- one of them is named by a prefix of the name and is not too late for it.
theorem alikeAt_after_apply_iff (before : List Call) (m : Mutation)
    (hm : ∀ f ∈ m.families.toList, ∀ mod ∈ f.2, mod.isTombstone = true) (id : PartitionId)
    (n : CellName) :
    let s := Storage.after ∅ before
    (∀ calls, ((s.after calls).partition id).AlikeAt n
        ((s.after (.apply m :: calls)).partition id)) ↔
      (∃ e, s.apply m = .error e) ∨ ∀ name d, .tombstone name d ∈ m.on id → name <+: n →
        (s.partition id).Settled n d.markedAt := by
  intro s
  cases ha : s.apply m
  case error e =>
    refine iff_of_true (fun calls => ?_) (.inl ⟨e, rfl⟩)
    have he : s.after (.apply m :: calls) = s.after calls := by
      simp only [Storage.after, Call.run, ha]
    exact he ▸ .refl
  case ok s₁ =>
    have he (calls) : s.after (.apply m :: calls) = s₁.after calls := by
      simp only [Storage.after, Call.run, ha]
    have hw : Writes s m.on s₁ := writes_apply ha
    have ht (mod) (hmem : mod ∈ m.on id) : mod.isTombstone = true := by
      obtain ⟨-, -, mods, hf, hmod⟩ := Mutation.mem_on.mp hmem
      exact hm _ (Std.ExtTreeMap.mem_toList_iff_getElem?_eq_some.mpr hf) mod hmod
    have hi : (s.partition id).AlikeAt n (s₁.partition id) ↔ _ :=
      hw.partition id ▸ (reflects_after before id).alikeAt_foldl_iff fun mod hmem =>
        Modification.isDeletion_of_isTombstone (ht mod hmem)
    simp only [he, reduceCtorEq, exists_false, false_or]
    constructor
    case mp  => exact fun h name d hmem => hi.mp (h []) _ hmem name d (.tombstone name d)
    case mpr =>
      intro h
      have alike : AlikeAt id n s s₁ := by
        refine ⟨hi.mpr fun mod hmem path d hd => ?_, hw.failing⟩
        cases hd
        case tombstone      => exact h path d hmem
        case rangeTombstone => cases ht _ hmem
      exact fun calls => (alike.after calls).partition

-- The tombstone comes too late for a cell under its name.
theorem alikeAt_after_apply_of_later_cell :
    let id : PartitionId := ⟨"ks", "t", [107]⟩
    let m := Mutation.ofFamilies "ks" [107] [("t", [.tombstone ["a"] ⟨5, 0⟩])]
    let s := Storage.after ∅ [.write id ["a", "x"] ⟨[118], 6⟩]
    (∀ f ∈ m.families.toList, ∀ mod ∈ f.2, mod.isTombstone = true) ∧
      ∀ calls, ((s.after calls).partition id).AlikeAt ["a", "x"]
        ((s.after (.apply m :: calls)).partition id) := by
  intro id m s
  have hm : ∀ f ∈ m.families.toList, ∀ mod ∈ f.2, mod.isTombstone = true := by
    rw [Mutation.toList_families_singleton]
    simp [Modification.isTombstone]
  have ho : m.on id = [.tombstone ["a"] ⟨5, 0⟩] := by
    rw [Mutation.on_ofFamilies_singleton, if_pos rfl]
  refine ⟨hm, (alikeAt_after_apply_iff _ m hm id ["a", "x"]).mpr (.inr fun name d hd _ => ?_)⟩
  rw [ho, List.mem_singleton] at hd
  cases hd
  exact Partition.settled_iff.mpr (.inr ⟨⟨[118], 6⟩, by decide +kernel, by decide⟩)

-- A cell under the name of a tombstone goes, and a write of another such name is refused.
theorem not_alikeAt_after_tombstone :
    let id : PartitionId := ⟨"ks", "t", [107]⟩
    let m := Mutation.ofFamilies "ks" [107] [("t", [.tombstone ["a"] ⟨5, 0⟩])]
    let s := Storage.after ∅ [.write id ["a", "x"] ⟨[118], 1⟩]
    let s' := s.after [.apply m]
    m.on id = [.tombstone ["a"] ⟨5, 0⟩] ∧
      (s.partition id).cells[["a", "x"]]? = some ⟨[118], 1⟩ ∧
      (s'.partition id).cells[["a", "x"]]? = none ∧
      (s.partition id).accepts ["a", "y"] ⟨[119], 3⟩ = true ∧
      (s'.partition id).accepts ["a", "y"] ⟨[119], 3⟩ = false := by
  decide +kernel

end Storage
end ClusterMetadata
