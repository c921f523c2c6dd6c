import ClusterMetadata.Proofs.Storage.Live

/-!
What a run of modifications does to one name, whatever the partition has come through before. A name
that is written ends up as after that one write (`getElem?_foldl_of_written`), and a name that is
not written keeps its cell unless a deletion hides it (`getElem?_foldl_of_unwritten`).
-/

namespace ClusterMetadata.Partition

variable {p p' p'' : Partition} {n n' : CellName} {c : Stamped} {m : Modification}
  {mods : List Modification}

-- A write leaves its value: the value is there already, or the write is neither hidden nor outdone.
def Takes (p : Partition) (n : CellName) (c : Stamped) : Prop :=
  (∃ t, p.cells[n]? = some ⟨c.value, t⟩) ∨
    p.shadowed n c.timestamp = false ∧ ∀ old, p.cells[n]? = some old → old ≤ c

theorem exists_write_iff : (∃ t, (p.write n c).cells[n]? = some ⟨c.value, t⟩) ↔ p.Takes n c := by
  cases hs : p.shadowed n c.timestamp
  case true => simp [write_of_shadowed hs, Takes, hs]
  case false =>
    rw [getElem?_write_self hs]
    cases ho : p.cells[n]?
    case none =>
      simp only [Takes, ho, hs, Option.elim_none, true_and, reduceCtorEq, exists_false, false_or,
        IsEmpty.forall_iff, implies_true, iff_true]
      exact ⟨c.timestamp, rfl⟩
    case some old =>
      simp only [Takes, ho, hs, Option.elim_some, Option.some.injEq, true_and, forall_eq']
      rcases le_or_gt old c with hl | hl
      · simp only [max_eq_left hl, hl, or_true, iff_true]
        exact ⟨c.timestamp, rfl⟩
      · rw [max_eq_right hl.le, or_iff_left (not_le_of_gt hl)]

-- Both partitions have the same cell under the name and hide the same of it.
structure SameAt (n : CellName) (p p' : Partition) : Prop where
  cell     : p'.cells[n]? = p.cells[n]?
  shadowed : ∀ t, p'.shadowed n t = p.shadowed n t

namespace SameAt

theorem refl : SameAt n p p := ⟨rfl, fun _ => rfl⟩

theorem trans (h : SameAt n p p') (h' : SameAt n p' p'') : SameAt n p p'' :=
  ⟨h'.cell.trans h.cell, fun t => (h'.shadowed t).trans (h.shadowed t)⟩

theorem write (h : SameAt n p p') : SameAt n (p.write n c) (p'.write n c) where
  shadowed t := by rw [shadowed_write, shadowed_write, h.shadowed]
  cell := by
    cases hs : p.shadowed n c.timestamp
    case true =>
      rw [write_of_shadowed hs, write_of_shadowed ((h.shadowed _).trans hs), h.cell]
    case false =>
      rw [getElem?_write_self hs, getElem?_write_self ((h.shadowed _).trans hs), h.cell]

theorem write_write : SameAt n (p.write n c) ((p.write n c).write n c) where
  shadowed t := shadowed_write
  cell := by
    cases hs : p.shadowed n c.timestamp
    case true  => rw [write_of_shadowed (shadowed_write.trans hs)]
    case false =>
      rw [getElem?_write_self (shadowed_write.trans hs), getElem?_write_self hs]
      cases p.cells[n]? <;> simp

theorem write_of_ne (hn : n' ≠ n) : SameAt n p (p.write n' c) :=
  ⟨getElem?_write_of_ne hn.symm, fun _ => shadowed_write⟩

theorem delete {path : CellName} {d : DeletionTime} (hp : ¬path <+: n) :
    SameAt n p (p.delete path d) where
  cell := by
    rw [getElem?_cells_delete]
    cases p.cells[n]? <;> simp [← Bool.not_eq_true, hp]
  shadowed t := by
    rw [Bool.eq_iff_iff, shadowed_delete, or_iff_left fun h => hp h.left]

-- What concerns other names only.
theorem modify (hw : ∀ c, m ≠ .write n c) (hd : ∀ path d, m.Deletes path d → ¬path <+: n) :
    SameAt n p (p.modify m) := by
  cases m
  case write n' c =>
    exact write_of_ne fun hn => hw c (hn ▸ rfl)
  case tombstone path d      => exact delete (hd path d (.tombstone path d))
  case rangeTombstone path d => exact delete (hd path d (.rangeTombstone path d))

-- All writes of the name are the same, and nothing deletes it.
theorem foldl (hu : ∀ c', .write n c' ∈ mods → c' = c)
    (hd : ∀ m ∈ mods, ∀ path d, m.Deletes path d → ¬path <+: n) :
    (.write n c ∈ mods → SameAt n (p.write n c) (mods.foldl Partition.modify p)) ∧
      (.write n c ∉ mods → SameAt n p (mods.foldl Partition.modify p)) := by
  induction mods generalizing p
  case nil => exact ⟨nofun, fun _ => refl⟩
  case cons m mods hi =>
    have ⟨hd, hds⟩ := List.forall_mem_cons.mp hd
    have ⟨written, unwritten⟩ := hi (p := p.modify m)
      (fun c' hm => hu c' (List.mem_cons_of_mem _ hm)) hds
    by_cases hm : m = .write n c
    case pos =>
      subst hm
      refine ⟨fun _ => ?_, fun h => absurd List.mem_cons_self h⟩
      by_cases hw : .write n c ∈ mods
      case pos => exact write_write.trans (written hw)
      case neg => exact unwritten hw
    case neg =>
      have same : SameAt n p (p.modify m) := by
        refine modify (fun c' hc => ?_) hd
        subst hc
        exact hm (hu c' List.mem_cons_self ▸ rfl)
      rw [List.mem_cons, or_iff_right (Ne.symm hm)]
      exact ⟨fun hw => same.write.trans (written hw), fun hw => same.trans (unwritten hw)⟩

end SameAt

theorem getElem?_foldl_of_written (hw : .write n c ∈ mods) (hu : ∀ c', .write n c' ∈ mods → c' = c)
    (hd : ∀ m ∈ mods, ∀ path d, m.Deletes path d → ¬path <+: n) :
    (mods.foldl modify p).cells[n]? = (p.write n c).cells[n]? :=
  ((SameAt.foldl hu hd).left hw).cell

theorem getElem?_modify_of_unwritten (hw : ∀ c, m ≠ .write n c) :
    (p.modify m).cells[n]? = some c ↔ p.cells[n]? = some c ∧
      ∀ path d, m.Deletes path d → path <+: n → d.markedAt < c.timestamp := by
  have deleted (path : CellName) (d : DeletionTime) :
      (p.delete path d).cells[n]? = some c ↔
        p.cells[n]? = some c ∧ (path <+: n → d.markedAt < c.timestamp) := by
    rw [getElem?_cells_delete, Option.filter_eq_some_iff]
    refine and_congr_right fun _ => ?_
    by_cases hp : path <+: n <;> simp [← Bool.not_eq_true, hp, DeletionTime.shadows]
  cases m
  case write n' c' =>
    have same : SameAt n p (p.write n' c') := .write_of_ne fun hn => hw c' (hn ▸ rfl)
    change (p.write n' c').cells[n]? = _ ↔ _
    rw [same.cell, iff_self_and]
    exact fun _ path d hd => by cases hd
  case tombstone path d =>
    refine (deleted path d).trans (and_congr_right fun _ => ⟨fun h path' d' hd => ?_, fun h => ?_⟩)
    · cases hd; exact h
    · exact h path d (.tombstone path d)
  case rangeTombstone path d =>
    refine (deleted path d).trans (and_congr_right fun _ => ⟨fun h path' d' hd => ?_, fun h => ?_⟩)
    · cases hd; exact h
    · exact h path d (.rangeTombstone path d)

theorem getElem?_foldl_of_unwritten (hw : ∀ c, .write n c ∉ mods) :
    (mods.foldl modify p).cells[n]? = some c ↔ p.cells[n]? = some c ∧
      ∀ m ∈ mods, ∀ path d, m.Deletes path d → path <+: n → d.markedAt < c.timestamp := by
  induction mods generalizing p
  case nil => simp
  case cons m mods hi =>
    have hm : ∀ c, m ≠ .write n c := fun c hc => hw c (hc ▸ List.mem_cons_self)
    rw [List.foldl_cons, hi fun c hc => hw c (List.mem_cons_of_mem _ hc),
      getElem?_modify_of_unwritten hm, List.forall_mem_cons, and_assoc]

end ClusterMetadata.Partition
