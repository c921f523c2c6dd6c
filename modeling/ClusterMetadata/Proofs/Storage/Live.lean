import ClusterMetadata.Proofs.SortedMap
import ClusterMetadata.Storage
import Mathlib.Order.Bounds.Basic

/-!
What a partition holds, said without the order in which its modifications came. A history is a list
of modifications of which only the members count. A cell is live when it is the greatest write of
its name and later than every deletion of a path to it, and these are the cells a partition holds
after any run of the modifications (`Partition.reflects_foldl`).
-/

namespace ClusterMetadata

namespace Stamped

-- By instant, and at one instant by the bytes of the value.
instance : LE Stamped where
  le a b := a.timestamp < b.timestamp ∨ a.timestamp = b.timestamp ∧ a.value ≤ b.value

theorem le_def {a b : Stamped} :
    a ≤ b ↔ a.timestamp < b.timestamp ∨ a.timestamp = b.timestamp ∧ a.value ≤ b.value :=
  Iff.rfl

theorem timestamp_le {a b : Stamped} (h : a ≤ b) : a.timestamp ≤ b.timestamp := by
  cases h
  case inl h => exact Std.le_of_lt h
  case inr h => exact h.left ▸ Std.le_refl _

instance : LinearOrder Stamped where
  le_refl a := .inr ⟨rfl, Std.le_refl _⟩
  le_trans a b c hab hbc := by
    cases hab <;> cases hbc
    case inl.inl h₁ h₂ => exact .inl (Std.lt_trans h₁ h₂)
    case inl.inr h₁ h₂ => exact .inl (h₂.left ▸ h₁)
    case inr.inl h₁ h₂ => exact .inl (h₁.left ▸ h₂)
    case inr.inr h₁ h₂ => exact .inr ⟨h₁.left.trans h₂.left, Std.le_trans h₁.right h₂.right⟩
  le_antisymm a b hab hba := by
    have ht := Std.le_antisymm (timestamp_le hab) (timestamp_le hba)
    simp only [le_def, ht, Std.lt_irrefl, true_and, false_or] at hab hba
    exact Stamped.ext (Std.le_antisymm hab hba) ht
  le_total a b := by
    rcases Std.lt_trichotomy a.timestamp b.timestamp with h | h | h
    · exact .inl (.inl h)
    · exact (Std.le_total (a := a.value) (b := b.value)).imp (.inr ⟨h, ·⟩) (.inr ⟨h.symm, ·⟩)
    · exact .inr (.inl h)
  toDecidableLE _ _ := inferInstanceAs (Decidable (_ ∨ _))

theorem supersedes_iff {new old : Stamped} : new.supersedes old = true ↔ old < new := by
  rw [← not_le, le_def, supersedes]
  simp only [Bool.or_eq_true, Bool.and_eq_true, decide_eq_true_eq, beq_iff_eq]
  rcases Std.lt_trichotomy new.timestamp old.timestamp with h | h | h
  · simp [h, Std.not_lt.mpr (Std.le_of_lt h), Std.ne_of_lt h]
  · simp [h, Std.lt_irrefl, Std.not_le]
  · simp [h, Std.not_lt.mpr (Std.le_of_lt h), (Std.ne_of_lt h).symm]

end Stamped

-- A deletion of everything under a path, however it is spelled.
inductive Modification.Deletes : Modification → CellName → DeletionTime → Prop
  | tombstone (path d) : Deletes (.tombstone path d) path d
  | rangeTombstone (path d) : Deletes (.rangeTombstone path d) path d

theorem Modification.timestamp_write (n : CellName) (c : Stamped) :
    (write n c).timestamp = c.timestamp :=
  rfl

theorem Modification.Deletes.timestamp_eq {m : Modification} {path : CellName} {d : DeletionTime}
    (hd : m.Deletes path d) : m.timestamp = d.markedAt := by
  cases hd <;> rfl

-- Some deletion in the history hides what was written under the name by the instant.
def Covered (h : List Modification) (n : CellName) (t : Int64) : Prop :=
  ∃ m ∈ h, ∃ path d, m.Deletes path d ∧ path <+: n ∧ t ≤ d.markedAt

structure IsLive (h : List Modification) (n : CellName) (c : Stamped) : Prop where
  greatest : IsGreatest {c' | .write n c' ∈ h} c
  later    : ∀ m ∈ h, ∀ path d, m.Deletes path d → path <+: n → d.markedAt < c.timestamp

-- The writes of a name that no deletion hides.
def survivors (h : List Modification) (n : CellName) : Set Stamped :=
  {c | .write n c ∈ h ∧ ¬Covered h n c.timestamp}

-- What stays of a set of writes: the greatest, if there is any.
def Wins (s : Set Stamped) : Option Stamped → Prop
  | none   => s = ∅
  | some c => IsGreatest s c

namespace Wins

variable {s s' : Set Stamped} {o o' : Option Stamped} {c : Stamped}

theorem unique (h : Wins s o) (h' : Wins s o') : o = o' := by
  cases o <;> cases o'
  case none.none => rfl
  case none.some => exact absurd (h ▸ h'.left) (Set.notMem_empty _)
  case some.none => exact absurd (h' ▸ h.left) (Set.notMem_empty _)
  case some.some => exact congrArg some (IsGreatest.unique h h')

theorem eq_some_iff (h : Wins s o) : o = some c ↔ IsGreatest s c := by
  cases o
  case none   => simp_all [Wins, IsGreatest]
  case some b => exact ⟨fun he => Option.some.inj he ▸ h, fun hc => h.unique hc⟩

theorem eq_none_iff (h : Wins s o) : o = none ↔ s = ∅ := by
  cases o
  case none   => simpa [Wins] using h
  case some b => exact iff_of_false (by simp) (Set.nonempty_iff_ne_empty.mp ⟨b, h.left⟩)

theorem insert (h : Wins s o) (c : Stamped) : Wins (insert c s) (some (o.elim c (max c))) := by
  cases o
  case none     => simp [show s = ∅ from h, Wins]
  case some old => exact IsGreatest.insert c h

end Wins

section

variable {h h' : List Modification} {n : CellName} {c : Stamped} {t t' : Int64}

theorem Covered.of_le (hc : Covered h n t) (hle : t' ≤ t) : Covered h n t' :=
  have ⟨m, hm, path, d, hd, hp, ht⟩ := hc
  ⟨m, hm, path, d, hd, hp, Std.le_trans hle ht⟩

theorem not_covered_nil : ¬Covered [] n t := by
  simp [Covered]

theorem covered_append : Covered (h ++ h') n t ↔ Covered h n t ∨ Covered h' n t := by
  simp only [Covered, List.mem_append, or_and_right, exists_or]

theorem not_covered_write {n' : CellName} : ¬Covered [.write n' c] n t := by
  rintro ⟨m, hm, path, d, hd, -⟩
  cases List.mem_singleton.mp hm
  cases hd

theorem Modification.Deletes.covered_iff {m : Modification} {path : CellName} {d : DeletionTime}
    (hd : m.Deletes path d) : Covered [m] n t ↔ path <+: n ∧ t ≤ d.markedAt := by
  refine ⟨fun ⟨m', hm, path', d', hd', h⟩ => ?_, fun h => ⟨m, by simp, path, d, hd, h⟩⟩
  cases List.mem_singleton.mp hm
  cases hd <;> cases hd' <;> exact h

theorem not_covered_of_writes (hw : ∀ m ∈ h, m.isDeletion = false) : ¬Covered h n t := by
  rintro ⟨m, hm, path, d, hd, -⟩
  cases hd <;> exact absurd (hw _ hm) (by simp [Modification.isDeletion])

-- Writes alone hide nothing.
theorem survivors_append_writes (hw : ∀ m ∈ h', m.isDeletion = false) :
    survivors (h ++ h') n = survivors h n ∪ {c | .write n c ∈ h' ∧ ¬Covered h n c.timestamp} := by
  ext c
  simp only [survivors, covered_append, not_covered_of_writes hw, or_false, List.mem_append,
    Set.mem_ofPred_eq, Set.mem_union, or_and_right]

theorem survivors_append_write_of_ne {n' : CellName} (hn : n ≠ n') :
    survivors (h ++ [.write n' c]) n = survivors h n := by
  rw [survivors_append_writes (by simp [Modification.isDeletion])]
  simp [hn]

theorem survivors_append_write_of_covered (hc : Covered h n c.timestamp) :
    survivors (h ++ [.write n c]) n = survivors h n := by
  rw [survivors_append_writes (by simp [Modification.isDeletion]), Set.union_eq_left]
  rintro c' ⟨hm, hu⟩
  simp_all

theorem survivors_append_write_self (hc : ¬Covered h n c.timestamp) :
    survivors (h ++ [.write n c]) n = insert c (survivors h n) := by
  rw [survivors_append_writes (by simp [Modification.isDeletion]), Set.insert_eq, Set.union_comm]
  congr 1
  ext c'
  simp only [List.mem_singleton, Modification.write.injEq, true_and, Set.mem_ofPred_eq,
    Set.mem_singleton_iff]
  exact ⟨And.left, fun he => ⟨he, he ▸ hc⟩⟩

theorem survivors_append_deletion {m : Modification} {path : CellName} {d : DeletionTime}
    (hd : m.Deletes path d) :
    survivors (h ++ [m]) n = {c ∈ survivors h n | ¬(path <+: n ∧ c.timestamp ≤ d.markedAt)} := by
  ext c
  have hm : .write n c ≠ m := by rintro rfl; cases hd
  simp only [survivors, covered_append, hd.covered_iff, List.mem_append, List.mem_singleton, hm,
    or_false, not_or, and_assoc, Set.mem_ofPred_eq]

-- What a deletion hides came before all that it does not hide.
theorem lt_of_covered {a b : Stamped} (ha : Covered h n a.timestamp)
    (hb : ¬Covered h n b.timestamp) : a < b := by
  refine lt_of_not_ge fun hle => hb (ha.of_le ?_)
  exact Stamped.timestamp_le hle

theorem isLive_iff : IsLive h n c ↔ IsGreatest (survivors h n) c := by
  constructor
  case mp =>
    intro hl
    have hu : ¬Covered h n c.timestamp := fun ⟨m, hm, path, d, hd, hp, hle⟩ =>
      Std.not_le.mpr (hl.later m hm path d hd hp) hle
    exact ⟨⟨hl.greatest.left, hu⟩, fun c' hc' => hl.greatest.right hc'.left⟩
  case mpr =>
    intro hg
    refine ⟨⟨hg.left.left, fun c' hc' => ?_⟩, fun m hm path d hd hp => ?_⟩
    · by_cases hc : Covered h n c'.timestamp
      case pos => exact (lt_of_covered hc hg.left.right).le
      case neg => exact hg.right ⟨hc', hc⟩
    · exact Std.not_le.mp fun hle => hg.left.right ⟨m, hm, path, d, hd, hp, hle⟩

end

theorem CellName.isLE_compare_append (n n' : CellName) : (compare n (n ++ n')).isLE := by
  induction n
  case nil => cases n' <;> rfl
  case cons a n hi =>
    change (List.compareLex compare (a :: n) (a :: (n ++ n'))).isLE
    rw [List.compareLex_cons_cons, Std.ReflOrd.compare_self]
    exact hi

namespace Partition

-- The partition holds what is live in the history, and refuses what the history hides.
structure Reflects (p : Partition) (h : List Modification) : Prop where
  wins         : ∀ n, Wins (survivors h n) p.cells[n]?
  shadowed_iff : ∀ n t, p.shadowed n t = true ↔ Covered h n t

variable {p p' : Partition} {h h' : List Modification} {n : CellName} {c : Stamped}

theorem shadowed_eq_true_iff {t : Int64} :
    p.shadowed n t = true ↔
      ∃ path d, p.tombstones[path]? = some d ∧ path <+: n ∧ t ≤ d.markedAt := by
  simp [shadowed, SortedMap.any_iff, DeletionTime.shadows]

@[simp]
theorem getElem?_cells_empty : (∅ : Partition).cells[n]? = none :=
  Std.ExtTreeMap.getElem?_empty

@[simp]
theorem shadowed_empty {t : Int64} : (∅ : Partition).shadowed n t = false := by
  rw [← Bool.not_eq_true, shadowed_eq_true_iff]
  rintro ⟨path, d, h, -⟩
  exact absurd (h.symm.trans Std.ExtTreeMap.getElem?_empty) (by simp)

theorem reflects_empty : Reflects ∅ [] where
  wins n         := by simp [Wins, survivors]
  shadowed_iff n t := by simp [not_covered_nil]

theorem write_of_shadowed (hs : p.shadowed n c.timestamp = true) : p.write n c = p :=
  if_pos hs

theorem getElem?_write_of_ne {n' : CellName} (hn : n' ≠ n) :
    (p.write n c).cells[n']? = p.cells[n']? := by
  simp only [write]
  repeat' split
  all_goals simp [Std.ExtTreeMap.getElem?_insert, Ne.symm hn]

theorem getElem?_write_self (hs : p.shadowed n c.timestamp = false) :
    (p.write n c).cells[n]? = some ((p.cells[n]?).elim c (max c)) := by
  simp only [write, hs, Bool.false_eq_true, if_false, Stamped.supersedes_iff]
  cases ho : p.cells[n]?
  case none     => simp
  case some old =>
    by_cases hl : old < c
    case pos => simp [hl, max_eq_left hl.le]
    case neg => simp [hl, ho, max_eq_right (not_lt.mp hl)]

theorem getElem?_write_of_later (hs : p.shadowed n c.timestamp = false)
    (hl : ∀ old, p.cells[n]? = some old → old.timestamp < c.timestamp) :
    (p.write n c).cells[n]? = some c := by
  rw [getElem?_write_self hs]
  cases ho : p.cells[n]?
  case none     => rfl
  case some old =>
    have hlt : old < c := lt_of_not_ge fun hc =>
      Std.not_le.mpr (hl old ho) (Stamped.timestamp_le hc)
    simp [max_eq_left hlt.le]

theorem tombstones_write : (p.write n c).tombstones = p.tombstones := by
  simp only [write]
  repeat' split
  all_goals rfl

theorem shadowed_write {n' : CellName} {t : Int64} :
    (p.write n c).shadowed n' t = p.shadowed n' t := by
  simp only [shadowed, tombstones_write]

theorem getElem?_tombstones_delete {path path' : CellName} {d : DeletionTime} :
    (p.delete path d).tombstones[path']? =
      if path = path' then
        some ((p.tombstones[path]?).elim d fun old => if old.markedAt < d.markedAt then d else old)
      else p.tombstones[path']? := by
  simp only [delete, Std.ExtTreeMap.getElem?_alter, Std.LawfulEqOrd.compare_eq_iff_eq]
  cases p.tombstones[path]? <;> rfl

-- Of two deletions of one path the later hides what either hides.
theorem shadowed_delete {path : CellName} {d : DeletionTime} {t : Int64} :
    (p.delete path d).shadowed n t = true ↔
      p.shadowed n t = true ∨ path <+: n ∧ t ≤ d.markedAt := by
  simp only [shadowed_eq_true_iff, getElem?_tombstones_delete]
  constructor
  case mp =>
    rintro ⟨path', d', hd, hp, ht⟩
    by_cases he : path = path'
    case neg => exact .inl ⟨path', d', by simpa [he] using hd, hp, ht⟩
    case pos =>
      subst he
      cases ho : p.tombstones[path]?
      case none => simp_all
      case some old =>
        simp only [ho, if_true, Option.elim_some, Option.some.injEq] at hd
        split at hd
        case isTrue  => exact .inr ⟨hp, hd ▸ ht⟩
        case isFalse => exact .inl ⟨path, old, ho, hp, hd ▸ ht⟩
  case mpr =>
    have hle (old : DeletionTime) :
        old.markedAt ≤ (if old.markedAt < d.markedAt then d else old).markedAt ∧
        d.markedAt ≤ (if old.markedAt < d.markedAt then d else old).markedAt := by
      split
      case isTrue h  => exact ⟨Std.le_of_lt h, Std.le_refl _⟩
      case isFalse h => exact ⟨Std.le_refl _, Std.not_lt.mp h⟩
    rintro (⟨path', d', hd, hp, ht⟩ | ⟨hp, ht⟩)
    case inl =>
      by_cases he : path = path'
      case neg => exact ⟨path', d', by simpa [he] using hd, hp, ht⟩
      case pos =>
        subst he
        exact ⟨path, _, by simp [hd], hp, Std.le_trans ht (hle d').left⟩
    case inr =>
      refine ⟨path, _, if_pos rfl, hp, ?_⟩
      cases p.tombstones[path]?
      case none     => exact ht
      case some old => exact Std.le_trans ht (hle old).right

theorem getElem?_cells_delete {path : CellName} {d : DeletionTime} :
    (p.delete path d).cells[n]? =
      (p.cells[n]?).filter fun c => !(path.isPrefixOf n && d.shadows c.timestamp) := by
  simp [delete]

-- What is live was live before or has been written.
theorem live_or_write_of_write {n' : CellName} {c' : Stamped}
    (h : (p.write n' c').cells[n]? = some c) :
    p.cells[n]? = some c ∨ Modification.write n' c' = .write n c := by
  cases hs : p.shadowed n' c'.timestamp
  case true => exact .inl (write_of_shadowed hs ▸ h)
  case false =>
    by_cases hn : n = n'
    case neg => exact .inl (getElem?_write_of_ne hn ▸ h)
    case pos =>
      subst hn
      rw [getElem?_write_self hs] at h
      cases ho : p.cells[n]?
      case none     => simp_all
      case some old =>
        simp only [ho, Option.elim_some, Option.some.injEq] at h
        rcases le_total old c' with hl | hl
        · exact .inr (by rw [← h, max_eq_left hl])
        · exact .inl (by rw [← h, max_eq_right hl])

theorem live_or_write_of_modify {m : Modification} (h : (p.modify m).cells[n]? = some c) :
    p.cells[n]? = some c ∨ m = .write n c := by
  have deleted (path : CellName) (d : DeletionTime) (h : (p.delete path d).cells[n]? = some c) :
      p.cells[n]? = some c := by
    rw [getElem?_cells_delete, Option.filter_eq_some_iff] at h
    exact h.left
  cases m
  case write n' c'           => exact live_or_write_of_write h
  case tombstone path d      => exact .inl (deleted path d h)
  case rangeTombstone path d => exact .inl (deleted path d h)

theorem live_or_write_of_foldl {mods : List Modification}
    (h : (mods.foldl modify p).cells[n]? = some c) : p.cells[n]? = some c ∨ .write n c ∈ mods := by
  induction mods generalizing p
  case nil => exact .inl h
  case cons m mods hi =>
    rcases hi h with h | h
    case inr => exact .inr (List.mem_cons_of_mem _ h)
    case inl =>
      rcases live_or_write_of_modify h with h | rfl
      · exact .inl h
      · exact .inr List.mem_cons_self

-- While nothing is deleted, nothing that is live goes but for what supersedes it.
theorem exists_le_live_of_writes {mods : List Modification}
    (hm : ∀ m ∈ mods, m.isDeletion = false) (h : p.cells[n]? = some c) :
    ∃ c', (mods.foldl modify p).cells[n]? = some c' ∧ c ≤ c' := by
  induction mods generalizing p c
  case nil => exact ⟨c, h, le_rfl⟩
  case cons m mods hi =>
    have ⟨hw, hm⟩ := List.forall_mem_cons.mp hm
    have ⟨c₁, h₁, hle⟩ : ∃ c₁, (p.modify m).cells[n]? = some c₁ ∧ c ≤ c₁ := by
      cases m
      case tombstone      => cases hw
      case rangeTombstone => cases hw
      case write n' c' =>
        change ∃ c₁, (p.write n' c').cells[n]? = some c₁ ∧ c ≤ c₁
        by_cases hn : n = n'
        case neg => exact ⟨c, (getElem?_write_of_ne hn).trans h, le_rfl⟩
        case pos =>
          subst hn
          cases hs : p.shadowed n c'.timestamp
          case true  => exact ⟨c, (write_of_shadowed hs).symm ▸ h, le_rfl⟩
          case false => exact ⟨_, getElem?_write_self hs, h ▸ le_max_right c' c⟩
    have ⟨c₂, h₂, hle'⟩ := hi hm h₁
    exact ⟨c₂, h₂, hle.trans hle'⟩

-- A name that is not written keeps its cell.
theorem getElem?_foldl_of_not_written {mods : List Modification}
    (hm : ∀ m ∈ mods, m.isDeletion = false) (hn : ∀ c, .write n c ∉ mods) :
    (mods.foldl modify p).cells[n]? = p.cells[n]? := by
  have live {c : Stamped} (h : (mods.foldl modify p).cells[n]? = some c) :
      p.cells[n]? = some c :=
    (live_or_write_of_foldl h).resolve_right (hn c)
  refine Option.ext fun c => ⟨live, fun h => ?_⟩
  have ⟨c', h', _⟩ := exists_le_live_of_writes hm h
  rwa [← Option.some.inj ((live h').symm.trans h)]

-- All that the partition has seen came before the instant.
structure IsBefore (p : Partition) (t : Int64) : Prop where
  cells     : ∀ (n : CellName) (c : Stamped), p.cells[n]? = some c → c.timestamp < t
  deletions : ∀ (path : CellName) (d : DeletionTime), p.tombstones[path]? = some d → d.markedAt < t

theorem isBefore_iff {t : Int64} : p.IsBefore t ↔
    (∀ e ∈ p.cells.toList, e.2.timestamp < t) ∧ ∀ e ∈ p.tombstones.toList, e.2.markedAt < t := by
  simp only [Prod.forall, Std.ExtTreeMap.mem_toList_iff_getElem?_eq_some]
  exact ⟨fun h => ⟨h.cells, h.deletions⟩, fun h => ⟨h.left, h.right⟩⟩

instance (t : Int64) : Decidable (p.IsBefore t) := decidable_of_iff' _ isBefore_iff

theorem IsBefore.not_shadowed {t : Int64} (h : p.IsBefore t) : p.shadowed n t = false := by
  rw [← Bool.not_eq_true, shadowed_eq_true_iff]
  rintro ⟨path, d, hd, -, ht⟩
  exact Std.not_le.mpr (h.deletions path d hd) ht

namespace Reflects

theorem write (hr : p.Reflects h) : (p.write n c).Reflects (h ++ [.write n c]) where
  shadowed_iff n' t := by
    simp [shadowed_write, covered_append, not_covered_write, hr.shadowed_iff]
  wins n' := by
    have hw := hr.wins n'
    by_cases hn : n' = n
    case neg => simpa [getElem?_write_of_ne hn, survivors_append_write_of_ne hn] using hw
    case pos =>
      subst hn
      cases hs : p.shadowed n' c.timestamp
      case true =>
        rw [write_of_shadowed hs, survivors_append_write_of_covered ((hr.shadowed_iff ..).mp hs)]
        exact hw
      case false =>
        have hc : ¬Covered h n' c.timestamp := by simp [← hr.shadowed_iff, hs]
        rw [getElem?_write_self hs, survivors_append_write_self hc]
        exact hw.insert c

theorem delete {m : Modification} {path : CellName} {d : DeletionTime} (hr : p.Reflects h)
    (hd : m.Deletes path d) : (p.delete path d).Reflects (h ++ [m]) where
  shadowed_iff n t := by
    rw [shadowed_delete, covered_append, hd.covered_iff, hr.shadowed_iff]
  wins n := by
    have hw := hr.wins n
    rw [survivors_append_deletion hd, getElem?_cells_delete]
    cases ho : p.cells[n]?
    case none =>
      rw [hw.eq_none_iff.mp ho]
      simp [Wins]
    case some c =>
      have hg := hw.eq_some_iff.mp ho
      by_cases hp : path <+: n ∧ c.timestamp ≤ d.markedAt
      case pos =>
        have hn : (some c).filter (fun c => !(path.isPrefixOf n && d.shadows c.timestamp)) =
            none := by
          simp [DeletionTime.shadows, hp]
        rw [hn]
        refine Set.eq_empty_of_forall_notMem fun c' hc' => hc'.right ⟨hp.left, ?_⟩
        exact Std.le_trans (Stamped.timestamp_le (hg.right hc'.left)) hp.right
      case neg =>
        have hs : (some c).filter (fun c => !(path.isPrefixOf n && d.shadows c.timestamp)) =
            some c := by
          rw [Option.filter_eq_some_iff]
          simpa [DeletionTime.shadows, ← List.isPrefixOf_iff_prefix, imp_iff_not_or] using hp
        rw [hs]
        exact ⟨⟨hg.left, hp⟩, fun c' hc' => hg.right hc'.left⟩

theorem modify {m : Modification} (hr : p.Reflects h) : (p.modify m).Reflects (h ++ [m]) := by
  cases m
  case write          => exact hr.write
  case tombstone      => exact hr.delete (.tombstone ..)
  case rangeTombstone => exact hr.delete (.rangeTombstone ..)

theorem foldl (hr : p.Reflects h) (mods : List Modification) :
    (mods.foldl Partition.modify p).Reflects (h ++ mods) := by
  induction mods generalizing p h
  case nil            => simpa using hr
  case cons m mods hi => simpa using hi hr.modify

theorem getElem?_eq_some_iff (hr : p.Reflects h) : p.cells[n]? = some c ↔ IsLive h n c := by
  rw [isLive_iff, (hr.wins n).eq_some_iff]

theorem getElem?_eq_none_iff (hr : p.Reflects h) : p.cells[n]? = none ↔ survivors h n = ∅ :=
  (hr.wins n).eq_none_iff

theorem isBefore (hr : p.Reflects h) {t : Int64} (hb : ∀ m ∈ h, m.timestamp < t) :
    p.IsBefore t where
  cells n c hc := hb (.write n c) (hr.getElem?_eq_some_iff.mp hc).greatest.left
  deletions path d hd := by
    have hs : p.shadowed path d.markedAt = true :=
      shadowed_eq_true_iff.mpr ⟨path, d, hd, List.prefix_rfl, Std.le_refl _⟩
    have ⟨m, hm, _, d', hdel, _, hle⟩ := (hr.shadowed_iff ..).mp hs
    exact Std.lt_of_le_of_lt hle (hdel.timestamp_eq ▸ hb m hm)

-- A write that nothing hides leaves its name live, with a cell that is no older.
theorem exists_live_of_not_covered (hr : p.Reflects h) {t : Int64} (hm : .write n c ∈ h)
    (ht : t ≤ c.timestamp) (hu : ¬Covered h n c.timestamp) :
    ∃ c', p.cells[n]? = some c' ∧ t ≤ c'.timestamp := by
  have hs : c ∈ survivors h n := ⟨hm, hu⟩
  cases ho : p.cells[n]?
  case none    => exact absurd (hr.getElem?_eq_none_iff.mp ho ▸ hs) (Set.notMem_empty _)
  case some c' =>
    have hg := (hr.wins n).eq_some_iff.mp ho
    exact ⟨c', rfl, Std.le_trans ht (Stamped.timestamp_le (hg.right hs))⟩

theorem congr (hr : p.Reflects h) (hm : ∀ m, m ∈ h ↔ m ∈ h') : p.Reflects h' := by
  have hc (n t) : Covered h n t ↔ Covered h' n t := by simp only [Covered, hm]
  have hs (n) : survivors h n = survivors h' n := by ext c; simp only [survivors, hm, hc]
  exact ⟨fun n => hs n ▸ hr.wins n, fun n t => (hr.shadowed_iff n t).trans (hc n t)⟩

-- A write that is later than all before it and the greatest of its name is live.
theorem getElem?_foldl_of_latest {mods : List Modification} (hr : p.Reflects h)
    (hb : ∀ m ∈ h, m.timestamp < c.timestamp) (hm : ∀ m ∈ mods, m.isDeletion = false)
    (hw : .write n c ∈ mods) (hg : ∀ c', .write n c' ∈ mods → c' ≤ c) :
    (mods.foldl Partition.modify p).cells[n]? = some c := by
  refine (hr.foldl mods).getElem?_eq_some_iff.mpr ⟨⟨List.mem_append_right _ hw, ?_⟩, ?_⟩
  · intro c' hc'
    rcases List.mem_append.mp hc' with hc' | hc'
    · have hlt : c'.timestamp < c.timestamp := hb (.write n c') hc'
      exact .inl hlt
    · exact hg c' hc'
  · intro m hd path d hdel _
    rcases List.mem_append.mp hd with hd | hd
    · exact hdel.timestamp_eq ▸ hb m hd
    · cases hdel <;> cases hm _ hd

-- The order of a history and its repetitions leave no trace in the cells.
theorem cells_eq (hr : p.Reflects h) (hr' : p'.Reflects h') (hm : ∀ m, m ∈ h ↔ m ∈ h') :
    p.cells = p'.cells :=
  Std.ExtTreeMap.ext_getElem? fun n => ((hr.congr hm).wins n).unique (hr'.wins n)

end Reflects

theorem mem_read {range : CellRange} {cell : Cell} :
    cell ∈ p.read range ↔ range.contains cell.name ∧ p.cells[cell.name]? = some cell.toStamped := by
  simp only [read, List.mem_filterMap, Prod.exists, Std.ExtTreeMap.mem_toList_iff_getElem?_eq_some]
  constructor
  case mp =>
    rintro ⟨n, c, hc, h⟩
    split at h
    case isTrue ht  => cases h; exact ⟨ht, hc⟩
    case isFalse ht => cases h
  case mpr =>
    rintro ⟨ht, hc⟩
    exact ⟨cell.name, cell.toStamped, hc, if_pos ht⟩

theorem ascending_read {range : CellRange} : Ascending ((p.read range).map (·.name)) := by
  rw [Ascending, List.pairwise_map]
  refine List.Pairwise.filterMap _ ?_ Std.ExtTreeMap.ordered_keys_toList
  rintro ⟨n, c⟩ ⟨n', c'⟩ hlt cell hc cell' hc'
  simp only [Option.ite_none_right_eq_some, Option.some.injEq] at hc hc'
  obtain ⟨-, rfl⟩ := hc
  obtain ⟨-, rfl⟩ := hc'
  exact hlt

end Partition

end ClusterMetadata
