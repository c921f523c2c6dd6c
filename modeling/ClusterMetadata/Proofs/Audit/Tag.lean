import ClusterMetadata.Audit.Tag
import ClusterMetadata.Proofs.Storage.Writes

/-!
The records of dropped columns as cells. What is read of a record is one cell (`load_value`), and a
step writes the next value to it (`add_eq_ok`, `nextValue_eq_ok_iff`).
-/

namespace ClusterMetadata.Tag

variable {s s' : Storage} {t t' : Tag} {kind : AuditKind} {target : String} {parts : List String}
  {value : Bytes} {drops : Nat} {timestamp : Int64} {m : Mutation} {id : PartitionId}

-- What is written for a step.
def addition (kind : AuditKind) (target : String) (value : Bytes) (timestamp : Int64) : Mutation :=
  .ofFamilies Catalog.system (Utf8.encode kind.code)
    [(Catalog.tags, Row.write [target] timestamp
      [(Row.marker, []), (valueLeaf, value), (createdAtLeaf, instant timestamp)])]

theorem add_eq_ok (h : t.add timestamp = .ok (m, t')) :
    ∃ value, t.nextValue = .ok value ∧ m = addition t.kind t.target value timestamp := by
  have ⟨value, hv, h⟩ := bind_eq_ok_iff.mp h
  cases h
  exact ⟨value, hv, rfl⟩

theorem addition_on : (addition kind target value timestamp).on id =
    if partition kind = id then
      [.write [target, Row.marker] ⟨[], timestamp⟩, .write [target, valueLeaf] ⟨value, timestamp⟩,
       .write [target, createdAtLeaf] ⟨instant timestamp, timestamp⟩]
    else [] :=
  Mutation.on_ofFamilies_singleton ..

theorem dropped_ne_permanentDrop : dropped ≠ permanentDrop := by
  simp [dropped, permanentDrop, Utf8.encode_inj]

-- The steps of the record of a dropped column.
inductive Next : Option Bytes → Bytes → Prop
  | first : Next none dropped
  | last  : Next (some dropped) permanentDrop

theorem Next.unique {o : Option Bytes} {v v' : Bytes} (h : Next o v) (h' : Next o v') : v = v' := by
  cases h <;> cases h' <;> rfl

theorem not_next_permanentDrop : ¬Next (some permanentDrop) value := by
  generalize hp : some permanentDrop = o
  rintro (_ | _)
  · cases hp
  · exact dropped_ne_permanentDrop (Option.some.inj hp).symm

theorem nextValue_eq_ok_iff (hk : t.kind = .columnDrop) :
    t.nextValue = .ok value ↔ Next t.value value := by
  rw [nextValue, hk]
  cases t.value
  case none =>
    constructor
    case mp  => rintro ⟨⟩; exact .first
    case mpr => rintro ⟨⟩; rfl
  case some v =>
    constructor
    case mp =>
      intro h
      dsimp only at h
      split at h
      case isTrue hd => cases h; exact hd ▸ .last
      case isFalse   => split at h <;> cases h
    case mpr => rintro ⟨⟩; exact if_pos rfl

theorem exists_add_eq_ok (hk : t.kind = .columnDrop) (h : Next t.value value)
    (timestamp : Int64) : ∃ m t', t.add timestamp = .ok (m, t') := by
  rw [add, (nextValue_eq_ok_iff hk).mpr h]
  exact ⟨_, _, rfl⟩

-- Modifications that write records and do nothing else.
def IsRecording (mods : List Modification) : Prop :=
  ∀ m ∈ mods, ∃ target leaf c, m = .write [target, leaf] c

theorem IsRecording.isDeletion_eq_false {mods : List Modification} (h : IsRecording mods) :
    ∀ m ∈ mods, m.isDeletion = false := by
  intro m hm
  obtain ⟨_, _, _, rfl⟩ := h m hm
  rfl

theorem isRecording_addition_on :
    IsRecording ((addition kind target value timestamp).on id) := by
  rw [addition_on]
  split
  case isTrue  => simp [IsRecording]
  case isFalse => simp [IsRecording]

theorem timestamp_eq_of_mem_addition_on {mod : Modification}
    (hm : mod ∈ (addition kind target value timestamp).on id) : mod.timestamp = timestamp := by
  rw [addition_on] at hm
  split at hm
  case isTrue  => rcases hm with _ | ⟨_, _ | ⟨_, _ | ⟨_, ⟨⟩⟩⟩⟩ <;> rfl
  case isFalse => cases hm

-- Of the three cells that are written for a step, one holds the value.
theorem write_mem_addition_on_iff {target' : String} {c : Stamped} :
    .write [target', valueLeaf] c ∈ (addition kind target value timestamp).on id ↔
      partition kind = id ∧ target = target' ∧ c = ⟨value, timestamp⟩ := by
  have hm : valueLeaf ≠ Row.marker := by decide
  have hc : valueLeaf ≠ createdAtLeaf := by decide
  rw [addition_on]
  split
  case isTrue he  => simp [he, hm, hc, eq_comm (a := target)]
  case isFalse he => simp [he]

-- Nothing but records is stored where the records of dropped columns are.
def IsTidy (s : Storage) : Prop :=
  ∀ (n : CellName) (c : Stamped), (s.partition (partition .columnDrop)).cells[n]? = some c →
    ∃ target leaf, n = [target, leaf]

theorem isTidy_empty : IsTidy ∅ := by
  intro n c hc
  rw [Storage.partition_empty, Partition.getElem?_cells_empty] at hc
  cases hc

-- What has happened to the records has happened before the instant.
def Precede (s : Storage) (t : Int64) : Prop :=
  ∃ history, (s.partition (partition .columnDrop)).Reflects history ∧
    ∀ mod ∈ history, mod.timestamp < t

theorem precede_empty (t : Int64) : Precede ∅ t :=
  ⟨_, Storage.reflects_empty _, nofun⟩

theorem Precede.writes {w : PartitionId → List Modification} {t t' : Int64} (h : Precede s t)
    (hw : s.Writes w s') (ht : t ≤ t')
    (hm : ∀ mod ∈ w (partition .columnDrop), mod.timestamp < t') : Precede s' t' := by
  obtain ⟨history, hr, hb⟩ := h
  refine ⟨_, hw.partition _ ▸ hr.foldl _, fun mod h => ?_⟩
  rcases List.mem_append.mp h with h | h
  · exact Std.lt_of_lt_of_le (hb mod h) ht
  · exact hm mod h

-- The cell that holds the value of a record.
def recordCell? (s : Storage) (target : String) : Option Stamped :=
  (s.partition (partition .columnDrop)).cells[[target, valueLeaf]]?

section

variable {w : PartitionId → List Modification} {c : Stamped} (hw : s.Writes w s')
  (hr : IsRecording (w (partition .columnDrop)))

include hw hr

theorem IsTidy.writes (h : IsTidy s) : IsTidy s' := by
  intro n c hc
  rw [hw.partition] at hc
  rcases Partition.live_or_write_of_foldl hc with hc | hc
  · exact h n c hc
  · obtain ⟨target, leaf, _, ⟨⟩⟩ := hr _ hc
    exact ⟨target, leaf, rfl⟩

-- A record is only ever superseded.
theorem exists_le_recordCell (hc : recordCell? s target = some c) :
    ∃ c', recordCell? s' target = some c' ∧ c ≤ c' := by
  rw [recordCell?, hw.partition]
  exact Partition.exists_le_live_of_writes hr.isDeletion_eq_false hc

end

theorem load_value (h : IsTidy s) :
    (load s .columnDrop parts).value = (recordCell? s (joinTarget parts)).map (·.value) := by
  rw [load, if_pos rfl]
  change leafValue? (s.read (partition .columnDrop) (.under [joinTarget parts])) valueLeaf = _
  rw [leafValue?]
  cases hl : ((s.read (partition .columnDrop) (.under [joinTarget parts])).filter
    (·.name[1]? == some valueLeaf)).getLast?
  case none =>
    cases he : recordCell? s (joinTarget parts)
    case none   => rfl
    case some c =>
      have hm : ⟨c, [joinTarget parts, valueLeaf]⟩ ∈
          s.read (partition .columnDrop) (.under [joinTarget parts]) :=
        Partition.mem_read.mpr ⟨by simp [CellRange.contains], he⟩
      have hn := List.filter_eq_nil_iff.mp (List.getLast?_eq_none_iff.mp hl) _ hm
      simp at hn
  case some c =>
    have ⟨hm, hv⟩ := List.mem_filter.mp (List.mem_of_getLast? hl)
    have ⟨hp, hc⟩ := Partition.mem_read.mp hm
    have ⟨target, leaf, hn⟩ := h _ _ hc
    have ht : joinTarget parts = target := by simpa [CellRange.contains, hn] using hp
    have hleaf : leaf = valueLeaf := by simpa [hn] using hv
    rw [hn, ← ht, hleaf] at hc
    rw [recordCell?, hc]
    rfl

theorem load_value_empty (parts : List String) : (load ∅ .columnDrop parts).value = none := by
  rw [load_value isTidy_empty, recordCell?, Storage.partition_empty,
    Partition.getElem?_cells_empty]
  rfl

-- What the record says after so many drops.
def afterDrops : Nat → Option Bytes
  | 0 => none
  | 1 => some dropped
  | _ => some permanentDrop

theorem lt_two_of_next (h : Next (afterDrops drops) value) :
    drops < 2 ∧ afterDrops (drops + 1) = some value := by
  match drops with
  | 0     => cases h; exact ⟨by decide, rfl⟩
  | 1     => cases h; exact ⟨by decide, rfl⟩
  | _ + 2 => exact absurd h not_next_permanentDrop

theorem exists_next_of_lt_two (h : drops < 2) : ∃ value, Next (afterDrops drops) value := by
  match drops with
  | 0 => exact ⟨_, .first⟩
  | 1 => exact ⟨_, .last⟩

theorem nextValue_of_permanentDrop (hk : t.kind = .columnDrop) (hv : t.value = some permanentDrop) :
    t.nextValue = .error (.permanentlyDropped t.target) := by
  rw [nextValue, hk, hv]
  simp [dropped_ne_permanentDrop.symm]

end ClusterMetadata.Tag
