import ClusterMetadata.Proofs.Wire.Reader
import ClusterMetadata.Wire.CellName
import Mathlib.Algebra.Order.BigOperators.Group.List
import Mathlib.Algebra.Order.Ring.Nat

/-!
Which bytes name a cell. The bytes at the ends of the components are taken off without a look at
them: a name is read from its composite form with any bytes in these places, and from nothing else
(`readName_eq_ok_iff`). Only one of these forms is written (`name_reads_back`).
-/

namespace ClusterMetadata

section

variable {α : Type} {w : α → Nat} {a : α} {as : List α}

theorem le_sum_map (h : a ∈ as) : w a ≤ (as.map w).sum :=
  List.le_sum_of_mem (List.mem_map_of_mem h)

-- Where every item takes a byte there are no more items than bytes.
theorem length_le_sum_map (hw : ∀ a, 0 < w a) (as : List α) : as.length ≤ (as.map w).sum := by
  have h := (as.map w).length_le_sum_of_one_le (List.forall_mem_map.mpr fun a _ => hw a)
  rwa [List.length_map] at h

end

namespace Wire

-- In the composite form each component has a length of two bytes and an end marker.
def nameLength (name : CellName) : Nat :=
  (name.map fun component => (Utf8.encode component).length + 3).sum

-- A component behind its length, and the byte at its end.
def enclosed (component : String) (last : UInt8) : Bytes :=
  BigEndian.encode 2 (Utf8.encode component).length ++ Utf8.encode component ++ [last]

-- The composite form of a name with these bytes at the ends of its components.
def composite : CellName → List UInt8 → Bytes
  | component :: name, last :: ends => enclosed component last ++ composite name ends
  | _,                 _            => []

variable {component : String} {name : CellName} {ends : List UInt8} {last : UInt8} {limit : Nat}
  {b : Bytes}

theorem length_enclosed :
    (enclosed component last).length = (Utf8.encode component).length + 3 := by
  simp [enclosed]
  omega

theorem enclosed_ne_nil : enclosed component last ≠ [] := by simp [enclosed]

theorem nameLength_cons :
    nameLength (component :: name) = (Utf8.encode component).length + 3 + nameLength name := by
  rw [nameLength, List.map_cons, List.sum_cons, nameLength]

theorem length_le_nameLength : name.length ≤ nameLength name :=
  length_le_sum_map (fun _ => Nat.succ_pos _) name

theorem length_le_of_mem (h : component ∈ name) :
    (Utf8.encode component).length ≤ nameLength name := by
  have hs : (Utf8.encode component).length + 3 ≤ nameLength name :=
    le_sum_map (w := fun component => (Utf8.encode component).length + 3) h
  exact (Nat.le_add_right _ 3).trans hs

theorem length_composite (h : ends.length = name.length) :
    (composite name ends).length = nameLength name := by
  induction name generalizing ends
  case nil => cases ends <;> rfl
  case cons component name hi =>
    obtain ⟨last, ends, rfl⟩ := List.exists_cons_of_length_eq_add_one h
    rw [composite, List.length_append, length_enclosed, hi (Nat.succ.inj h), nameLength_cons]

theorem writeComponent_eq_ok_iff : writeComponent component = .ok b ↔
    (Utf8.encode component).length < shortLimit ∧ b = enclosed component endOfComponent := by
  constructor
  case mp =>
    intro h
    obtain ⟨s, hs, h⟩ := bind_eq_ok_iff.mp h
    obtain ⟨hl, rfl⟩ := writeShort_eq_ok hs
    exact ⟨hl, (Except.ok.inj h).symm⟩
  case mpr =>
    rintro ⟨hl, rfl⟩
    exact bind_eq_ok_iff.mpr ⟨_, if_pos hl, rfl⟩

-- What is written has the end marker in all places.
theorem writeName_eq_ok_iff : writeName name = .ok b ↔
    (∀ component ∈ name, (Utf8.encode component).length < shortLimit) ∧
      b = composite name (.replicate name.length endOfComponent) := by
  induction name generalizing b
  case nil => simp [writeName, writeAll, composite, eq_comm]
  case cons component name hi =>
    rw [List.forall_mem_cons, List.length_cons, List.replicate_succ, composite]
    constructor
    case mp =>
      intro h
      obtain ⟨b₁, b₂, h₁, h₂, rfl⟩ := writeAll_cons_eq_ok h
      obtain ⟨hl, rfl⟩ := writeComponent_eq_ok_iff.mp h₁
      obtain ⟨hs, rfl⟩ := hi.mp h₂
      exact ⟨⟨hl, hs⟩, rfl⟩
    case mpr =>
      rintro ⟨⟨hl, hs⟩, rfl⟩
      have h₁ := writeComponent_eq_ok_iff.mpr ⟨hl, rfl⟩
      exact bind_eq_ok_iff.mpr ⟨_, h₁, bind_eq_ok_iff.mpr ⟨_, hi.mpr ⟨hs, rfl⟩, rfl⟩⟩

theorem spans_readComponent (h : (Utf8.encode component).length < shortLimit) (last : UInt8) :
    Spans readComponent (enclosed component last) component :=
  (spans_readShort (if_pos h : writeShort "" _ = _)).bind
    ((spans_asText component).bind ((spans_readByte last).bind_nil (.pure component)))

theorem accepts_readComponent : Accepts readComponent fun taken component =>
    (Utf8.encode component).length < shortLimit ∧ ∃ last, taken = enclosed component last := by
  refine (accepts_readShort "").bind fun taken v h => ?_
  obtain ⟨hl, rfl⟩ := writeShort_eq_ok h
  refine (accepts_asText v).bind fun taken component h => accepts_readByte.bind
    fun taken last h' => ?_
  obtain ⟨rfl, rfl⟩ := h
  subst h'
  exact .pure ⟨hl, last, by simp [enclosed]⟩

theorem readComponents_composite (hl : name.length ≤ limit)
    (hs : ∀ component ∈ name, (Utf8.encode component).length < shortLimit)
    (he : ends.length = name.length) : readComponents limit (composite name ends) = .ok name := by
  induction name generalizing ends limit
  case nil => cases ends <;> cases limit <;> rfl
  case cons component name hi =>
    obtain ⟨limit, rfl⟩ := Nat.exists_eq_add_of_le' (Nat.le_of_add_left_le hl)
    obtain ⟨last, ends, rfl⟩ := List.exists_cons_of_length_eq_add_one he
    have ⟨hc, hs⟩ := List.forall_mem_cons.mp hs
    rw [composite, readComponents]
    case x => simp [enclosed_ne_nil]
    have first := (spans_readComponent hc last).reads (composite name ends)
    have others := hi (Nat.le_of_succ_le_succ hl) hs (Nat.succ.inj he)
    exact bind_eq_ok_iff.mpr ⟨_, first, bind_eq_ok_iff.mpr ⟨name, others, rfl⟩⟩

theorem exists_composite_of_readComponents (h : readComponents limit b = .ok name) :
    (∀ component ∈ name, (Utf8.encode component).length < shortLimit) ∧
      ∃ ends, ends.length = name.length ∧ b = composite name ends := by
  induction limit generalizing b name
  case zero =>
    cases b
    case nil  => cases h; exact ⟨nofun, [], rfl, rfl⟩
    case cons => cases h
  case succ limit hi =>
    cases b
    case nil => cases h; exact ⟨nofun, [], rfl, rfl⟩
    case cons c b =>
      rw [readComponents] at h
      case x => simp
      have ⟨⟨component, rest⟩, hc, h⟩ := bind_eq_ok_iff.mp h
      obtain ⟨name, hn, h⟩ := bind_eq_ok_iff.mp h
      cases h
      obtain ⟨taken, ht, hl, last, rfl⟩ := accepts_readComponent _ _ _ hc
      obtain ⟨hs, ends, he, rfl⟩ := hi hn
      refine ⟨List.forall_mem_cons.mpr ⟨hl, hs⟩, last :: ends, congrArg Nat.succ he, ?_⟩
      rw [composite, ht]

theorem readName_eq_ok_iff : readName b = .ok name ↔
    (∀ component ∈ name, (Utf8.encode component).length < shortLimit) ∧
      ∃ ends, ends.length = name.length ∧ b = composite name ends := by
  constructor
  case mp => exact exists_composite_of_readComponents
  case mpr =>
    rintro ⟨hs, ends, he, rfl⟩
    exact readComponents_composite (length_composite he ▸ length_le_nameLength) hs he

theorem length_of_writeName (h : writeName name = .ok b) : b.length = nameLength name := by
  obtain ⟨_, rfl⟩ := writeName_eq_ok_iff.mp h
  exact length_composite List.length_replicate

theorem length_of_readName (h : readName b = .ok name) : b.length = nameLength name := by
  obtain ⟨_, ends, he, rfl⟩ := readName_eq_ok_iff.mp h
  exact length_composite he

theorem readName_of_writeName (h : writeName name = .ok b) : readName b = .ok name :=
  have ⟨hs, hb⟩ := writeName_eq_ok_iff.mp h
  readName_eq_ok_iff.mpr ⟨hs, _, List.length_replicate, hb⟩

theorem composite_inj {ends' : List UInt8} (he : ends.length = name.length)
    (he' : ends'.length = name.length) (h : composite name ends = composite name ends') :
    ends = ends' := by
  induction name generalizing ends ends'
  case nil => rw [List.length_eq_zero_iff.mp he, List.length_eq_zero_iff.mp he']
  case cons component name hi =>
    obtain ⟨last, ends, rfl⟩ := List.exists_cons_of_length_eq_add_one he
    obtain ⟨last', ends', rfl⟩ := List.exists_cons_of_length_eq_add_one he'
    rw [composite, composite] at h
    have ⟨hc, hr⟩ := List.append_inj h (by rw [length_enclosed, length_enclosed])
    have hl : last = last' := List.singleton_inj.mp (List.append_cancel_left hc)
    rw [hl, hi (Nat.succ.inj he) (Nat.succ.inj he') hr]

theorem name_reads_back (name : CellName) :
    ((∀ component ∈ name, (Utf8.encode component).length < shortLimit) →
      ∃ b, writeName name = .ok b ∧ readName b = .ok name) ∧
    ∀ b : Bytes, readName b = .ok name →
      ∃ ends, ends.length = name.length ∧ b = composite name ends ∧
        (writeName name = .ok b ↔ ∀ last ∈ ends, last = endOfComponent) ∧
        ∀ b', readName b' = .ok name ↔
          ∃ ends', ends'.length = name.length ∧ b' = composite name ends' := by
  constructor
  case left =>
    intro hs
    have hw := writeName_eq_ok_iff.mpr ⟨hs, rfl⟩
    exact ⟨_, hw, readName_of_writeName hw⟩
  case right =>
    intro b h
    obtain ⟨hs, ends, he, rfl⟩ := readName_eq_ok_iff.mp h
    refine ⟨ends, he, rfl, ?_, fun b' => readName_eq_ok_iff.trans (and_iff_right hs)⟩
    rw [writeName_eq_ok_iff, and_iff_right hs]
    constructor
    case mp =>
      intro hc
      have hr := composite_inj he List.length_replicate hc
      exact (List.eq_replicate_iff.mp hr).right
    case mpr =>
      intro hm
      rw [List.eq_replicate_iff.mpr ⟨he, hm⟩]

-- An empty component, and a form with other bytes at the ends.
theorem name_reads_back_of_marks :
    let name : CellName := ["a", ""]
    let b : Bytes := [0, 1, 0x61, 1, 0, 0, 0xff]
    (∀ component ∈ name, (Utf8.encode component).length < shortLimit) ∧
      readName b = .ok name ∧
      (∃ b', writeName name = .ok b' ∧ readName b' = .ok name) ∧
      ∃ ends, ends.length = name.length ∧ b = composite name ends ∧
        (writeName name = .ok b ↔ ∀ last ∈ ends, last = endOfComponent) ∧
        ∀ b', readName b' = .ok name ↔
          ∃ ends', ends'.length = name.length ∧ b' = composite name ends' := by
  intro name b
  have hs : ∀ component ∈ name, (Utf8.encode component).length < shortLimit := by decide +kernel
  have hb : readName b = .ok name := by decide +kernel
  have ⟨writes, reads⟩ := name_reads_back name
  exact ⟨hs, hb, writes hs, reads b hb⟩

-- Two byte strings name one cell, and one of them is never written.
theorem name_shared_of_mark :
    let name : CellName := ["a"]
    readName [0, 1, 0x61, 0] = .ok name ∧ readName [0, 1, 0x61, 1] = .ok name ∧
      writeName name = .ok [0, 1, 0x61, 0] ∧ writeName name ≠ .ok [0, 1, 0x61, 1] := by
  decide +kernel

end Wire
end ClusterMetadata
