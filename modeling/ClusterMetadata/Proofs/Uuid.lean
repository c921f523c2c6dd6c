import ClusterMetadata.Proofs.Text.OptionMap
import ClusterMetadata.Uuid

/-!
An identifier reads back from its text (`parse?_toText`).
-/

namespace ClusterMetadata

namespace Hex

theorem toBytes?_ofBytes (b : Bytes) : toBytes? (ofBytes b) = some b := by
  induction b
  case nil => rfl
  case cons c b hi =>
    have hc := c.toNat_lt
    have h₁ : c.toNat / 16 < 16 := by omega
    have h₂ : c.toNat % 16 < 16 := Nat.mod_lt _ (by decide)
    have hv : UInt8.ofNat (c.toNat / 16 * 16 + c.toNat % 16) = c := by
      rw [Nat.div_add_mod', UInt8.ofNat_toNat]
    simp only [ofBytes, List.flatMap_cons, ofByte, List.cons_append, List.nil_append, toBytes?,
      value?_digit h₁, value?_digit h₂, Option.bind_eq_bind, Option.bind_some, hv] at hi ⊢
    rw [hi]
    rfl

theorem length_ofBytes (b : Bytes) : (ofBytes b).length = 2 * b.length := by
  simp [ofBytes, ofByte, Nat.mul_comm]

theorem utf8Size_of_mem_ofBytes {b : Bytes} {c : Char} (h : c ∈ ofBytes b) : c.utf8Size = 1 := by
  have hd {n : Nat} (h : n < 16) : (digit n).utf8Size = 1 := by interval_cases n <;> rfl
  obtain ⟨a, -, hc⟩ := List.mem_flatMap.mp h
  have ha := a.toNat_lt
  simp only [ofByte, List.mem_cons, List.not_mem_nil, or_false] at hc
  obtain rfl | rfl := hc <;> exact hd (by omega)

end Hex

namespace Uuid

variable {n : Nat} {ns : List Nat} {b : Bytes}

theorem readGroups_render (h : b.length = (n :: ns).sum) :
    readGroups (n :: ns) (render (n :: ns) b) = some b := by
  induction ns generalizing n b
  case nil =>
    have hb : b.take n = b := List.take_of_length_le (by simpa using h.le)
    simp_all [readGroups, render, Hex.length_ofBytes, Hex.toBytes?_ofBytes]
  case cons m ns hi =>
    have hl : (Hex.ofBytes (b.take n)).length = 2 * n := by
      rw [Hex.length_ofBytes, List.length_take_of_le]
      simp [h]
    have hd := hi (b := b.drop n) (n := m) (by simp [h])
    simp [readGroups, render, ← hl, Hex.toBytes?_ofBytes, hd]

theorem length_render (h : b.length = (n :: ns).sum) :
    (render (n :: ns) b).length = 2 * b.length + ns.length := by
  induction ns generalizing n b
  case nil =>
    have hb : b.take n = b := List.take_of_length_le (by simpa using h.le)
    simp [render, hb, Hex.length_ofBytes]
  case cons m ns hi =>
    have hd := hi (b := b.drop n) (n := m) (by simp [h])
    have hn : n ≤ b.length := by simp [h]
    simp only [render, List.length_append, List.length_cons, Hex.length_ofBytes, hd,
      List.length_take_of_le hn, List.length_drop]
    omega

theorem utf8Size_of_mem_render {c : Char} (h : c ∈ render ns b) : c.utf8Size = 1 := by
  induction ns generalizing b
  case nil => simp [render] at h
  case cons n ns hi =>
    cases ns
    case nil => exact Hex.utf8Size_of_mem_ofBytes h
    case cons m ns =>
      simp only [render, List.mem_append, List.mem_cons] at h
      obtain h | rfl | h := h
      · exact Hex.utf8Size_of_mem_ofBytes h
      · rfl
      · exact hi h

theorem utf8ByteSize_ofList {cs : List Char} (h : ∀ c ∈ cs, c.utf8Size = 1) :
    (String.ofList cs).utf8ByteSize = cs.length := by
  induction cs
  case nil => rfl
  case cons c cs hi =>
    simp only [List.forall_mem_cons] at h
    rw [String.ofList_cons, String.utf8ByteSize_append, hi h.right, String.utf8ByteSize_singleton,
      h.left, List.length_cons, Nat.add_comm]

theorem utf8ByteSize_toText (u : Uuid) : u.toText.utf8ByteSize = 36 := by
  have hs : u.bytes.length = groups.sum := u.length_bytes
  rw [toText, utf8ByteSize_ofList fun _ => utf8Size_of_mem_render, groups, length_render hs,
    u.length_bytes]
  rfl

theorem parse?_toText (u : Uuid) : parse? u.toText = some u := by
  have hs : u.bytes.length = groups.sum := u.length_bytes
  have hr : readGroups groups u.toText.toList = some u.bytes := by
    rw [toText, String.toList_ofList]
    exact readGroups_render hs
  simp only [parse?, utf8ByteSize_toText, hr, Option.bind_eq_bind, Option.bind_some, ofBytes?]
  exact dif_pos u.length_bytes

end Uuid
end ClusterMetadata
