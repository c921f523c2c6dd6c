import ClusterMetadata.Proofs.Wire.Reader
import ClusterMetadata.Wire.ForwardList

/-!
Forward lists are written when the ids have lengths of two bytes, and they are read back as they
were written, whatever follows (`spans_readForwardList`). Every list that is read was written so
(`accepts_readForwardList`): one address has one form only, so nothing else is read as a list.
-/

namespace ClusterMetadata.Wire

variable {b : Bytes} {entry : Address × String} {entries : List (Address × String)}

theorem asAddress_octets (a : Address) : asAddress a.octets = .ok a := by
  rw [asAddress, Address.ofOctets?_octets]
  rfl

theorem octets_of_asAddress {octets : Bytes} {a : Address} (h : asAddress octets = .ok a) :
    a.octets = octets := by
  rw [asAddress] at h
  split at h
  case h_1 ha => cases h; exact Address.octets_of_ofOctets? ha
  case h_2    => cases h

theorem isOk_writeForward :
    (writeForward entry).isOk = true ↔ (Utf8.encode entry.2).length < shortLimit :=
  isOk_map.trans isOk_writeText

theorem isOk_writeForwardList : (writeForwardList entries).isOk = true ↔
    ∀ entry ∈ entries, (Utf8.encode entry.2).length < shortLimit := by
  rw [writeForwardList, isOk_map, isOk_writeAll]
  simp only [isOk_writeForward]

theorem spans_readForward (h : writeForward entry = .ok b) : Spans readForward b entry := by
  have ⟨id, hid, h⟩ := bind_eq_ok_iff.mp h
  cases h
  have hl : (UInt8.ofNat entry.1.octets.length).toNat = entry.1.octets.length := by
    rcases entry.1.length_octets with hl | hl <;> rw [hl] <;> rfl
  have ht : Spans (take (UInt8.ofNat entry.1.octets.length).toNat) entry.1.octets entry.1.octets :=
    hl.symm ▸ spans_take _
  have hr : Spans (do return (← asAddress entry.1.octets, ← readText)) id entry :=
    (Spans.lift (asAddress_octets entry.1)).bind ((spans_readText hid).bind_nil (.pure entry))
  exact (spans_readByte _).bind (ht.bind hr)

theorem spans_readForwardList (hl : entries.length < countLimit)
    (h : writeForwardList entries = .ok b) : Spans readForwardList b entries := by
  have ⟨es, he, h⟩ := bind_eq_ok_iff.mp h
  cases h
  exact (spans_readCount hl).bind (spans_readMany (fun _ _ _ => spans_readForward) he)

theorem run_readForwardList (hl : entries.length < countLimit)
    (h : writeForwardList entries = .ok b) : run readForwardList b = .ok entries :=
  (spans_readForwardList hl h).run_eq

-- The byte in front is the number of octets behind it, and these are the address.
theorem accepts_readForward :
    Accepts readForward fun taken entry => writeForward entry = .ok taken := by
  refine accepts_readByte.bind fun taken₁ size h₁ => (accepts_take size.toNat).bind
    fun taken₂ octets h₂ => .bind_lift fun a ha => accepts_readText.bind
      fun taken₃ id h₃ => .pure ?_
  obtain rfl := octets_of_asAddress ha
  obtain ⟨rfl, hl⟩ := h₂
  refine bind_eq_ok_iff.mpr ⟨taken₃, h₃, ?_⟩
  rw [h₁, hl, UInt8.ofNat_toNat, List.append_nil]
  rfl

theorem accepts_readForwardList : Accepts readForwardList fun taken entries =>
    entries.length < countLimit ∧ writeForwardList entries = .ok taken := by
  refine accepts_readCount.bind fun taken n hn => (accepts_readMany
    (Q := fun taken entries => writeAll writeForward entries = .ok taken)
    accepts_readForward rfl (fun h h' => ?_) n).mono ?_
  · exact bind_eq_ok_iff.mpr ⟨_, h, bind_eq_ok_iff.mpr ⟨_, h', rfl⟩⟩
  · rintro taken' entries ⟨rfl, h⟩
    obtain ⟨hl, rfl⟩ := hn
    exact ⟨hl, bind_eq_ok_iff.mpr ⟨taken', h, rfl⟩⟩

theorem forward_list_kept :
    (∀ entries, (writeForwardList entries).isOk = true ↔
      ∀ entry ∈ entries, (Utf8.encode entry.2).length ≤ 65535) ∧
    (∀ entries b, entries.length < countLimit → writeForwardList entries = .ok b →
      ∀ rest, run readForwardList (b ++ rest) = .ok entries) ∧
    ∀ b entries, run readForwardList b = .ok entries →
      ∃ b' rest, writeForwardList entries = .ok b' ∧ b = b' ++ rest := by
  refine ⟨fun entries => ?written, fun entries b hl h rest => ?read, fun b entries h => ?accepted⟩
  case written =>
    simp only [isOk_writeForwardList, shortLimit, Nat.lt_succ_iff]
  case read => exact (spans_readForwardList hl h).reads.run_eq rest
  case accepted =>
    have ⟨rest, h⟩ := run_eq_ok_iff.mp h
    have ⟨b', hb, _, hw⟩ := accepts_readForwardList b entries rest h
    exact ⟨b', rest, hw, hb⟩

-- A short address, a long one, and a long one that stands for a short one.
theorem forward_list_kept_of_mixed :
    let entries : List (Address × String) :=
      [(.v4 10 0 0 1, "é"), (⟨.replicate 16 0, .inr rfl⟩, ""),
      (⟨.replicate 10 0 ++ [0xff, 0xff, 10, 0, 0, 1], .inr rfl⟩, "a")]
    let b : Bytes := [0, 0, 0, 3, 4, 10, 0, 0, 1, 0, 2, 0xc3, 0xa9] ++
      16 :: .replicate 16 0 ++ [0, 0] ++
      16 :: .replicate 10 0 ++ [0xff, 0xff, 10, 0, 0, 1, 0, 1, 0x61]
    entries.length < countLimit ∧ writeForwardList entries = .ok b ∧
      (∀ rest, run readForwardList (b ++ rest) = .ok entries) ∧
      ∃ b' rest, writeForwardList entries = .ok b' ∧ b ++ [0, 7] = b' ++ rest := by
  intro entries b
  have hl : entries.length < countLimit := by decide
  have hb : writeForwardList entries = .ok b := by decide +kernel
  have hr := forward_list_kept.right.left entries b hl hb
  exact ⟨hl, hb, hr, forward_list_kept.right.right (b ++ [0, 7]) entries (hr [0, 7])⟩

end ClusterMetadata.Wire
