import ClusterMetadata.Text.Hex

/-!
Addresses of cluster members: four octets, or sixteen. Every short address comes before every long
one; within a family the octets decide.
-/

namespace ClusterMetadata

@[ext]
structure Address where
  octets : Bytes
  length_octets : octets.length = 4 ∨ octets.length = 16
  deriving DecidableEq

namespace Address

def ofOctets? (b : Bytes) : Option Address :=
  if h : b.length = 4 ∨ b.length = 16 then some ⟨b, h⟩ else none

@[simp]
theorem ofOctets?_octets (a : Address) : ofOctets? a.octets = some a := by
  simp [ofOctets?, a.length_octets]

theorem octets_of_ofOctets? {b : Bytes} {a : Address} (h : ofOctets? b = some a) :
    a.octets = b := by
  unfold ofOctets? at h
  split at h <;> cases h
  rfl

theorem ofOctets?_eq_none_iff {b : Bytes} :
    ofOctets? b = none ↔ b.length ≠ 4 ∧ b.length ≠ 16 := by
  simp [ofOctets?]

def v4 (a b c d : UInt8) : Address := ⟨[a, b, c, d], .inl rfl⟩

abbrev order : Address → Address → Ordering :=
  compareLex (compareOn fun a => a.octets.length) (compareOn octets)

instance : Ord Address := ⟨order⟩

instance : Std.TransOrd Address := inferInstanceAs (Std.TransCmp order)

instance : Std.LawfulEqOrd Address where
  eq_of_compare {a b} h := by
    have h : (compareOn (·.octets.length) a b).then (compareOn octets a b) = .eq := h
    exact Address.ext (Std.LawfulEqOrd.eq_of_compare (Ordering.then_eq_eq.mp h).2)

end Address
end ClusterMetadata
