import ClusterMetadata.Text.BigEndian
import Mathlib.Algebra.Group.Nat.Defs
import Mathlib.Data.List.Induction

/-!
Reading back a number that is written in `k` bytes. What is read is what remains of it below the
`k`th power of 256 (`decode_encode`), and that is all that the bytes tell
(`mod_eq_of_encode_eq`). All bytes are the writing of the number that they spell (`encode_decode`).
-/

namespace ClusterMetadata.BigEndian

theorem decode_append_singleton (b : Bytes) (c : UInt8) :
    decode (b ++ [c]) = decode b * 256 + c.toNat := by
  simp [decode]

theorem decode_encode (k n : Nat) : decode (encode k n) = n % 256 ^ k := by
  induction k generalizing n with
  | zero      => simp [encode, decode, Nat.mod_one]
  | succ k ih =>
    rw [encode, decode_append_singleton, ih, Nat.pow_succ', Nat.mod_mul, UInt8.toNat_ofNat']
    omega

theorem mod_eq_of_encode_eq {k n m : Nat} (h : encode k n = encode k m) :
    n % 256 ^ k = m % 256 ^ k := by
  have hd := congrArg decode h
  rwa [decode_encode, decode_encode] at hd

theorem encode_decode (b : Bytes) : encode b.length (decode b) = b := by
  induction b using List.reverseRecOn
  case nil => rfl
  case append_singleton b c hi =>
    have hq : (decode b * 256 + c.toNat) / 256 = decode b := by
      have := c.toNat_lt
      omega
    have hc : UInt8.ofNat (decode b * 256 + c.toNat) = c := by
      rw [← UInt8.toNat_inj, UInt8.toNat_ofNat']
      have := c.toNat_lt
      omega
    rw [List.length_append, List.length_singleton, encode, decode_append_singleton, hq, hc, hi]

theorem decode_lt (b : Bytes) : decode b < 256 ^ b.length := by
  have h := decode_encode b.length (decode b)
  rw [encode_decode] at h
  rw [h]
  exact Nat.mod_lt _ (Nat.pow_pos (by decide))

end ClusterMetadata.BigEndian
