import ClusterMetadata.Text.Utf8

/-!
Whole numbers as bytes, most significant first.
-/

namespace ClusterMetadata.BigEndian

def encode : Nat → Nat → Bytes
  | 0,     _ => []
  | k + 1, n => encode k (n / 256) ++ [UInt8.ofNat n]

def decode (b : Bytes) : Nat :=
  b.foldl (fun n b => n * 256 + b.toNat) 0

@[simp]
theorem length_encode (k n : Nat) : (encode k n).length = k := by
  induction k generalizing n with
  | zero      => rfl
  | succ k ih => simp [encode, ih]

end ClusterMetadata.BigEndian
