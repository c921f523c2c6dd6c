import ClusterMetadata.Digest.Sha256
import ClusterMetadata.Text.Hex

/-!
Universally unique identifiers: sixteen bytes, written in hyphenated groups of 4, 2, 2, 2 and 6.
-/

namespace ClusterMetadata

@[ext]
structure Uuid where
  bytes : Bytes
  length_bytes : bytes.length = 16
  deriving DecidableEq

namespace Uuid

def ofBytes? (b : Bytes) : Option Uuid :=
  if h : b.length = 16 then some ⟨b, h⟩ else none

-- The first half of the digest.
def ofDigest (message : Bytes) : Uuid where
  bytes := (Sha256.digest message).take 16
  length_bytes := by simp

-- A version 4 identifier for the `i`th draw of round `n`. Distinct pairs give distinct identifiers
-- while both stay below 2 ^ 48.
def random (n i : Nat) : Uuid where
  bytes := BigEndian.encode 6 n ++ [0x40, 0, 0x80, 0] ++ BigEndian.encode 6 i
  length_bytes := by simp

def isRandom (u : Uuid) : Bool :=
  match u.bytes with
  | [_, _, _, _, _, _, v, _, w, _, _, _, _, _, _, _] => v.toNat / 16 == 4 && w.toNat / 64 == 2
  | _                                                => false

def groups : List Nat := [4, 2, 2, 2, 6]

def render : List Nat → Bytes → List Char
  | [],      _ => []
  | [n],     b => Hex.ofBytes (b.take n)
  | n :: ns, b => Hex.ofBytes (b.take n) ++ '-' :: render ns (b.drop n)

def toText (u : Uuid) : String :=
  .ofList (render groups u.bytes)

instance : ToString Uuid := ⟨toText⟩

-- Hyphens stand after the groups and nowhere else.
def readGroups : List Nat → List Char → Option Bytes
  | [],      cs => if cs.isEmpty then some [] else none
  | [n],     cs => if cs.length = 2 * n then Hex.toBytes? cs else none
  | n :: ns, cs => do
    let group ← Hex.toBytes? (cs.take (2 * n))
    match cs.drop (2 * n) with
    | '-' :: rest => return group ++ (← readGroups ns rest)
    | _           => none

def urn : List Char := "urn:uuid:".toList

-- The hyphenated form, which may stand in braces or after `urn:uuid:`, or 32 digits in a row. Case
-- does not matter.
def parse? (s : String) : Option Uuid :=
  let cs := s.toList
  let hyphenated cs := readGroups groups cs >>= ofBytes?
  match s.utf8ByteSize with
  | 32 => Hex.toBytes? cs >>= ofBytes?
  | 36 => hyphenated cs
  | 38 => if cs.head? = some '{' ∧ cs.getLast? = some '}' then hyphenated cs.tail.dropLast else none
  | 45 =>
    let (front, rest) := cs.splitAt urn.length
    if front.map Char.toLower = urn then hyphenated rest else none
  | _  => none

end Uuid
end ClusterMetadata
