import ClusterMetadata.Address
import ClusterMetadata.Text.BigEndian

/-!
The text of an address. A short address is four decimal numbers with dots. A long one is eight
hexadecimal groups with colons, in which one run of zero groups may be written as `::` and the last
two groups as a short address.
-/

namespace ClusterMetadata.Address

def dotted (octets : Bytes) : String :=
  ".".intercalate (octets.map (toString ·.toNat))

def groups : Bytes → List Nat
  | hi :: lo :: rest => BigEndian.decode [hi, lo] :: groups rest
  | _                => []

def colons (gs : List Nat) : String :=
  ":".intercalate (gs.map fun g => .ofList (Nat.toDigits 16 g))

def zerosAt (gs : List Nat) (i : Nat) : Nat :=
  (gs.drop i).takeWhile (· == 0) |>.length

-- The start and length of the longest run of zero groups, the first of several.
def longestZeros (gs : List Nat) : Nat × Nat :=
  (List.range gs.length).foldl longer (0, 0)
where
  longer (best : Nat × Nat) (i : Nat) : Nat × Nat :=
    if best.2 < zerosAt gs i then (i, zerosAt gs i) else best

-- The first twelve octets of a long address that stands for a short one.
def mapped : Bytes := List.replicate 10 0 ++ [0xFF, 0xFF]

def toText (a : Address) : String :=
  if a.octets.length = 4 then dotted a.octets
  else if mapped.isPrefixOf a.octets then "::ffff:" ++ dotted (a.octets.drop 12)
  else
    let gs := groups a.octets
    let (start, length) := longestZeros gs
    if length < 2 then colons gs
    else colons (gs.take start) ++ "::" ++ colons (gs.drop (start + length))

instance : ToString Address := ⟨toText⟩

abbrev Reader (α : Type) := List Char → Option (α × List Char)

def skip (c : Char) : List Char → Option (List Char)
  | d :: cs => if c = d then some cs else none
  | []      => none

-- A decimal number below 256 of at most three digits, without a leading zero.
def readOctet : Reader UInt8 := fun cs =>
  let digits := cs.takeWhile Char.isDigit
  let n := digits.foldl (fun n d => n * 10 + (d.toNat - '0'.toNat)) 0
  let padded := digits.head? = some '0' ∧ 1 < digits.length
  if digits.isEmpty ∨ 3 < digits.length ∨ 255 < n ∨ padded then none
  else some (UInt8.ofNat n, cs.drop digits.length)

def readShort : Reader Bytes := fun cs => do
  let (a, cs) ← readOctet cs
  let (b, cs) ← skip '.' cs >>= readOctet
  let (c, cs) ← skip '.' cs >>= readOctet
  let (d, cs) ← skip '.' cs >>= readOctet
  return ([a, b, c, d], cs)

def readGroup : Reader Bytes := fun cs =>
  let digits := cs.takeWhile fun c => (Hex.value? c).isSome
  if digits.isEmpty ∨ 4 < digits.length then none
  else
    let n := digits.foldl (fun n d => n * 16 + (Hex.value? d).getD 0) 0
    some (BigEndian.encode 2 n, cs.drop digits.length)

-- The groups of at most `limit` that stand at the front, with colons between them. A short address
-- counts for two groups and ends them; `true` tells that one did.
def readGroups (limit : Nat) (first : Bool) (cs : List Char) : Bytes × Bool × List Char :=
  match limit with
  | 0         => ([], false, cs)
  | limit + 1 =>
    let at? := if first then some cs else skip ':' cs
    match (if 0 < limit then at? >>= readShort else none) with
    | some (octets, rest) => (octets, true, rest)
    | none =>
      match at? >>= readGroup with
      | none              => ([], false, cs)
      | some (group, rest) =>
        let (groups, short, rest) := readGroups limit false rest
        (group ++ groups, short, rest)

def readLong : Reader Bytes := fun cs =>
  let (front, short, cs) := readGroups 8 true cs
  if front.length = 16 then some (front, cs)
  else if short then none
  else do
    let cs ← skip ':' cs >>= skip ':'
    let (back, _, cs) := readGroups (7 - front.length / 2) true cs
    return (front ++ List.replicate (16 - front.length - back.length) 0 ++ back, cs)

def parse? (s : String) : Option Address :=
  match readShort s.toList <|> readLong s.toList with
  | some (octets, []) => ofOctets? octets
  | _                 => none

end ClusterMetadata.Address
