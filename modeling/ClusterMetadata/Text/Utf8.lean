/-!
Text and its UTF-8 bytes. `decode?` accepts exactly the bytes of a text; `lossy` never fails: it
keeps a valid text and puts one U+FFFD in the place of each maximal invalid part.
-/

namespace ClusterMetadata

abbrev Bytes := List UInt8

namespace Utf8

def encode (s : String) : Bytes :=
  s.toByteArray.data.toList

def decode? (b : Bytes) : Option String :=
  String.fromUTF8? ⟨b.toArray⟩

@[simp]
theorem decode?_encode (s : String) : decode? (encode s) = some s := by
  simp [decode?, encode, String.fromUTF8?, String.fromUTF8, s.isValidUTF8]

theorem encode_of_decode? {b : Bytes} {s : String} (h : decode? b = some s) : encode s = b := by
  simp only [decode?, String.fromUTF8?] at h
  split at h
  · cases h; simp [encode, String.fromUTF8]
  · cases h

theorem encode_inj {s t : String} : encode s = encode t ↔ s = t where
  mp h := by simpa using congrArg decode? h
  mpr  := congrArg encode

theorem length_encode (s : String) : (encode s).length = s.utf8ByteSize := by
  simp [encode]

-- The number of continuation bytes a lead byte asks for. A byte that starts no character asks for
-- none, as an ASCII byte does.
def continuations (lead : UInt8) : Nat :=
  if lead < 0xC2 then 0 else if lead < 0xE0 then 1 else if lead < 0xF0 then 2
  else if lead < 0xF5 then 3 else 0

def isContinuation (b : UInt8) : Bool :=
  0x80 ≤ b && b ≤ 0xBF

-- The byte after the lead byte is narrower than a continuation where a wider one would spell an
-- overlong form, a surrogate or a value past U+10FFFF.
def isSecond (lead b : UInt8) : Bool :=
  if lead = 0xE0 then 0xA0 ≤ b && b ≤ 0xBF
  else if lead = 0xED then 0x80 ≤ b && b ≤ 0x9F
  else if lead = 0xF0 then 0x90 ≤ b && b ≤ 0xBF
  else if lead = 0xF4 then 0x80 ≤ b && b ≤ 0x8F
  else isContinuation b

-- The bytes after `lead` that still fit the character it starts.
def fitting (lead : UInt8) : Bytes → Bytes
  | []        => []
  | b :: rest =>
    match continuations lead with
    | 0     => []
    | n + 1 => if isSecond lead b then b :: (rest.take n).takeWhile isContinuation else []

def assemble (lead : UInt8) (tail : Bytes) : Char :=
  let bits := lead.toNat % (1 <<< (if tail.isEmpty then 7 else 6 - tail.length))
  Char.ofNat (tail.foldl (fun n b => n * 64 + b.toNat % 64) bits)

def lossyChars : Bytes → List Char
  | []           => []
  | lead :: rest =>
    let tail := fitting lead rest
    let complete := lead < 0x80 || (0 < tail.length && tail.length == continuations lead)
    (if complete then assemble lead tail else '\uFFFD') :: lossyChars (rest.drop tail.length)
termination_by b => b.length

def lossy (b : Bytes) : String :=
  (decode? b).getD (.ofList (lossyChars b))

@[simp]
theorem lossy_encode (s : String) : lossy (encode s) = s := by
  simp [lossy]

end Utf8
end ClusterMetadata
