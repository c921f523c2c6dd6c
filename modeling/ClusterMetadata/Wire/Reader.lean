import ClusterMetadata.Text.BigEndian

/-!
Fields of a payload: numbers of fixed width, texts and byte strings behind a two-byte length, and
counted lists. Writing refuses what its length field cannot hold; reading takes a field off the
front and leaves the rest.
-/

namespace ClusterMetadata

inductive WireError where
  | truncated
  | invalidUtf8
  | tooLong (what : String) (length : Nat)
  | unknownModification (tag : UInt8)
  | unsupported (what : String) (required version : Int)
  | badAddress (length : Nat)
  | negativeCount (what : String)
  deriving DecidableEq, Repr

namespace WireError

def message : WireError → String
  | truncated => "unexpected end of payload"
  | invalidUtf8 => "invalid UTF-8 in payload"
  | tooLong what length => s!"{what} of {length} bytes exceeds the u16 length prefix"
  | unknownModification tag => "unknown modification tag 0x" ++ .ofList (Nat.toDigits 16 tag.toNat)
  | unsupported what required version =>
    s!"{what} requires protocol version {required}, peer speaks {version}"
  | badAddress length => s!"address of {length} bytes is neither IPv4 nor IPv6"
  | negativeCount what => s!"negative {what} count"

end WireError

namespace Wire

def writeInt64 (n : Int64) : Bytes := BigEndian.encode 8 n.toUInt64.toNat

def writeInt32 (n : Int32) : Bytes := BigEndian.encode 4 n.toUInt32.toNat

def writeCount (n : Nat) : Bytes := BigEndian.encode 4 n

-- Lengths of two bytes are below this.
def shortLimit : Nat := 0x10000

-- Counts are signed numbers of four bytes, and there are no negative ones.
def countLimit : Nat := 0x80000000

def writeShort (what : String) (b : Bytes) : Except WireError Bytes :=
  if b.length < shortLimit then .ok (BigEndian.encode 2 b.length ++ b)
  else .error (.tooLong what b.length)

def writeText (s : String) : Except WireError Bytes :=
  writeShort "string" (Utf8.encode s)

-- The written items one after another; the first that cannot be written decides.
def writeAll {α : Type} (write : α → Except WireError Bytes) : List α → Except WireError Bytes
  | []      => .ok []
  | a :: as => do return (← write a) ++ (← writeAll write as)

abbrev Reader := StateT Bytes (Except WireError)

def take (n : Nat) : Reader Bytes := fun b =>
  let front := b.take n
  if front.length = n then .ok (front, b.drop n) else .error .truncated

def readByte : Reader UInt8
  | []     => .error .truncated
  | b :: r => .ok (b, r)

def readNat (width : Nat) : Reader Nat :=
  BigEndian.decode <$> take width

def readInt64 : Reader Int64 := do
  return (UInt64.ofNat (← readNat 8)).toInt64

def readInt32 : Reader Int32 := do
  return (UInt32.ofNat (← readNat 4)).toInt32

def readCount (what : String) : Reader Nat := do
  let n ← readNat 4
  if n < countLimit then return n else throw (.negativeCount what)

def readShort : Reader Bytes := do
  take (← readNat 2)

def asText (b : Bytes) : Reader String :=
  match Utf8.decode? b with
  | some s => pure s
  | none   => throw .invalidUtf8

def readText : Reader String := do
  asText (← readShort)

def readMany {α : Type} (read : Reader α) : Nat → Reader (List α)
  | 0     => pure []
  | n + 1 => do return (← read) :: (← readMany read n)

-- What stands after the value is ignored.
def run {α : Type} (read : Reader α) (b : Bytes) : Except WireError α :=
  Prod.fst <$> read b

end Wire
end ClusterMetadata
