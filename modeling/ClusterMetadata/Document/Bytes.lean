import ClusterMetadata.Digest.Sha256
import ClusterMetadata.Document
import ClusterMetadata.Text.Hex

/-!
Texts and byte strings as documents. Bytes that are no text are given in hexadecimal digits, and
what is too long to be shown by its length and digest.
-/

namespace ClusterMetadata.Document

-- In bytes.
def shownLength : Nat := 4096

def hexText (b : Bytes) : Document := .text (.ofList (Hex.ofBytes b))

def ofLong (b : Bytes) : Document :=
  .record [("len", .int b.length), ("sha256", hexText (Sha256.digest b))]

def ofText (s : String) : Document :=
  if shownLength < s.utf8ByteSize then ofLong (Utf8.encode s) else .text s

def ofHex (b : Bytes) : Document :=
  if shownLength < b.length then ofLong b else hexText b

def ofBytes (b : Bytes) : Document :=
  if shownLength < b.length then ofLong b
  else match Utf8.decode? b with
    | some s => .text s
    | none   => .record [("hex", ofHex b)]

def asHex (d : Document) : Option Bytes := do
  Hex.toBytes? (← d.asText).toList

def asBytes : Document → Option Bytes
  | record [("hex", d)] => d.asHex
  | d                   => Utf8.encode <$> d.asText

def ofOption {α : Type} (write : α → Document) : Option α → Document
  | some a => write a
  | none   => null

def ofList {α : Type} (write : α → Document) (as : List α) : Document :=
  .list (as.map write)

-- The field of a record, or `null`.
def get (d : Document) (name : String) : Document :=
  match d with
  | record fields => (fields.lookup name).getD null
  | _             => null

-- A value that may be left out.
def asOption {α : Type} (read : Document → Option α) : Document → Option (Option α)
  | null => some none
  | d    => some <$> read d

def asPair {α β : Type} (first : Document → Option α) (second : Document → Option β) :
    Document → Option (α × β)
  | list [a, b] => do return (← first a, ← second b)
  | _           => none

end ClusterMetadata.Document
