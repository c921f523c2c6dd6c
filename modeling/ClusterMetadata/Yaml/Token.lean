import ClusterMetadata.Text.Utf8
import ClusterMetadata.Yaml.Scalar

/-!
What a document is made of, from left to right. Where a block starts and ends is not written; it
follows from the indentation, and so does where a key begins.
-/

namespace ClusterMetadata.Yaml

inductive Token where
  | version (major minor : Nat)
  -- What a handle stands for in the tags of the document.
  | declaredHandle (handle : String) (front : Bytes)
  | documentStart
  | documentEnd
  | blockList
  | blockRecord
  | blockEnd
  | flowList
  | flowListEnd
  | flowRecord
  | flowRecordEnd
  | item
  | comma
  | key
  | value
  -- A node of this name is repeated here.
  | repeated (name : String)
  | anchor (name : String)
  -- A tag is what its handle stands for and the rest of it.
  | tag (handle : String) (rest : Bytes)
  | scalar (style : Style) (text : String)
  deriving DecidableEq

def isWordChar (c : Char) : Bool := c.isAlphanum || c = '_' || c = '-'

-- The name of an anchor, behind its mark.
def readAnchor (c : Cursor) : Option (String × Cursor) := do
  let (name, c) := c.takeWhile isWordChar
  if !name.isEmpty ∧ (c.endsAt 0 ∨ c.rest.head?.any ("?:,]\x7d%@`".contains ·)) then
    return (.ofList name, c)
  else none

def isUriChar (verbatim : Bool) (c : Char) : Bool :=
  isWordChar c || ";/?:@&=+$.!~*'()".contains c || (verbatim && ",[]".contains c)

-- How many bytes follow the first one of a character.
def following? (b : UInt8) : Option Nat :=
  if b < 0x80 then some 0
  else if b < 0xC0 then none
  else if b < 0xE0 then some 1
  else if b < 0xF0 then some 2
  else if b < 0xF8 then some 3
  else none

-- An escaped byte is a percent sign with two digits. All bytes of a character are escaped.
def readUri (verbatim : Bool) (c : Cursor) : Option (Bytes × Cursor) :=
  (fun (bytes, n) => (bytes, c.skip n)) <$> go 0 c.rest
where
  -- The bytes and how many characters they are written in, where the first character lacks
  -- `missing` bytes.
  go (missing : Nat) : List Char → Option (Bytes × Nat)
    | []                  => if missing = 0 then some ([], 0) else none
    | '%' :: a :: b :: cs => do
      let byte := UInt8.ofNat (← Digits.read? 16 [a, b])
      let missing ← if missing = 0 then following? byte
        else if Utf8.isContinuation byte then some (missing - 1) else none
      let (bytes, n) ← go missing cs
      return (byte :: bytes, n + 3)
    | c :: cs             =>
      if missing ≠ 0 ∨ c = '%' then none
      else if isUriChar verbatim c then
        (fun (bytes, n) => (.ofNat c.toNat :: bytes, n + 1)) <$> go 0 cs
      else some ([], 0)

-- A word between two exclamation marks; the second one may be missing.
def readHandle (c : Cursor) : Option (List Char × Cursor) :=
  if c.sees "!" then
    let (word, next) := c.next.takeWhile isWordChar
    if next.sees "!" then some ('!' :: word ++ ['!'], next.next) else some ('!' :: word, next)
  else none

-- A zero byte ends a tag.
def untilZero (b : Bytes) : Bytes := b.takeWhile (· ≠ 0)

-- A tag in angle brackets has no handle, and neither has the tag that is a mere mark; the handle of
-- such tags is empty.
def readTag (inFlow : Bool) (c : Cursor) : Option (Token × Cursor) := do
  let (handle, rest, c) ←
    if c.sees "!<" then do
      let (rest, c) ← readUri true (c.skip 2)
      if rest.isEmpty ∨ !c.sees ">" then none else pure ("", untilZero rest, c.next)
    else do
      let (handle, c) ← readHandle c
      let (rest, c) ← readUri false c
      if 1 < handle.length ∧ handle.getLast? = some '!' then
        if rest.isEmpty then none else pure (.ofList handle, untilZero rest, c)
      else
        let rest := untilZero (Utf8.encode (.ofList handle.tail) ++ rest)
        pure (if rest.isEmpty then ("", Utf8.encode "!", c) else ("!", rest, c))
  if c.endsAt 0 ∨ (inFlow ∧ c.sees ",") then return (.tag handle rest, c) else none

-- A number of at most nine digits.
def readNumber (c : Cursor) : Option (Nat × Cursor) := do
  let (digits, c) := c.takeWhile Char.isDigit
  if 9 < digits.length then none else return (← Digits.read? 10 digits, c)

-- A line that says something about the document that follows, behind its percent sign.
def readDirective (c : Cursor) : Option (Token × Cursor) := do
  let (name, c) := c.takeWhile isWordChar
  if !c.endsAt 0 then none
  let c := c.skipWhile isBlank
  let (token, c) ← match String.ofList name with
    | "YAML" => do
      let (major, c) ← readNumber c
      if !c.sees "." then none
      let (minor, c) ← readNumber c.next
      pure (Token.version major minor, c)
    | "TAG"  => do
      let (handle, c) ← readHandle c
      if 1 < handle.length ∧ handle.getLast? ≠ some '!' then none
      let next := c.skipWhile isBlank
      let (front, rest) ← readUri true next
      if next.offset = c.offset ∨ front.isEmpty ∨ !rest.endsAt 0 then none
      pure (Token.declaredHandle (.ofList handle) (untilZero front), rest)
    | _      => none
  let c := c.skipWhile isBlank
  let c := if c.sees "#" then c.skipWhile (!isBreak ·) else c
  if c.rest.head?.all isBreak then return (token, c.next) else none

end ClusterMetadata.Yaml
