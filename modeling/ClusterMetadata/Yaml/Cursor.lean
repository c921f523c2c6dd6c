/-!
A place in a text that is laid out in lines and columns.
-/

namespace ClusterMetadata.Yaml

def isBlank (c : Char) : Bool := c = ' ' || c = '\t'

def isBreak (c : Char) : Bool := c = '\n' || c = '\u2028' || c = '\u2029'

-- The mark of how a text is encoded, which may stand at the front of a line.
def isEncodingMark (c : Char) : Bool := c = '\uFEFF'

def isGap (c : Char) : Bool := isBlank c || isBreak c

-- The other ways to end a line, written as a line feed.
def joinBreaks : List Char → List Char
  | '\r' :: '\n' :: cs => '\n' :: joinBreaks cs
  | '\r' :: cs         => '\n' :: joinBreaks cs
  | '\u0085' :: cs     => '\n' :: joinBreaks cs
  | c :: cs            => c :: joinBreaks cs
  | []                 => []

-- A text holds no control characters but tabs and those that end a line.
def isPrintable (c : Char) : Bool :=
  c = '\t' || c = '\n' || c = '\r' || c = '\u0085' || (' ' ≤ c && c ≤ '~') ||
    ('\u00A0' ≤ c && c ≠ '\uFFFE' && c ≠ '\uFFFF')

@[ext]
structure Cursor where
  rest : List Char
  line : Nat
  column : Nat
  -- The number of characters that have been read.
  offset : Nat

namespace Cursor

def start (cs : List Char) : Cursor := ⟨cs, 0, 0, 0⟩

def next (c : Cursor) : Cursor :=
  match c.rest with
  | []      => c
  | d :: ds =>
    if isBreak d then ⟨ds, c.line + 1, 0, c.offset + 1⟩
    else ⟨ds, c.line, c.column + 1, c.offset + 1⟩

def skip (c : Cursor) (n : Nat) : Cursor := Nat.repeat next n c

def takeWhile (p : Char → Bool) (c : Cursor) : List Char × Cursor :=
  let taken := c.rest.takeWhile p
  (taken, c.skip taken.length)

def skipWhile (p : Char → Bool) (c : Cursor) : Cursor := (c.takeWhile p).2

-- The meaning of the next character, which is passed if it has one.
def read? {α : Type} (c : Cursor) (meaning : Char → Option α) : Option α × Cursor :=
  match c.rest.head? >>= meaning with
  | some a => (some a, c.next)
  | none   => (none, c)

def sees (c : Cursor) (s : String) : Bool := s.toList.isPrefixOf c.rest

-- Whether a gap or the end follows after `n` characters.
def endsAt (c : Cursor) (n : Nat) : Bool := c.rest[n]?.all isGap

def seesWord (c : Cursor) (s : String) : Bool := c.sees s && c.endsAt s.length

-- A line of three dashes or dots starts or ends a document, wherever it stands.
def atBoundary (c : Cursor) : Bool :=
  c.column = 0 && (c.seesWord "---" || c.seesWord "...")

end Cursor
end ClusterMetadata.Yaml
