import ClusterMetadata.Cell
import ClusterMetadata.Text.Hex

/-!
Maps of texts as one line of JSON: an object whose members are strings. Writing gives the members in
the order of their names, without blanks; reading takes any layout, and the last of several members
of one name.
-/

namespace ClusterMetadata.OptionMap

-- Characters that may not stand for themselves in a string.
def escape (c : Char) : List Char :=
  if c = '"' then ['\\', '"']
  else if c = '\\' then ['\\', '\\']
  else if c = '\n' then ['\\', 'n']
  else if c = '\r' then ['\\', 'r']
  else if c = '\t' then ['\\', 't']
  else if c = '\x08' then ['\\', 'b']
  else if c = '\x0c' then ['\\', 'f']
  else if c.toNat < 0x20 then ['\\', 'u', '0', '0'] ++ Hex.ofByte (UInt8.ofNat c.toNat)
  else [c]

def renderString (s : String) : List Char :=
  '"' :: s.toList.flatMap escape ++ ['"']

def renderMember (m : String × String) : List Char :=
  renderString m.1 ++ ':' :: renderString m.2

def render (options : SortedMap String String) : String :=
  .ofList ('\x7b' :: [','].intercalate (options.toList.map renderMember) ++ ['\x7d'])

def isBlank (c : Char) : Bool := c = ' ' || c = '\n' || c = '\r' || c = '\t'

def skipBlanks (cs : List Char) : List Char := cs.dropWhile isBlank

-- The four digits after `\u`.
def readUnit : List Char → Option (Nat × List Char)
  | a :: b :: c :: d :: cs => do
    let a ← Hex.value? a
    let b ← Hex.value? b
    let c ← Hex.value? c
    let d ← Hex.value? d
    return (((a * 16 + b) * 16 + c) * 16 + d, cs)
  | _ => none

def isHighSurrogate (n : Nat) : Bool := 0xD800 ≤ n && n < 0xDC00

def isLowSurrogate (n : Nat) : Bool := 0xDC00 ≤ n && n < 0xE000

-- The character after `\u`, which takes two units when it lies past U+FFFF.
def readUnicode (cs : List Char) : Option (Char × List Char) := do
  let (first, rest) ← readUnit cs
  if isHighSurrogate first then
    match rest with
    | '\\' :: 'u' :: rest => do
      let (second, rest) ← readUnit rest
      if isLowSurrogate second then
        return (Char.ofNat (0x10000 + (first - 0xD800) * 0x400 + (second - 0xDC00)), rest)
      else none
    | _ => none
  else if isLowSurrogate first then none
  else return (Char.ofNat first, rest)

def readEscape : List Char → Option (Char × List Char)
  | '"' :: cs  => some ('"', cs)
  | '\\' :: cs => some ('\\', cs)
  | '/' :: cs  => some ('/', cs)
  | 'b' :: cs  => some ('\x08', cs)
  | 'f' :: cs  => some ('\x0c', cs)
  | 'n' :: cs  => some ('\n', cs)
  | 'r' :: cs  => some ('\r', cs)
  | 't' :: cs  => some ('\t', cs)
  | 'u' :: cs  => readUnicode cs
  | _          => none

-- The rest of a string behind its opening quote. Each character takes at least one off `fuel`.
def readString : Nat → List Char → Option (List Char × List Char)
  | _,        []         => none
  | _,        '"' :: cs  => some ([], cs)
  | 0,        _          => none
  | fuel + 1, '\\' :: cs => do
    let (c, cs) ← readEscape cs
    let (s, cs) ← readString fuel cs
    return (c :: s, cs)
  | fuel + 1, c :: cs    =>
    if c.toNat < 0x20 then none
    else do
      let (s, cs) ← readString fuel cs
      return (c :: s, cs)

def expect (c : Char) (cs : List Char) : Option (List Char) :=
  match skipBlanks cs with
  | d :: cs => if c = d then some cs else none
  | []      => none

def readQuoted (cs : List Char) : Option (String × List Char) := do
  let cs ← expect '"' cs
  let (s, cs) ← readString cs.length cs
  return (.ofList s, cs)

-- The members from the current one to the closing brace.
def readMembers : Nat → List Char → Option (List (String × String) × List Char)
  | 0,        _  => none
  | fuel + 1, cs => do
    let (name, cs) ← readQuoted cs
    let (value, cs) ← readQuoted (← expect ':' cs)
    match skipBlanks cs with
    | '\x7d' :: cs => return ([(name, value)], cs)
    | ',' :: cs    => do
      let (members, cs) ← readMembers fuel cs
      return ((name, value) :: members, cs)
    | _            => none

def readObject (cs : List Char) : Option (List (String × String) × List Char) := do
  let cs ← expect '\x7b' cs
  match skipBlanks cs with
  | '\x7d' :: rest => return ([], rest)
  | _              => readMembers cs.length cs

def parse? (s : String) : Option (SortedMap String String) := do
  let (members, rest) ← readObject s.toList
  if (skipBlanks rest).isEmpty then return .ofList members else none

end ClusterMetadata.OptionMap
