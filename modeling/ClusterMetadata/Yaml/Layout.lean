import ClusterMetadata.Yaml.Token

/-!
From text to tokens. A line that is indented deeper than its surroundings and starts an item or a
key opens a block, and a line that is indented less ends the blocks that are deeper. A node turns
out to be a key when a colon follows it in the same line.
-/

namespace ClusterMetadata.Yaml

-- A place where a key may have started.
structure Candidate where
  line : Nat
  column : Nat
  offset : Nat
  -- How many tokens stood before it.
  before : Nat
  -- At the indentation of its block nothing but a key may start.
  required : Bool

@[ext]
structure Layout where
  cursor : Cursor
  tokens : Array Token
  -- How far the open blocks are indented, the deepest first.
  indents : List Nat
  keyAllowed : Bool
  candidate : Option Candidate
  -- The candidates around each open bracket, the innermost first.
  outer : List (Option Candidate)

namespace Layout

def start (cs : List Char) : Layout where
  cursor := .start cs
  tokens := #[]
  indents := []
  keyAllowed := true
  candidate := none
  outer := []

def inFlow (s : Layout) : Bool := !s.outer.isEmpty

def indent (s : Layout) : Option Nat := s.indents.head?

def push (s : Layout) (t : Token) : Layout := { s with tokens := s.tokens.push t }

def move (s : Layout) (n : Nat) : Layout := { s with cursor := s.cursor.skip n }

-- A key has its colon in the same line, and not too far away.
def expired (c : Cursor) (k : Candidate) : Bool :=
  k.line < c.line || k.offset + 1024 < c.offset

def expire (s : Layout) : Option Layout := do
  let check (k : Option Candidate) : Option (Option Candidate) :=
    match k with
    | none   => some none
    | some k =>
      if !expired s.cursor k then some (some k) else if k.required then none else some none
  return { s with candidate := ← check s.candidate, outer := ← s.outer.mapM check }

def dropCandidate (s : Layout) : Option Layout :=
  if s.candidate.any (·.required) then none else some { s with candidate := none }

def saveCandidate (s : Layout) : Option Layout := do
  if !s.keyAllowed then return s
  let s ← s.dropCandidate
  return { s with candidate := some {
    line := s.cursor.line
    column := s.cursor.column
    offset := s.cursor.offset
    before := s.tokens.size
    required := !s.inFlow && s.indent = some s.cursor.column } }

-- Ends the blocks that are indented more than `column`; without a column, all of them.
def closeBlocks (s : Layout) (column : Option Nat) : Layout :=
  if s.inFlow then s
  else
    let ended := s.indents.takeWhile fun i => column.all (· < i)
    { s with
      indents := s.indents.drop ended.length
      tokens := ended.foldl (fun ts _ => ts.push .blockEnd) s.tokens }

-- Opens a block before the `i`th token unless one of this indentation is open.
def openBlock (s : Layout) (column i : Nat) (t : Token) : Layout :=
  if s.inFlow ∨ !s.indent.all (· < column) then s
  else { s with indents := column :: s.indents, tokens := s.tokens.insertIdxIfInBounds i t }

-- Blanks, comments and line breaks. A tab separates only where no key can start. An encoding mark
-- at the front of a line takes a column, as a blank does.
def separate (s : Layout) : Layout :=
  go (s.cursor.rest.length + 1) s
where
  go : Nat → Layout → Layout
    | 0,     s => s
    | k + 1, s =>
      let tabs := s.inFlow || !s.keyAllowed
      let c := s.cursor
      let c := if c.column = 0 ∧ c.rest.head?.any isEncodingMark then c.next else c
      let c := c.skipWhile fun d => d = ' ' || (tabs && d = '\t')
      let c := if c.sees "#" then c.skipWhile (!isBreak ·) else c
      if c.rest.head?.any isBreak then
        go k { s with cursor := c.next, keyAllowed := s.keyAllowed || !s.inFlow }
      else { s with cursor := c }

def boundary (s : Layout) (t : Token) : Option Layout := do
  let s ← (s.closeBlocks none).dropCandidate
  return { (s.push t).move 3 with keyAllowed := false }

def directive (s : Layout) : Option Layout := do
  let s ← (s.closeBlocks none).dropCandidate
  let (t, cursor) ← readDirective s.cursor.next
  return { s.push t with cursor, keyAllowed := false }

def openBracket (s : Layout) (t : Token) : Option Layout := do
  let s ← s.saveCandidate
  return { (s.push t).move 1 with
    keyAllowed := true, candidate := none, outer := s.candidate :: s.outer }

def closeBracket (s : Layout) (t : Token) : Option Layout := do
  let s ← s.dropCandidate
  return { (s.push t).move 1 with
    keyAllowed := false
    candidate := s.outer.head?.getD none
    outer := s.outer.tail }

def comma (s : Layout) : Option Layout := do
  let s ← s.dropCandidate
  return { (s.push .comma).move 1 with keyAllowed := true }

def item (s : Layout) : Option Layout := do
  if !s.inFlow ∧ !s.keyAllowed then none
  let s ← (s.openBlock s.cursor.column s.tokens.size .blockList).dropCandidate
  return { (s.push .item).move 1 with keyAllowed := true }

def key (s : Layout) : Option Layout := do
  if !s.inFlow ∧ !s.keyAllowed then none
  let s ← (s.openBlock s.cursor.column s.tokens.size .blockRecord).dropCandidate
  return { (s.push .key).move 1 with keyAllowed := !s.inFlow }

-- The colon behind a candidate makes it a key.
def value (s : Layout) : Option Layout :=
  match s.candidate with
  | some k =>
    let s := { s with tokens := s.tokens.insertIdxIfInBounds k.before .key, candidate := none }
    let s := s.openBlock k.column k.before .blockRecord
    some { (s.push .value).move 1 with keyAllowed := false }
  | none   =>
    if !s.inFlow ∧ !s.keyAllowed then none
    else
      let s := s.openBlock s.cursor.column s.tokens.size .blockRecord
      some { (s.push .value).move 1 with keyAllowed := !s.inFlow }

-- Something that may be a key, or stand at the front of one.
def word (s : Layout) (read : Cursor → Option (Token × Cursor)) : Option Layout := do
  let s ← s.saveCandidate
  let (t, cursor) ← read s.cursor
  return { s.push t with cursor, keyAllowed := false }

def block (s : Layout) (style : Style) : Option Layout := do
  let s ← s.dropCandidate
  let (text, cursor) ← readBlock style s.indent s.cursor.next
  return { s.push (.scalar style (.ofList text)) with cursor, keyAllowed := true }

def plain (s : Layout) : Option Layout := do
  let s ← s.saveCandidate
  let (text, broken, cursor) ← readPlain s.inFlow (s.indent.elim 0 (· + 1)) s.cursor
  return { s.push (.scalar .plain (.ofList text)) with cursor, keyAllowed := broken }

def quoted (mark : Char) (c : Cursor) : Option (Token × Cursor) :=
  (fun (text, c) => (.scalar .quoted (.ofList text), c)) <$> readQuoted mark c.next

-- A plain text starts with no mark; a dash, a question mark or a colon must touch what follows.
def startsPlain (s : Layout) (c : Char) : Bool :=
  if c = '-' then !s.cursor.rest[1]?.any isBlank
  else if c = '?' ∨ c = ':' then !s.inFlow && !s.cursor.endsAt 1
  else !",[]\x7b\x7d#&*!|>'\"%@`".contains c && !isGap c

def token (s : Layout) : Option Layout :=
  let c := s.cursor
  let mark (d : Char) := c.rest.head? = some d
  if c.column = 0 ∧ mark '%' then s.directive
  else if c.column = 0 ∧ c.seesWord "---" then s.boundary .documentStart
  else if c.column = 0 ∧ c.seesWord "..." then s.boundary .documentEnd
  else if mark '[' then s.openBracket .flowList
  else if mark '\x7b' then s.openBracket .flowRecord
  else if mark ']' then s.closeBracket .flowListEnd
  else if mark '\x7d' then s.closeBracket .flowRecordEnd
  else if mark ',' then s.comma
  else if c.seesWord "-" then s.item
  else if mark '?' ∧ (s.inFlow ∨ c.endsAt 1) then s.key
  else if mark ':' ∧ (s.inFlow ∨ c.endsAt 1) then s.value
  else if mark '*' then
    s.word fun c => (fun (name, c) => (.repeated name, c)) <$> readAnchor c.next
  else if mark '&' then
    s.word fun c => (fun (name, c) => (.anchor name, c)) <$> readAnchor c.next
  else if mark '!' then
    s.word (readTag s.inFlow)
  else if mark '|' ∧ !s.inFlow then s.block .literal
  else if mark '>' ∧ !s.inFlow then s.block .folded
  else if mark '\'' then s.word (quoted '\'')
  else if mark '"' then s.word (quoted '"')
  else if c.rest.head?.any s.startsPlain then s.plain
  else none

def run : Nat → Layout → Option Layout
  | 0,     _ => none
  | k + 1, s => do
    let s ← s.separate.expire
    let s := s.closeBlocks (some s.cursor.column)
    if s.cursor.rest.isEmpty then (s.closeBlocks none).dropCandidate else run k (← s.token)

end Layout

def tokens? (s : String) : Option (List Token) := do
  if !s.toList.all isPrintable then none
  let cs := joinBreaks s.toList
  return (← (Layout.start cs).run (cs.length + 1)).tokens.toList

end ClusterMetadata.Yaml
