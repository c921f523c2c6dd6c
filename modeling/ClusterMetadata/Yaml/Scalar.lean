import ClusterMetadata.Text.Digits
import ClusterMetadata.Yaml.Cursor

/-!
The texts in a document: plain, in quotes, or as a block of lines. Between two words a line break
becomes a space, and each empty line one line break. The readers start at the first character of the
text and give it with the place where it ends.
-/

namespace ClusterMetadata.Yaml

inductive Style where
  | plain
  | quoted
  -- A block of lines that stay as they are.
  | literal
  -- A block of lines that become words.
  | folded
  deriving DecidableEq

-- What stands for the gap between two words.
def folded (gap : List Char) : List Char :=
  match gap.filter isBreak with
  | []             => gap
  | ['\n']         => [' ']
  | '\n' :: breaks => breaks
  | breaks         => breaks

/- Plain texts -/

def brackets : List Char := ['[', ']', '{', '}']

def endsPlain (inFlow : Bool) (c : Char) (cs : List Char) : Bool :=
  isGap c || (c = ':' && cs.head?.all isGap) || (inFlow && (c = ',' || brackets.contains c))

-- Inside brackets, a colon in a word must not touch what ends the word.
def isBadColon (inFlow : Bool) (c : Char) (cs : List Char) : Bool :=
  inFlow && c = ':' && cs.head?.any fun d => d = ',' || d = '?' || brackets.contains d

def plainWord (inFlow : Bool) : List Char → Option (List Char)
  | []      => some []
  | c :: cs =>
    if isBadColon inFlow c cs then none
    else if endsPlain inFlow c cs then some []
    else (c :: ·) <$> plainWord inFlow cs

-- Whether a tab stands before `column` in a line that starts in the gap.
def tabBefore (column : Nat) (gap : List Char) : Bool :=
  go 0 (gap.dropWhile (!isBreak ·))
where
  go (here : Nat) : List Char → Bool
    | []      => false
    | c :: cs => (c = '\t' && here < column) || go (if isBreak c then 0 else here + 1) cs

-- A plain text goes on in the next line as long as that is indented by `indent`. With the text
-- comes whether the gap after it, which is skipped, has a line break.
def readPlain (inFlow : Bool) (indent : Nat) (c : Cursor) : Option (List Char × Bool × Cursor) :=
  go (c.rest.length + 1) [] [] c
where
  go : Nat → List Char → List Char → Cursor → Option (List Char × Bool × Cursor)
    | 0,     _,    _,   _ => none
    | k + 1, text, gap, c =>
      if c.atBoundary ∨ c.rest.head? = some '#' then some (text, gap.any isBreak, c)
      else do
        let word ← plainWord inFlow c.rest
        if word.isEmpty then return (text, gap.any isBreak, c)
        let text := text ++ folded gap ++ word
        let c := c.skip word.length
        let (gap, next) := c.takeWhile isGap
        if gap.isEmpty then return (text, false, c)
        if tabBefore indent gap then none
        if !inFlow ∧ next.column < indent then return (text, gap.any isBreak, next)
        go k text gap next

/- Texts in quotes -/

def escaped? (c : Char) : Option Char :=
  match c with
  | '0'  => some '\x00'
  | 'a'  => some '\x07'
  | 'b'  => some '\x08'
  | 't'  => some '\t'
  | '\t' => some '\t'
  | 'n'  => some '\n'
  | 'v'  => some '\x0b'
  | 'f'  => some '\x0c'
  | 'r'  => some '\r'
  | 'e'  => some '\x1b'
  | ' '  => some ' '
  | '"'  => some '"'
  | '/'  => some '/'
  | '\\' => some '\\'
  | 'N'  => some '\u0085'
  | '_'  => some '\u00a0'
  | 'L'  => some '\u2028'
  | 'P'  => some '\u2029'
  | _    => none

-- How many hexadecimal digits follow.
def escapeLength? (c : Char) : Option Nat :=
  match c with
  | 'x' => some 2
  | 'u' => some 4
  | 'U' => some 8
  | _   => none

-- The character that is written behind a backslash, and the length of its writing.
def readEscape : List Char → Option (Char × Nat)
  | []      => none
  | c :: cs =>
    match escapeLength? c with
    | none   => (·, 1) <$> escaped? c
    | some n => do
      let digits := cs.take n
      let value ← Digits.read? 16 digits
      if digits.length = n ∧ value.isValidChar then return (Char.ofNat value, n + 1) else none

-- The cursor stands behind the opening mark. A single quote inside single quotes is written twice;
-- inside double quotes there are escapes, and an escaped line break joins two lines.
def readQuoted (mark : Char) (c : Cursor) : Option (List Char × Cursor) :=
  go (c.rest.length + 1) [] c
where
  -- What has been read, in reverse.
  go : Nat → List Char → Cursor → Option (List Char × Cursor)
    | 0,     _,    _ => none
    | k + 1, text, c =>
      let overGap (c : Cursor) (fold : List Char → List Char) :=
        let (gap, next) := c.takeWhile isGap
        if next.atBoundary then none else go k ((fold gap).reverse ++ text) next
      match c.rest with
      | []      => none
      | d :: ds =>
        if isGap d then overGap c folded
        else if d = mark then
          if mark = '\'' ∧ ds.head? = some mark then go k (mark :: text) (c.skip 2)
          else some (text.reverse, c.next)
        else if d = '\\' ∧ mark = '"' then
          if ds.head?.any isBreak then overGap (c.skip 2) (·.filter isBreak)
          else do
            let (e, n) ← readEscape ds
            go k (e :: text) (c.skip (n + 1))
        else go k (d :: text) c.next

/- Blocks of lines -/

inductive Chomping where
  | strip
  | clip
  | keep
  deriving DecidableEq

def Chomping.ofChar? (c : Char) : Option Chomping :=
  if c = '-' then some .strip else if c = '+' then some .keep else none

-- Behind the mark of a block stand, in either order, what becomes of its last line breaks and by
-- how much it is indented.
def readHeader (c : Cursor) : Option (Chomping × Option Nat × Cursor) :=
  let (front, c) := c.read? Chomping.ofChar?
  let (deep, c) := c.read? (Digits.value? 10)
  let (back, c) := if front.isSome then (none, c) else c.read? Chomping.ofChar?
  let c := c.skipWhile isBlank
  let c := if c.sees "#" then c.skipWhile (!isBreak ·) else c
  if deep = some 0 ∨ !c.rest.head?.all isBreak then none
  else some ((front.or back).getD .clip, deep, c.next)

-- The breaks of the empty lines at the cursor, and how far the spaces in them go. Where it is known
-- how far lines are indented, no more than that is skipped.
def readEmptyLines (indent : Option Nat) (c : Cursor) : Option (List Char × Nat × Cursor) :=
  go (c.rest.length + 1) [] 0 c
where
  go : Nat → List Char → Nat → Cursor → Option (List Char × Nat × Cursor)
    | 0,     _,      _,    _ => none
    | k + 1, breaks, deep, c =>
      let spaces := (c.rest.takeWhile (· = ' ')).length
      let c := c.skip (indent.elim spaces fun i => min spaces (i - c.column))
      let deep := max deep c.column
      match c.rest with
      | '\t' :: _ => if indent.all (c.column < ·) then none else some (breaks, deep, c)
      | d :: _    => if isBreak d then go k (breaks ++ [d]) deep c.next else some (breaks, deep, c)
      | []        => some (breaks, deep, c)

-- The cursor stands behind the mark; `parent` is how far the surroundings are indented. Where lines
-- are folded, lines that start with a blank stay as they are.
def readBlock (style : Style) (parent : Option Nat) (c : Cursor) :
    Option (List Char × Cursor) := do
  let (chomping, deep, c) ← readHeader c
  let given := deep.map (parent.getD 0 + ·)
  let (breaks, found, c) ← readEmptyLines given c
  let indent := given.getD (max found (max (parent.elim 0 (· + 1)) 1))
  let (text, last, breaks, c) ← go indent (c.rest.length + 1) [] [] breaks false c
  match chomping with
  | .strip => return (text, c)
  | .clip  => return (text ++ last, c)
  | .keep  => return (text ++ last ++ breaks, c)
where
  -- With the text come the break of its last line and those of the empty lines that follow it.
  go (indent : Nat) : Nat → List Char → List Char → List Char → Bool → Cursor →
      Option (List Char × List Char × List Char × Cursor)
    | 0,     _,    _,    _,      _,       _ => none
    | k + 1, text, last, breaks, blanked, c =>
      if c.column ≠ indent ∨ c.rest.isEmpty then some (text, last, breaks, c)
      else do
        let blank := c.rest.head?.any isBlank
        let between :=
          if style = .folded ∧ last = ['\n'] ∧ !blanked ∧ !blank then
            if breaks.isEmpty then [' '] else []
          else last
        let (line, next) := c.takeWhile (!isBreak ·)
        let text := text ++ between ++ breaks ++ line
        let last := next.rest.take 1
        let (breaks, _, next) ← readEmptyLines (some indent) next.next
        go indent k text last breaks blank next

end ClusterMetadata.Yaml
