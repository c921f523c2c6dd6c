import ClusterMetadata.Yaml.Layout
import ClusterMetadata.Yaml.Node

/-!
From tokens to the tree of a document. A node may be left out where something else shows its place;
it is an empty text then. A file holds at most one document.
-/

namespace ClusterMetadata.Yaml

structure Reading where
  tokens : List Token
  -- What the handles of tags stand for.
  handles : List (String × Bytes)
  -- The names that nodes have had so far, each with the number it gave last.
  names : List (String × Nat)
  -- The nodes that have a number, in the order in which they start. Of two with one number the
  -- later one counts.
  numbered : Array (Nat × Node)

abbrev ReadM := StateT Reading Option

namespace ReadM

def peek : ReadM (Option Token) := return (← get).tokens.head?

def skip : ReadM Unit := modify fun r => { r with tokens := r.tokens.tail }

-- Goes over the token if it comes next.
def accept (t : Token) : ReadM Bool := do
  if (← peek) = some t then
    skip
    return true
  else return false

def expect (t : Token) : ReadM Unit := do
  if !(← accept t) then failure

-- Whether one of the tokens, or the end, comes next.
def endsBefore (ts : List Token) : ReadM Bool := return (← peek).all (ts.contains ·)

end ReadM

open ReadM

def readAnchorName : ReadM (Option String) := do
  match ← peek with
  | some (.anchor name) => skip; return some name
  | _                   => return none

def readTagged : ReadM (Option Bytes) := do
  match ← peek with
  | some (.tag "" rest)     => skip; return some rest
  | some (.tag handle rest) =>
    let front ← (← get).handles.lookup handle
    skip
    return some (front ++ rest)
  | _                       => return none

-- The name and the tag of a node, in either order.
def readProperties : ReadM (Option String × Option Bytes) := do
  match ← readAnchorName with
  | some name => return (some name, ← readTagged)
  | none      =>
    match ← readTagged with
    | some tag => return (← readAnchorName, some tag)
    | none     => return (none, none)

-- The number of a node is how many names there are when it starts. So two nodes get the same one if
-- the first has a new name and the second a name that is known.
def readNumbered (name : String) (read : ReadM Node) : ReadM Node := do
  let r ← get
  let number := r.names.length
  set { r with
    names := (name, number) :: r.names.filter (·.1 ≠ name)
    numbered := r.numbered.push (number, .empty) }
  let n ← read
  modify fun s => { s with numbered := s.numbered.setIfInBounds r.numbered.size (number, n) }
  return n

-- What a node is read for: inside brackets, in a block, or in a block in the place of a key or its
-- value, where a list need not be indented.
inductive Place where
  | flow
  | block
  | field
  deriving DecidableEq

mutual

def readNode (k : Nat) (place : Place) : ReadM Node := do
  match k with
  | 0     => failure
  | k + 1 =>
    if let some (.repeated name) ← peek then
      skip
      return .repeated (← (← get).names.lookup name)
    let (name, tag) ← readProperties
    match name with
    | some name => readNumbered name (readContent k place true tag)
    | none      => readContent k place tag.isSome tag

-- What stands behind the name and the tag of a node; if it has one of them, there may be nothing.
def readContent (k : Nat) (place : Place) (marked : Bool) (tag : Option Bytes) : ReadM Node := do
  match k with
  | 0     => failure
  | k + 1 =>
    match place, ← peek with
    | _,      some (.scalar style s) => do skip; return .scalar style (tag.getD []) s
    | _,      some .flowList         => do skip; Node.list <$> readFlowList k true
    | _,      some .flowRecord       => do skip; Node.record <$> readFlowRecord k true
    | .field, some .item             => Node.list <$> readItems k false
    | .field, some .blockList        => do skip; Node.list <$> readItems k true
    | .block, some .blockList        => do skip; Node.list <$> readItems k true
    | .field, some .blockRecord      => do skip; Node.record <$> readBlockRecord k
    | .block, some .blockRecord      => do skip; Node.record <$> readBlockRecord k
    | _,      _                      => if marked then return .empty else failure

-- A node, or nothing where one of the tokens comes next.
def readOptional (k : Nat) (place : Place) (ends : List Token) : ReadM Node := do
  match k with
  | 0     => failure
  | k + 1 => if ← endsBefore ends then return .empty else readNode k place

def readItems (k : Nat) (indented : Bool) : ReadM (List Node) := do
  match k with
  | 0     => failure
  | k + 1 =>
    if ← accept .item then
      let ends := [.item, .blockEnd] ++ if indented then [] else [.key, .value]
      let n ← readOptional k .block ends
      return n :: (← readItems k indented)
    else
      if indented then expect .blockEnd
      return []

def readBlockRecord (k : Nat) : ReadM (List (Node × Node)) := do
  match k with
  | 0     => failure
  | k + 1 =>
    if ← accept .blockEnd then return []
    let ends := [.key, .value, .blockEnd]
    expect .key
    let key ← readOptional k .field ends
    let value ← if ← accept .value then readOptional k .field ends else pure .empty
    return (key, value) :: (← readBlockRecord k)

-- A key with its value may stand as an item; it is a record of its own. A key that is left out
-- there takes the place of what follows it.
def readFlowList (k : Nat) (first : Bool) : ReadM (List Node) := do
  match k with
  | 0     => failure
  | k + 1 =>
    if ← accept .flowListEnd then return []
    if !first then
      expect .comma
      if ← accept .flowListEnd then return []
    let n ← if ← accept .key then do
        let left ← endsBefore [.value, .comma, .flowListEnd]
        let key ← if left then do skip; pure .empty else readNode k .flow
        let value ← if ← accept .value then readOptional k .flow [.comma, .flowListEnd]
          else pure .empty
        pure (.record [(key, value)])
      else readNode k .flow
    return n :: (← readFlowList k false)

def readFlowRecord (k : Nat) (first : Bool) : ReadM (List (Node × Node)) := do
  match k with
  | 0     => failure
  | k + 1 =>
    if ← accept .flowRecordEnd then return []
    if !first then
      expect .comma
      if ← accept .flowRecordEnd then return []
    let keyed ← accept .key
    let key ← if keyed then readOptional k .flow [.value, .comma, .flowRecordEnd]
      else readNode k .flow
    let value ← if keyed then
        if ← accept .value then readOptional k .flow [.comma, .flowRecordEnd] else pure .empty
      else pure .empty
    return (key, value) :: (← readFlowRecord k false)

end

-- A version is declared once, and so is a handle; there are two handles that need no declaration.
def readDirectives (k : Nat) (versioned : Bool) : ReadM Unit := do
  match k, ← peek with
  | k + 1, some (.version major minor) =>
    if versioned ∨ major ≠ 1 ∨ (minor ≠ 1 ∧ minor ≠ 2) then failure
    skip
    readDirectives k true
  | k + 1, some (.declaredHandle handle front) =>
    if ((← get).handles.lookup handle).isSome then failure
    modify fun r => { r with handles := (handle, front) :: r.handles }
    skip
    readDirectives k versioned
  | _,     _ => return

def isDirective : Token → Bool
  | .version ..        => true
  | .declaredHandle .. => true
  | _                  => false

def standardHandles : List (String × Bytes) := [("!", Utf8.encode "!"), ("!!", standardTags)]

def readDocument (k : Nat) : ReadM Node := do
  if (← peek).isNone then return .empty
  let explicit := (← peek).any fun t => isDirective t || t = .documentStart
  if explicit then
    readDirectives k false
    expect .documentStart
  modify fun r => { r with handles := r.handles ++ standardHandles }
  let ends (t : Token) := isDirective t || t = .documentStart || t = .documentEnd
  if explicit ∧ (← peek).all ends then return .empty else readNode k .block

def tree? (s : String) : Option Tree := do
  let tokens ← tokens? s
  let (root, r) ← (readDocument (4 * tokens.length + 4)).run ⟨tokens, [], [], #[]⟩
  if r.tokens.all (· = .documentEnd) then return ⟨root, r.numbered.toList.reverse⟩ else none

end ClusterMetadata.Yaml
