import ClusterMetadata.Text.Utf8
import ClusterMetadata.Yaml.Scalar

/-!
The tree of a document, and the views a reader takes of it. A plain text becomes what its reader
asks for, and so does a literal block whose tag says what it is; where nothing is written, each view
is empty. A node that stands for another one is that node in each view.
-/

namespace ClusterMetadata.Yaml

inductive Node where
  | scalar (style : Style) (tag : Bytes) (text : String)
  | list (items : List Node)
  | record (fields : List (Node × Node))
  -- The node of this number stands here again, which may be one that this node is a part of.
  | repeated (number : Nat)

def Node.empty : Node := .scalar .plain [] ""

def standardTags : Bytes := Utf8.encode "tag:yaml.org,2002:"

def boolOfText? (s : String) : Option Bool :=
  if s = "true" ∨ s = "True" ∨ s = "TRUE" then some true
  else if s = "false" ∨ s = "False" ∨ s = "FALSE" then some false
  else none

-- A decimal number has no leading zero.
def natOfText? (s : String) : Option Nat :=
  match Digits.unsigned s.toList with
  | '0' :: 'x' :: cs => Digits.read? 16 cs
  | '0' :: 'o' :: cs => Digits.read? 8 cs
  | '0' :: 'b' :: cs => Digits.read? 2 cs
  | '0' :: _ :: _    => none
  | cs               => Digits.read? 10 cs

-- A node, among those that have a number.
structure Tree where
  root : Node
  numbered : List (Nat × Node)

namespace Tree

def part (t : Tree) (n : Node) : Tree := { t with root := n }

def node? (t : Tree) : Option Node :=
  match t.root with
  | .repeated number => t.numbered.lookup number
  | n                => some n

def text? (t : Tree) : Option String :=
  match t.node? with
  | some (.scalar _ _ s) => some s
  | _                    => none

-- The text of a value of the standard type of this name.
def valueText? (type : String) (t : Tree) : Option String :=
  match t.node? with
  | some (.scalar .plain _ s)     => some s
  | some (.scalar .literal tag s) =>
    if tag = standardTags ++ Utf8.encode type then some s else none
  | _ => none

def bool? (t : Tree) : Option Bool := t.valueText? "bool" >>= boolOfText?

-- A whole number of `width` bits.
def nat? (width : Nat) (t : Tree) : Option Nat := do
  let n ← t.valueText? "int" >>= natOfText?
  if n < 1 <<< width then return n else none

def items? (t : Tree) : Option (List Tree) :=
  match t.node? with
  | some (.list items)         => some (items.map t.part)
  | some (.scalar .plain _ "") => some []
  | _                          => none

-- The fields of a record that has no names but texts.
def record? (t : Tree) : Option (List (String × Tree)) :=
  match t.node? with
  | some (.record fields)      => fields.mapM fun (k, n) => (·, t.part n) <$> (t.part k).text?
  | some (.scalar .plain _ "") => some []
  | _                          => none

end Tree
end ClusterMetadata.Yaml
