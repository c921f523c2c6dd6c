import ClusterMetadata.SortedMap

/-!
Documents: trees of values as they are written down, and the views a reader takes of them. A
structure may be written as a record or as the list of its fields in their order.
-/

namespace ClusterMetadata

inductive Document where
  | null
  | bool (value : Bool)
  | int (value : Int)
  -- What nobody asks for, such as a number that is not whole.
  | other
  | text (value : String)
  | list (items : List Document)
  | record (fields : List (String × Document))

namespace Document

def asText : Document → Option String
  | text s => some s
  | _      => none

def asBool : Document → Option Bool
  | bool b => some b
  | _      => none

def asInt : Document → Option Int
  | int n => some n
  | _     => none

-- A whole number of `width` bits.
def asNat (width : Nat) (d : Document) : Option Nat := do
  let n ← d.asInt
  if 0 ≤ n ∧ n < (1 <<< width : Nat) then return n.toNat else none

-- A whole number of `width` bits, one of them the sign.
def asSigned (width : Nat) (d : Document) : Option Int := do
  let n ← d.asInt
  let limit : Nat := 1 <<< (width - 1)
  if -limit ≤ n ∧ n < limit then return n else none

def asList {α : Type} (read : Document → Option α) : Document → Option (List α)
  | list items => items.mapM read
  | _          => none

def asMap {α : Type} (read : Document → Option α) : Document → Option (SortedMap String α)
  | record fields => do
    return .ofList (← fields.mapM fun (name, d) => do return (name, ← read d))
  | _             => none

-- The value of the field of this name, which must not come twice.
def field? {α : Type} (fields : List (String × α)) (name : String) : Option (Option α) :=
  match fields.filter (·.1 = name) with
  | []       => some none
  | [(_, a)] => some (some a)
  | _        => none

-- The values of the fields of a structure. Fields of other names do not matter.
def fields? (names : List String) : Document → Option (List (Option Document))
  | record fields => names.mapM (field? fields)
  | list items    =>
    if items.length ≤ names.length then
      some (items.map some ++ List.replicate (names.length - items.length) none)
    else none
  | _             => none

end Document
end ClusterMetadata
