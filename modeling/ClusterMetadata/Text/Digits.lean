/-!
Numbers from their digits in bases up to 36. Both cases of a letter are the same digit.
-/

namespace ClusterMetadata.Digits

def value? (base : Nat) (c : Char) : Option Nat :=
  let value :=
    if '0' ≤ c ∧ c ≤ '9' then c.toNat - '0'.toNat
    else if 'a' ≤ c ∧ c ≤ 'z' then c.toNat - 'a'.toNat + 10
    else if 'A' ≤ c ∧ c ≤ 'Z' then c.toNat - 'A'.toNat + 10
    else base
  if value < base then some value else none

-- There is at least one digit, and nothing else.
def read? (base : Nat) (cs : List Char) : Option Nat :=
  if cs.isEmpty then none
  else cs.foldlM (fun n c => do return n * base + (← value? base c)) 0

-- A number without a sign may have a plus.
def unsigned : List Char → List Char
  | '+' :: cs => cs
  | cs        => cs

end ClusterMetadata.Digits
