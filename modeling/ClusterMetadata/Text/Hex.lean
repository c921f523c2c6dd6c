import ClusterMetadata.Text.Digits
import ClusterMetadata.Text.Utf8

/-!
Hexadecimal digits. Both cases are read, lower case is written.
-/

namespace ClusterMetadata.Hex

def digit (n : Nat) : Char :=
  if n < 10 then Char.ofNat ('0'.toNat + n) else Char.ofNat ('a'.toNat + n - 10)

def value? (c : Char) : Option Nat := Digits.value? 16 c

def ofByte (b : UInt8) : List Char :=
  [digit (b.toNat / 16), digit (b.toNat % 16)]

def ofBytes (b : Bytes) : List Char :=
  b.flatMap ofByte

def toBytes? : List Char → Option Bytes
  | []             => some []
  | hi :: lo :: cs => do
    let hi ← value? hi
    let lo ← value? lo
    return UInt8.ofNat (hi * 16 + lo) :: (← toBytes? cs)
  | [_]            => none

end ClusterMetadata.Hex
