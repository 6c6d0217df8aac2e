import Dissect.Text.Numeral

/-! Bytes written as pairs of hexadecimal digits. Printing is upper case; reading takes either
case, wants at least one pair and lets blanks stand around the digits. -/
namespace Dissect.Text.Hex

def nibble (n : Nat) : Char :=
  if n < 10 then Char.ofNat ('0'.toNat + n) else Char.ofNat ('A'.toNat + (n - 10))

def encode : List UInt8 → List Char
  | [] => []
  | b :: bs => nibble (b.toNat / 16) :: nibble (b.toNat % 16) :: encode bs

def pairs? : List Char → Option (List UInt8)
  | [] => some []
  | [_] => none
  | hi :: lo :: rest => do
    let h ← digit? 16 hi
    let l ← digit? 16 lo
    let bs ← pairs? rest
    return UInt8.ofNat (16 * h + l) :: bs

def decode (cs : List Char) : Option (List UInt8) :=
  match trim cs with
  | [] => none
  | digits => pairs? digits

def text (bytes : List UInt8) : String := String.ofList (encode bytes)

def bytes? (s : String) : Option (List UInt8) := decode s.toList

end Dissect.Text.Hex
