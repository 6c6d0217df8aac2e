import Dissect.Text.Utf8

/-! UTF-16 code units: a high surrogate followed by a low one is one character, and a surrogate
that stands alone is replaced. -/
namespace Dissect.Text.Utf16

def isHigh (u : Nat) : Bool := 0xD800 ≤ u && u < 0xDC00

def isLow (u : Nat) : Bool := 0xDC00 ≤ u && u < 0xE000

def join (high low : Nat) : Char :=
  Char.ofNat (0x10000 + (high - 0xD800) * 0x400 + (low - 0xDC00))

def decodeLossy : List Nat → List Char
  | [] => []
  | [u] => [if isHigh u || isLow u then Utf8.replacement else Char.ofNat u]
  | u :: v :: rest =>
    if isHigh u && isLow v then join u v :: decodeLossy rest
    else if isHigh u || isLow u then Utf8.replacement :: decodeLossy (v :: rest)
    else Char.ofNat u :: decodeLossy (v :: rest)

/-- Code units of two octets each, the first octet the low one if `little`; an odd last octet is
left out. -/
def units (little : Bool) : List UInt8 → List Nat
  | a :: b :: rest =>
    (if little then b.toNat * 256 + a.toNat else a.toNat * 256 + b.toNat) :: units little rest
  | _ => []

end Dissect.Text.Utf16
