/-! UTF-8 read one octet at a time. Between characters any octet may come; inside one, the octet
must lie in a window that rules out overlong forms, surrogates and values above the last code
point. Octets that cannot be continued come out as `none`, one for each longest part that began a
character. -/
namespace Dissect.Text.Utf8

/-- A character begun: the bits so far, the octets still owed, and the window of the next one. -/
structure Begun where
  bits : Nat
  owed : Nat
  low : Nat
  high : Nat

inductive Lead where
  | whole (c : Char)
  | begun (b : Begun)
  | refused

def lead (octet : UInt8) : Lead :=
  let n := octet.toNat
  if n ≤ 0x7F then .whole (Char.ofNat n)
  else if n < 0xC2 then .refused
  else if n ≤ 0xDF then .begun ⟨n - 0xC0, 1, 0x80, 0xBF⟩
  else if n = 0xE0 then .begun ⟨0, 2, 0xA0, 0xBF⟩
  else if n = 0xED then .begun ⟨0xD, 2, 0x80, 0x9F⟩
  else if n ≤ 0xEF then .begun ⟨n - 0xE0, 2, 0x80, 0xBF⟩
  else if n = 0xF0 then .begun ⟨0, 3, 0x90, 0xBF⟩
  else if n ≤ 0xF3 then .begun ⟨n - 0xF0, 3, 0x80, 0xBF⟩
  else if n = 0xF4 then .begun ⟨4, 3, 0x80, 0x8F⟩
  else .refused

def Begun.extend (b : Begun) (octet : UInt8) : Nat := b.bits * 64 + octet.toNat % 64

def decodeFrom : Option Begun → List UInt8 → List (Option Char)
  | none, [] => []
  | some _, [] => [none]
  | none, o :: rest =>
    match lead o with
    | .whole c => some c :: decodeFrom none rest
    | .begun b => decodeFrom (some b) rest
    | .refused => none :: decodeFrom none rest
  | some b, o :: rest =>
    if b.low ≤ o.toNat ∧ o.toNat ≤ b.high then
      if b.owed ≤ 1 then some (Char.ofNat (b.extend o)) :: decodeFrom none rest
      else decodeFrom (some ⟨b.extend o, b.owed - 1, 0x80, 0xBF⟩) rest
    else
      none :: match lead o with
      | .whole c => some c :: decodeFrom none rest
      | .begun b => decodeFrom (some b) rest
      | .refused => none :: decodeFrom none rest

def replacement : Char := Char.ofNat 0xFFFD

/-- Every octet sequence read as text, with a replacement character for each bad part. -/
def decodeLossy (octets : List UInt8) : List Char :=
  (decodeFrom none octets).map (·.getD replacement)

def decode? (octets : List UInt8) : Option (List Char) :=
  (decodeFrom none octets).mapM id

end Dissect.Text.Utf8
