/-! Byte strings as numbers. A byte order says which end of a string is the most significant; the
number of a string is read from at most its eight most significant bytes. -/
namespace Dissect

inductive ByteOrder where
  | big
  | little
  deriving DecidableEq, Repr

def ByteOrder.msbFirst : ByteOrder → List UInt8 → List UInt8
  | .big, bytes => bytes
  | .little, bytes => bytes.reverse

namespace Bytes

/-- The number whose digits in base 256 are the given bytes. -/
def number (bytes : List UInt8) : Nat :=
  bytes.foldl (fun n b => n * 256 + b.toNat) 0

def word (order : ByteOrder) (bytes : List UInt8) : UInt64 :=
  UInt64.ofNat (number ((order.msbFirst bytes).take 8))

/-- The number of a string of at most eight bytes, most significant first. -/
def word? (bytes : List UInt8) : Option UInt64 :=
  if bytes.length ≤ 8 then some (UInt64.ofNat (number bytes)) else none

def signExtend (value : UInt64) (n : Nat) : Int64 :=
  if n = 0 then 0
  else if 8 ≤ n then value.toInt64
  else Int64.ofInt ((value.toNat : Int).bmod (1 <<< (8 * n)))

end Bytes

end Dissect
