/-! Labelled spans of a buffer, and how spans that overlap or leave holes are made into a
partition. -/
namespace Dissect

structure TaggedRange where
  start : Nat
  length : Nat
  color : Nat
  background : Bool
  label : String
  navLabel : Option String
  /-- Second place in the palette. -/
  accent : Option Nat
  deriving DecidableEq, Repr

namespace TaggedRange

def stop (r : TaggedRange) : Nat := r.start + r.length

/-- Goes through ranges by their starts, when everything below `covered` has its range. What of a
range is covered already, or not below `len`, is cut off; holes get a range from `filler`. -/
def sweep (filler : Nat → Nat → TaggedRange) (len : Nat) : Nat → List TaggedRange → List TaggedRange
  | covered, [] => if covered < len then [filler covered (len - covered)] else []
  | covered, r :: rest =>
    let stop := min r.stop len
    if r.length = 0 ∨ len ≤ r.start ∨ stop ≤ covered then sweep filler len covered rest
    else if covered < r.start then
      filler covered (r.start - covered) :: { r with length := stop - r.start } ::
        sweep filler len stop rest
    else { r with start := covered, length := stop - covered } :: sweep filler len stop rest

/-- A partition of the first `len` bytes. Where ranges overlap, the one that starts first wins,
and of those that start together the first in the list. -/
def fillGaps (filler : Nat → Nat → TaggedRange) (len : Nat) (ranges : List TaggedRange) :
    List TaggedRange :=
  sweep filler len 0 (ranges.mergeSort fun a b => a.start ≤ b.start)

end TaggedRange

end Dissect
