/-! Exact quotients of integers, kept reduced with a positive denominator. The quotient by zero
counts as zero. -/
namespace Dissect

structure Ratio where
  num : Int
  den : Nat
  deriving DecidableEq, Repr

namespace Ratio

def zero : Ratio := ⟨0, 1⟩

def quotient (num den : Int) : Ratio :=
  if den = 0 ∨ num = 0 then zero
  else
    let g := Nat.gcd num.natAbs den.natAbs
    ⟨num.sign * den.sign * (num.natAbs / g : Nat), den.natAbs / g⟩

def truncate (r : Ratio) : Int := r.num.tdiv r.den

def isInteger (r : Ratio) : Bool := r.den == 1

def text (r : Ratio) : String :=
  if r.isInteger then toString r.num else toString r.num ++ "/" ++ toString r.den

end Ratio

end Dissect
