import Dissect.Number.Variable

/-! The variables of one run, in numbered slots that are empty until they are first written. -/
namespace Dissect

inductive ArithOp where
  | set
  | mod
  | add
  | sub
  | mul
  | div
  deriving DecidableEq, Repr

def ArithOp.ofName? : String → Option ArithOp
  | "set" => some .set
  | "mod" => some .mod
  | "add" => some .add
  | "sub" => some .sub
  | "mul" => some .mul
  | "div" => some .div
  | _ => none

namespace ArithOp

/-- On signed words all but `div` wrap, and the remainder by zero is zero. -/
def onSigned : ArithOp → Int64 → Int64 → Int64
  | .set, _, r => r
  | .mod, l, r => if r = 0 then 0 else l % r
  | .add, l, r => l + r
  | .sub, l, r => l - r
  | .mul, l, r => l * r
  | .div, _, _ => 0

/-- As on signed words, except that a difference stops at zero. -/
def onUnsigned : ArithOp → UInt64 → UInt64 → UInt64
  | .set, _, r => r
  | .mod, l, r => if r = 0 then 0 else l % r
  | .add, l, r => l + r
  | .sub, l, r => if l ≤ r then 0 else l - r
  | .mul, l, r => l * r
  | .div, _, _ => 0

/-- What `op` leaves in a variable of width `width` that held `current`. Division is exact and
reads its left side as a 64-bit word; every other operation works on words of the width that the
variable had, and its result wraps to the width it gets. -/
def apply (op : ArithOp) (signed : Bool) (current : Option Variable) (rhs : Value)
    (width : Width) : Value :=
  match op, rhs with
  | .set, .rational r => .rational r
  | .div, _ =>
    let lhs := (current.map Variable.integer).getD 0
    if signed then
      .rational (Ratio.quotient (Int64.ofInt lhs).toInt (Int64.ofInt rhs.toInt).toInt)
    else
      .rational (Ratio.quotient (UInt64.ofInt lhs).toNat (UInt64.ofInt rhs.toInt).toNat)
  | _, _ =>
    if signed then
      let lhs := (current.map Variable.asSigned).getD 0
      .signed (width.wrapSigned (op.onSigned lhs (Int64.ofInt rhs.toInt)))
    else
      let lhs := (current.map Variable.asUnsigned).getD 0
      .unsigned (width.wrapUnsigned (op.onUnsigned lhs (UInt64.ofInt rhs.toInt)))

end ArithOp

structure Store where
  slots : List (Option Variable)
  deriving DecidableEq, Repr

namespace Store

def empty (count : Nat) : Store := ⟨List.replicate count none⟩

def get? (s : Store) (id : Nat) : Option Variable := (s.slots[id]?).join

def isDefined (s : Store) (id : Nat) : Bool := (s.get? id).isSome

def put (v : Variable) : Nat → List (Option Variable) → List (Option Variable)
  | 0, [] => [some v]
  | 0, _ :: slots => some v :: slots
  | id + 1, [] => none :: put v id []
  | id + 1, slot :: slots => slot :: put v id slots

def set (s : Store) (id : Nat) (v : Variable) : Store := ⟨put v id s.slots⟩

def integer? (s : Store) (id : Nat) : Option Int := (s.get? id).map Variable.integer

def definedCount (s : Store) : Nat := s.slots.countP Option.isSome

/-- Carries `op` out on a variable. A missing operand is zero; the width stays unless `width`
gives another, and an undefined variable starts as eight bytes of zero. -/
def apply (s : Store) (id : Nat) (op : ArithOp) (signed : Bool) (operand : Option Value)
    (width : Option Width) : Store :=
  let current := s.get? id
  let target := width.getD ((current.map Variable.width).getD .qword)
  s.set id ⟨target, op.apply signed current (operand.getD (.unsigned 0)) target, []⟩

end Store

end Dissect
