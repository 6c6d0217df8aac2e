import Dissect.Number.Ratio
import Dissect.Number.Width

/-! Scalar variables: a width, a value and the bytes the value was captured from. A value is an
integer of either sign or an exact quotient, and every reader of a quotient sees its integer part
wrapped to the width of the variable. -/
namespace Dissect

inductive Value where
  | unsigned (word : UInt64)
  | signed (word : Int64)
  | rational (ratio : Ratio)
  deriving DecidableEq, Repr

def Value.toInt : Value → Int
  | .unsigned v => v.toNat
  | .signed v => v.toInt
  | .rational r => r.truncate

def Value.text : Value → String
  | .unsigned v => toString v.toNat
  | .signed v => toString v.toInt
  | .rational r => r.text

structure Variable where
  width : Width
  value : Value
  raw : List UInt8
  deriving DecidableEq, Repr

namespace Variable

def ofUnsigned (width : Width) (value : UInt64) : Variable :=
  ⟨width, .unsigned (width.wrapUnsigned value), []⟩

def ofSigned (width : Width) (value : Int64) : Variable :=
  ⟨width, .signed (width.wrapSigned value), []⟩

def withRaw (v : Variable) (raw : List UInt8) : Variable := { v with raw := raw }

/-- The integer at the width of the variable. A negative quotient wraps as a signed number, any
other as an unsigned one. -/
def integer (v : Variable) : Int :=
  match v.value with
  | .unsigned n => (v.width.wrapUnsigned n).toNat
  | .signed n => (v.width.wrapSigned n).toInt
  | .rational r =>
    if r.truncate < 0 then (v.width.wrapSigned (Int64.ofInt r.truncate)).toInt
    else (v.width.wrapUnsigned (UInt64.ofInt r.truncate)).toNat

def asUnsigned (v : Variable) : UInt64 := v.width.wrapUnsigned (UInt64.ofInt v.integer)

def asSigned (v : Variable) : Int64 := v.width.wrapSigned (Int64.ofInt v.integer)

end Variable

end Dissect
