import Dissect.Format.Definition
import Dissect.Output.Description
import Dissect.Text.Hex
import Dissect.Text.Utf16

/-! The bytes of one field read as its definition says: the value that is shown, the lines that
follow it, and the variable that captures it. -/
namespace Dissect
open Text

def dropNuls (bytes : List UInt8) : List UInt8 :=
  (bytes.reverse.dropWhile (· == 0)).reverse

/-- Text without the NULs at its end. -/
def Encoding.decode (encoding : Encoding) (bytes : List UInt8) : List Char :=
  match encoding with
  | .ascii =>
    (dropNuls bytes).map fun b =>
      if 0x20 ≤ b.toNat ∧ b.toNat < 0x7F then Char.ofNat b.toNat else '.'
  | .utf8 => Utf8.decodeLossy (dropNuls bytes)
  | .latin1 => (dropNuls bytes).map fun b => Char.ofNat b.toNat
  | .utf16le => dropEndWhile (· == '\x00') (Utf16.decodeLossy (Utf16.units true bytes))
  | .utf16be => dropEndWhile (· == '\x00') (Utf16.decodeLossy (Utf16.units false bytes))

structure Reading where
  value : String
  extra : List Line := []
  /-- False if the value has no name among the options, or a bit none among the flags. -/
  known : Bool := true
  deriving DecidableEq, Repr

namespace FieldDef
variable (f : FieldDef Nat)

def word (order : ByteOrder) (bytes : List UInt8) : UInt64 :=
  match f.bits with
  | some b => b.extract (Bytes.word order bytes)
  | none => Bytes.word order bytes

def option? (order : ByteOrder) (bytes : List UInt8) : Option OptionEntry :=
  f.options.find? fun o =>
    match f.bits with
    | some _ => Bytes.word? o.pattern == some (f.word order bytes)
    | none => o.pattern == order.msbFirst bytes

def flagsIn (word : UInt64) : List FlagEntry := f.flags.filter (word &&& ·.mask != 0)

def flagMask : UInt64 := f.flags.foldl (fun acc flag => acc ||| flag.mask) 0

/-- Fields too long for a word are shown as bytes in the modes for numbers. -/
def read (order : ByteOrder) (bytes : List UInt8) : Reading :=
  let word := f.word order bytes
  let fits := f.bits.isSome || bytes.length ≤ 8
  match f.print with
  | .raw => { value := if f.bits.isSome then hexUpper word.toNat else Hex.text bytes }
  | .text => { value := String.ofList (f.encoding.decode bytes) }
  | .hex => { value := if fits then hexUpper word.toNat else Hex.text (order.msbFirst bytes) }
  | .unsigned =>
    { value := if fits then toString word.toNat else Hex.text (order.msbFirst bytes) }
  | .signed =>
    { value :=
        if f.bits.isSome then toString word.toNat
        else if fits then toString (Bytes.signExtend word bytes.length).toInt
        else Hex.text (order.msbFirst bytes) }
  | .options =>
    match f.option? order bytes with
    | some o => { value := o.name }
    | none => { value := "", known := false }
  | .flags =>
    let set := f.flagsIn word
    { value := ", ".intercalate (set.map (·.name))
      extra := set.map fun flag => ⟨flag.name, flag.meaning, none⟩
      known := word &&& ~~~f.flagMask == 0 }

def capture (order : ByteOrder) (bytes : List UInt8) : Variable :=
  let width := Width.fitting bytes.length
  let word := f.word order bytes
  let v :=
    if f.print = .signed ∧ f.bits = none then
      Variable.ofSigned width (Bytes.signExtend word (min bytes.length 8))
    else Variable.ofUnsigned width word
  v.withRaw bytes

end FieldDef

end Dissect
