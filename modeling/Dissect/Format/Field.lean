/-! Shapes of fields: how many bytes a field takes, how they are read and how they are shown. The
colors a field is marked with are references of type `ρ`. -/
namespace Dissect

structure Color where
  id : String
  name : String
  /-- Place in the palette of whoever shows the result. -/
  index : Nat
  background : Bool
  deriving DecidableEq, Repr

inductive SizeRule where
  | fixed (bytes : Nat)
  | remaining
  /-- Up to and with the first byte of this value. -/
  | terminated (byte : UInt8)
  deriving DecidableEq, Repr

inductive Encoding where
  | ascii
  | utf8
  | latin1
  | utf16le
  | utf16be
  deriving DecidableEq, Repr

def Encoding.ofName? : String → Option Encoding
  | "ascii" => some .ascii
  | "utf8" => some .utf8
  | "latin1" => some .latin1
  | "utf16le" => some .utf16le
  | "utf16be" => some .utf16be
  | _ => none

inductive PrintMode where
  | raw
  | hex
  | signed
  | unsigned
  | text
  | options
  | flags
  deriving DecidableEq, Repr

def PrintMode.ofName? : String → Option PrintMode
  | "raw" => some .raw
  | "hex" => some .hex
  | "int" => some .signed
  | "uint" => some .unsigned
  | "text" => some .text
  | "options" => some .options
  | "flags" => some .flags
  | _ => none

/-- A name for one value; the pattern has the most significant byte first. -/
structure OptionEntry where
  name : String
  pattern : List UInt8
  deriving DecidableEq, Repr

structure FlagEntry where
  name : String
  mask : UInt64
  meaning : String
  deriving DecidableEq, Repr

structure BitField where
  mask : UInt64
  shift : Nat
  deriving DecidableEq, Repr

def BitField.extract (b : BitField) (word : UInt64) : UInt64 :=
  if b.shift < 64 then (word &&& b.mask) >>> UInt64.ofNat b.shift else 0

structure FieldDef (ρ : Type) where
  id : String
  /-- Label of ranges and description lines. -/
  name : String
  tag : Option String
  color : Option ρ
  accent : Option ρ
  tooltip : Option String
  size : SizeRule
  bits : Option BitField
  encoding : Encoding
  print : PrintMode
  options : List OptionEntry
  flags : List FlagEntry
  deriving DecidableEq, Repr

/-- The field that labels bytes no other field covers. -/
def unusedId : String := "unused"

def FieldDef.unused {ρ : Type} : FieldDef ρ where
  id := unusedId
  name := "unused data"
  tag := none
  color := none
  accent := none
  tooltip := none
  size := .remaining
  bits := none
  encoding := .ascii
  print := .raw
  options := []
  flags := []

def FieldDef.map {ρ σ : Type} (color : ρ → σ) (f : FieldDef ρ) : FieldDef σ :=
  { f with color := f.color.map color, accent := f.accent.map color }

end Dissect
