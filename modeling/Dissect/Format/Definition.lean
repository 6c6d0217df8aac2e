import Dissect.Bytes
import Dissect.Format.Field
import Dissect.Format.Program

/-! A format: how files of it are recognised, how their fields look and which program describes
one. References between the tables of a definition are indices into them. -/
namespace Dissect

inductive Endianness (ρ : Type) where
  | big
  | little
  /-- The bytes captured in a variable decide. -/
  | captured (id : ρ) (msbMark lsbMark : List UInt8)
  deriving DecidableEq, Repr

/-- The byte order in force. One that is not determined counts as big-endian. -/
def Endianness.resolve (policy : Endianness Nat) (store : Store) : ByteOrder :=
  match policy with
  | .big => .big
  | .little => .little
  | .captured id _ lsbMark =>
    match store.get? id with
    | some v => if v.raw = lsbMark then .little else .big
    | none => .big

inductive MagicStep (ρ : Type) where
  | pattern (bytes : List UInt8) (offset : Option (Operand ρ))
  | capture (var : ρ) (width : Width) (offset : Option (Operand ρ))
  deriving DecidableEq, Repr

/-- One way to recognise a format: every step has to succeed. -/
abbrev Signature (ρ : Type) := List (MagicStep ρ)

namespace Renaming
variable {ρ σ : Type} (r : Renaming ρ σ)

def endianness : Endianness ρ → Endianness σ
  | .big => .big
  | .little => .little
  | .captured id msbMark lsbMark => .captured (r.var id) msbMark lsbMark

def magicStep : MagicStep ρ → MagicStep σ
  | .pattern bytes offset => .pattern bytes (offset.map r.operand)
  | .capture var width offset => .capture (r.var var) width (offset.map r.operand)

def signature (s : Signature ρ) : Signature σ := s.map r.magicStep

end Renaming

structure Block where
  id : String
  steps : List (Step Nat)
  deriving DecidableEq, Repr

structure Definition where
  name : String
  shortName : String
  endianness : Endianness Nat
  colors : List Color
  fields : List (FieldDef Nat)
  signatures : List (Signature Nat)
  blocks : List Block
  program : List (Step Nat)
  vars : List String
  /-- The field that labels uncovered bytes. -/
  unused : Nat
  deriving DecidableEq, Repr

namespace Definition

def field (d : Definition) (i : Nat) : FieldDef Nat := d.fields[i]?.getD FieldDef.unused

def unusedField (d : Definition) : FieldDef Nat := d.field d.unused

def block (d : Definition) (i : Nat) : Block := d.blocks[i]?.getD ⟨"", []⟩

def variableName (d : Definition) (i : Nat) : String := d.vars[i]?.getD ""

def findField? (d : Definition) (id : String) : Option Nat := d.fields.findIdx? (·.id == id)

def findVariable? (d : Definition) (name : String) : Option Nat := d.vars.findIdx? (· == name)

/-- Palette index and background of a color; no color is index zero in the foreground. -/
def colorStyle (d : Definition) (color : Option Nat) : Nat × Bool :=
  match color.bind (d.colors[·]?) with
  | some c => (c.index, c.background)
  | none => (0, false)

end Definition

end Dissect
