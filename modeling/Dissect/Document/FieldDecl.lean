import Dissect.Document.Element
import Dissect.Format.Definition

/-! Colors and fields as a document declares them. -/
namespace Dissect.Document
open Text

structure ColorDecl where
  color : Color
  offset : Nat
  deriving DecidableEq, Repr

def addColor (decls : List ColorDecl) (e : Element) (inner : Content) :
    Except Fault (List ColorDecl) := do
  if e.name ≠ "color" then .error (e.fault .unexpectedElement)
  let id ← e.required "id"
  if decls.any (·.color.id == id) then .error (e.fault (.duplicate ("color id '" ++ id ++ "'")))
  let index ← e.demand "index" (← e.natural? "index" UInt32.size)
  let background ← e.flag "background"
  e.only ["id", "index", "name", "background"]
  inner.nothing e.name 4
  return decls ++ [⟨⟨id, (e.get? "name").getD id, index, background⟩, e.offset⟩]

structure FieldParts where
  size : Option SizeRule := none
  mask : Option (List UInt8) := none
  shift : Option Nat := none
  encoding : Option Encoding := none
  print : Option PrintMode := none
  options : Option (List OptionEntry) := none
  flags : Option (List FlagEntry) := none
  deriving DecidableEq, Repr

def Element.once {α : Type} (e : Element) : Option α → Except Fault Unit
  | none => .ok ()
  | some _ => .error (e.fault (.duplicate e.name))

def Element.size (e : Element) : Except Fault SizeRule := do
  let fixed ← e.natural? "fixed" UInt64.size
  let remaining ← e.flag "remaining"
  let terminator ← e.hex? "terminator"
  match fixed, remaining, terminator with
  | some 0, false, none => .error (e.invalid "fixed" "0" "must be at least 1")
  | some n, false, none => return .fixed n
  | none, true, none => return .remaining
  | none, false, some [byte] => return .terminated byte
  | none, false, some bytes =>
    .error (e.invalid "terminator" (Hex.text bytes) "must be a single byte")
  | none, false, none =>
    .error (e.fault (.invalid "size needs one of 'fixed', 'remaining' or 'terminator'"))
  | _, _, _ =>
    .error (e.fault (.invalid "size takes only one of 'fixed', 'remaining' or 'terminator'"))

def Element.mask (e : Element) : Except Fault (List UInt8) := do
  let mask ← e.hex "value"
  if 8 < mask.length then .error (e.invalid "value" (Hex.text mask) "at most 8 bytes")
  return mask

def Element.shift (e : Element) : Except Fault Nat := do
  let bits ← e.demand "bits" (← e.natural? "bits" UInt32.size)
  if 64 ≤ bits then .error (e.invalid "bits" (toString bits) "must be below 64")
  return bits

def Element.encoding (e : Element) : Except Fault Encoding := do
  let value ← e.required "value"
  match Encoding.ofName? value with
  | some encoding => return encoding
  | none => .error (e.invalid "value" value "expected ascii, utf8, latin1, utf16le or utf16be")

def Element.printMode (e : Element) : Except Fault PrintMode := do
  let mode ← e.required "mode"
  match PrintMode.ofName? mode with
  | some print => return print
  | none =>
    .error (e.invalid "mode" mode "expected raw, hex, int, uint, text, options or flags")

def addOption (entries : List OptionEntry) (e : Element) (inner : Content) :
    Except Fault (List OptionEntry) := do
  if e.name ≠ "option" then .error (e.fault .unexpectedElement)
  let name ← e.required "name"
  let pattern ← e.hex "value"
  e.only ["name", "value"]
  inner.nothing e.name 6
  return entries ++ [⟨name, pattern⟩]

def addFlag (entries : List FlagEntry) (e : Element) (inner : Content) :
    Except Fault (List FlagEntry) := do
  if e.name ≠ "flag" then .error (e.fault .unexpectedElement)
  let name ← e.required "name"
  let bytes ← e.hex "mask"
  match Bytes.word? bytes with
  | none => .error (e.invalid "mask" (Hex.text bytes) "at most 8 bytes")
  | some mask =>
    if mask = 0 then
      .error (e.invalid "mask" (Hex.text bytes) "must have at least one bit set")
    e.only ["name", "mask", "meaning"]
    inner.nothing e.name 6
    return entries ++ [⟨name, mask, (e.get? "meaning").getD ""⟩]

def addPart (parts : FieldParts) (e : Element) (inner : Content) :
    Except Fault FieldParts := do
  match e.name with
  | "size" =>
    let size ← e.size
    e.once parts.size
    e.only ["fixed", "remaining", "terminator"]
    inner.nothing e.name 5
    return { parts with size := some size }
  | "mask" =>
    let mask ← e.mask
    e.once parts.mask
    e.only ["value"]
    inner.nothing e.name 5
    return { parts with mask := some mask }
  | "shift" =>
    let shift ← e.shift
    e.once parts.shift
    e.only ["bits"]
    inner.nothing e.name 5
    return { parts with shift := some shift }
  | "encoding" =>
    let encoding ← e.encoding
    e.once parts.encoding
    e.only ["value"]
    inner.nothing e.name 5
    return { parts with encoding := some encoding }
  | "print" =>
    let print ← e.printMode
    e.once parts.print
    e.only ["mode"]
    inner.nothing e.name 5
    return { parts with print := some print }
  | "options" =>
    e.once parts.options
    e.only []
    let options ← inner.fold e.name 5 addOption []
    if options.isEmpty then .error (e.fault (.missingElement "option"))
    return { parts with options := some options }
  | "flags" =>
    e.once parts.flags
    e.only []
    let flags ← inner.fold e.name 5 addFlag []
    if flags.isEmpty then .error (e.fault (.missingElement "flag"))
    return { parts with flags := some flags }
  | _ => .error (e.fault .unexpectedElement)

def fullMask (n : Nat) : UInt64 := UInt64.ofNat ((1 <<< (8 * n)) - 1)

/-- The bits a field of this size is cut to; only fields of a fixed size can be. -/
def FieldParts.bits (parts : FieldParts) (size : SizeRule) : Except Cause (Option BitField) :=
  if parts.mask.isNone && parts.shift.isNone then .ok none
  else
    match size with
    | .fixed n =>
      if 8 < n then
        .error (.invalid ("bit fields are limited to 8 bytes, this one has " ++ toString n))
      else
        let shift := parts.shift.getD 0
        match parts.mask with
        | none => .ok (some ⟨fullMask n, shift⟩)
        | some bytes =>
          if n < bytes.length then
            .error (.invalid ("mask of " ++ toString bytes.length ++
              " bytes is wider than the " ++ toString n ++ "-byte field"))
          else .ok (some ⟨(Bytes.word? bytes).getD (fullMask n), shift⟩)
    | _ => .error .maskOnVariableSize

/-- Options of a field of fixed size that is not cut to bits are as long as the field. -/
def checkOptions (size : SizeRule) (bits : Option BitField) (options : List OptionEntry) :
    Except Cause Unit :=
  match size, bits with
  | .fixed n, none =>
    match options.find? (·.pattern.length != n) with
    | some o =>
      .error (.invalid ("option '" ++ o.name ++ "' has " ++ toString o.pattern.length ++
        " bytes but the field has " ++ toString n))
    | none => .ok ()
  | _, _ => .ok ()

structure FieldDecl where
  field : FieldDef Reference
  offset : Nat
  deriving DecidableEq, Repr

def FieldParts.field (parts : FieldParts) (id : String) (e : Element) :
    Except Cause (FieldDef Reference) := do
  let size ← match parts.size with
    | some size => pure size
    | none => .error (.missingElement "size")
  let bits ← parts.bits size
  let print := parts.print.getD (if parts.encoding.isSome then .text else .raw)
  let options := parts.options.getD []
  let flags := parts.flags.getD []
  if print = .options ∧ options = [] then .error (.missingElement "options")
  if print = .flags ∧ flags = [] then .error (.missingElement "flags")
  checkOptions size bits options
  return {
    id := id
    name := (e.get? "name").getD id
    tag := e.get? "tag"
    color := (e.get? "color").map e.mention
    accent := (e.get? "accent").map e.mention
    tooltip := e.get? "tooltip"
    size := size
    bits := bits
    encoding := parts.encoding.getD .ascii
    print := print
    options := options
    flags := flags }

def addField (decls : List FieldDecl) (e : Element) (inner : Content) :
    Except Fault (List FieldDecl) := do
  if e.name ≠ "field" then .error (e.fault .unexpectedElement)
  let id ← e.required "id"
  if decls.any (·.field.id == id) then .error (e.fault (.duplicate ("field id '" ++ id ++ "'")))
  e.only ["id", "color", "accent", "name", "tag", "tooltip"]
  let parts ← inner.fold e.name 4 addPart {}
  let field ← (parts.field id e).mapError e.fault
  return decls ++ [⟨field, e.offset⟩]

end Dissect.Document
