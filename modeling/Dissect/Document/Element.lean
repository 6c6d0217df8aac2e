import Dissect.Document.Content
import Dissect.Format.Step
import Dissect.Text.Hex

/-! Elements with attributes that could be read, and the kinds of value an attribute can have. An
attribute is looked up by its key; those no one asks for are unexpected. -/
namespace Dissect.Document
open Text

structure Reference where
  id : String
  element : String
  offset : Nat
  deriving DecidableEq, Repr

structure Element where
  name : String
  offset : Nat
  attributes : List Markup.Attribute

/-- Opens a tag at a depth of nesting, the outermost element being at depth one. -/
def Tag.enter (depth : Nat) (t : Tag) : Except Fault Element :=
  if maxNesting < depth then .error ⟨t.offset, t.name, .tooDeep⟩
  else
    match t.attributes with
    | .error fault => .error ⟨t.offset, t.name, .malformed (.inTag fault)⟩
    | .ok attributes => .ok ⟨t.name, t.offset, attributes⟩

/-- Letters, digits, underscores and dots, the first neither a digit nor a dot. -/
def isIdentifier : List Char → Bool
  | [] => false
  | c :: cs =>
    (c.isAlpha || c == '_') && cs.all fun c => c.isAlphanum || c == '_' || c == '.'

/-- A decimal integer, or a hexadecimal word after `0x`, which is read in two's complement. -/
def literal? (text : List Char) : Option Int64 :=
  match trim text with
  | '0' :: 'x' :: digits => (unsigned? 16 UInt64.size digits).map fun n => Int64.ofInt n
  | '0' :: 'X' :: digits => (unsigned? 16 UInt64.size digits).map fun n => Int64.ofInt n
  | digits => (signed64? digits).map Int64.ofInt

namespace Element
variable (e : Element)

def fault (cause : Cause) : Fault := ⟨e.offset, e.name, cause⟩

def invalid (key value reason : String) : Fault := e.fault (.invalidAttribute key value reason)

def mention (id : String) : Reference := ⟨id, e.name, e.offset⟩

def get? (key : String) : Option String :=
  (e.attributes.find? (·.key == key)).map (·.value)

def has (key : String) : Bool := (e.get? key).isSome

def demand {α : Type} (key : String) : Option α → Except Fault α
  | some a => .ok a
  | none => .error (e.fault (.missingAttribute key))

def required (key : String) : Except Fault String := e.demand key (e.get? key)

def flag (key : String) : Except Fault Bool :=
  match e.get? key with
  | none => .ok false
  | some "false" => .ok false
  | some "true" => .ok true
  | some other => .error (e.invalid key other "expected 'true' or 'false'")

def natural? (key : String) (bound : Nat) : Except Fault (Option Nat) :=
  match e.get? key with
  | none => .ok none
  | some text =>
    match unsigned? 10 bound (trim text.toList) with
    | some n => .ok (some n)
    | none => .error (e.invalid key text "expected a non-negative integer")

def width? (key : String) : Except Fault (Option Width) :=
  match e.get? key with
  | none => .ok none
  | some text =>
    match (unsigned? 10 UInt64.size (trim text.toList)).bind Width.ofBytes? with
    | some w => .ok (some w)
    | none => .error (e.invalid key text "expected 1, 2, 4 or 8")

def hex? (key : String) : Except Fault (Option (List UInt8)) :=
  match e.get? key with
  | none => .ok none
  | some text =>
    match Hex.bytes? text with
    | some bytes => .ok (some bytes)
    | none => .error (e.fault (.malformedHex text))

def hex (key : String) : Except Fault (List UInt8) := do
  e.demand key (← e.hex? key)

def var? (key : String) : Except Fault (Option Reference) :=
  match e.get? key with
  | none => .ok none
  | some name =>
    if isIdentifier name.toList then .ok (some (e.mention name))
    else .error (e.invalid key name "not a variable name")

def var (key : String) : Except Fault Reference := do
  e.demand key (← e.var? key)

/-- An integer or the name of a variable, blanks around it left out. -/
def operand? (key : String) : Except Fault (Option (Operand Reference)) :=
  match e.get? key with
  | none => .ok none
  | some text =>
    match literal? text.toList with
    | some value => .ok (some (.literal value))
    | none =>
      let name := trim text.toList
      if isIdentifier name then .ok (some (.var (e.mention (String.ofList name))))
      else .error (e.invalid key text "expected an integer or a variable name")

def only (keys : List String) : Except Fault Unit :=
  match e.attributes.find? (fun a => !keys.contains a.key) with
  | some a => .error (e.fault (.unexpectedAttribute a.key))
  | none => .ok ()

end Element

namespace Content

/-- Reads the elements of a row one after the other. `parent` is the element that contains the
row and `depth` the depth of the elements in it. -/
def fold {β : Type} (parent : String) (depth : Nat)
    (read : β → Element → Content → Except Fault β) : β → Content → Except Fault β
  | acc, .done => .ok acc
  | _, .blemish offset cause => .error ⟨offset, parent, cause⟩
  | acc, .element tag inner rest => do
    let e ← tag.enter depth
    let acc ← read acc e inner
    fold parent depth read acc rest

def nothing (parent : String) (depth : Nat) (c : Content) : Except Fault Unit :=
  fold parent depth (fun _ e _ => .error (e.fault .unexpectedElement)) () c

end Content

end Dissect.Document
