import Dissect.Document.FieldDecl
import Dissect.Document.Steps

/-! Documents with all their parts read, but references still by identifier. The sections are kept
in the order in which they stand. -/
namespace Dissect.Document
open Text

structure BlockDecl where
  id : String
  program : Program Reference
  offset : Nat
  deriving DecidableEq, Repr

inductive Section where
  | endianness (policy : Endianness Reference)
  | magic (signatures : List (Signature Reference))
  | colors (decls : List ColorDecl)
  | fields (decls : List FieldDecl)
  | blocks (decls : List BlockDecl)
  | run (program : Program Reference)
  deriving DecidableEq, Repr

def Section.name : Section → String
  | .endianness _ => "endianness"
  | .magic _ => "magic"
  | .colors _ => "colors"
  | .fields _ => "field-defs"
  | .blocks _ => "block-defs"
  | .run _ => "run"

def Section.names : List String :=
  ["endianness", "magic", "colors", "field-defs", "block-defs", "run"]

def Element.endianness (e : Element) : Except Fault (Endianness Reference) := do
  let order ← e.required "order"
  match order with
  | "big" =>
    e.only ["order"]
    return .big
  | "little" =>
    e.only ["order"]
    return .little
  | "variable" =>
    let var ← e.var "var"
    let big ← e.hex "big"
    let little ← e.hex "little"
    if big = little then .error (e.invalid "little" (Hex.text little) "must differ from 'big'")
    e.only ["order", "var", "big", "little"]
    return .captured var big little
  | _ => .error (e.invalid "order" order "expected 'big', 'little' or 'variable'")

def addMagicStep (steps : Signature Reference) (e : Element) (inner : Content) :
    Except Fault (Signature Reference) := do
  let step ← match e.name with
    | "match" => do
      let pattern ← e.hex "value"
      let offset ← e.operand? "offset"
      e.only ["value", "offset"]
      pure (MagicStep.pattern pattern offset)
    | "read" => do
      let var ← e.var "var"
      let width ← e.demand "size" (← e.width? "size")
      let offset ← e.operand? "offset"
      e.only ["var", "size", "offset"]
      pure (MagicStep.capture var width offset)
    | _ => .error (e.fault .unexpectedElement)
  inner.nothing e.name 5
  return steps ++ [step]

def addSignature (signatures : List (Signature Reference)) (e : Element) (inner : Content) :
    Except Fault (List (Signature Reference)) := do
  if e.name ≠ "signature" then .error (e.fault .unexpectedElement)
  e.only []
  let steps ← inner.fold e.name 4 addMagicStep []
  if steps = [] then .error (e.fault (.missingElement "match"))
  return signatures ++ [steps]

def addBlock (decls : List BlockDecl) (e : Element) (inner : Content) :
    Except Fault (List BlockDecl) := do
  if e.name ≠ "block-def" then .error (e.fault .unexpectedElement)
  let id ← e.required "id"
  if decls.any (·.id == id) then .error (e.fault (.duplicate ("block id '" ++ id ++ "'")))
  e.only ["id"]
  let program ← inner.program e.name 4
  return decls ++ [⟨id, program, e.offset⟩]

def readSection (e : Element) (inner : Content) : Except Fault Section := do
  match e.name with
  | "endianness" =>
    let policy ← e.endianness
    inner.nothing e.name 3
    return .endianness policy
  | "magic" =>
    e.only []
    let signatures ← inner.fold e.name 3 addSignature []
    if signatures = [] then .error (e.fault (.missingElement "signature"))
    return .magic signatures
  | "colors" =>
    e.only []
    return .colors (← inner.fold e.name 3 addColor [])
  | "field-defs" =>
    e.only []
    return .fields (← inner.fold e.name 3 addField [])
  | "block-defs" =>
    e.only []
    return .blocks (← inner.fold e.name 3 addBlock [])
  | "run" =>
    e.only []
    return .run (← inner.program e.name 3)
  | _ => .error (e.fault .unexpectedElement)

def addSection (sections : List Section) (e : Element) (inner : Content) :
    Except Fault (List Section) := do
  if !Section.names.contains e.name then .error (e.fault .unexpectedElement)
  if sections.any (·.name == e.name) then .error (e.fault (.duplicate e.name))
  return sections ++ [← readSection e inner]

structure Format where
  name : String
  shortName : String
  offset : Nat
  sections : List Section
  deriving DecidableEq, Repr

/-- Reads the root, which is the only element at the outermost level. -/
def readRoot (found : Option Format) (e : Element) (inner : Content) :
    Except Fault (Option Format) := do
  if e.name ≠ "format" then .error (e.fault .unexpectedElement)
  if found.isSome then .error (e.fault (.duplicate "format"))
  let name ← e.required "name"
  let short ← e.required "short"
  e.only ["name", "short"]
  let sections ← inner.fold e.name 2 addSection []
  return some ⟨name, short, e.offset, sections⟩

def Format.ofContent? (c : Content) : Except Fault (Option Format) :=
  c.fold "" 1 readRoot none

end Dissect.Document
