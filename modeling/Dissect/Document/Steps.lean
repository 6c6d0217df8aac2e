import Dissect.Document.Element
import Dissect.Format.Program

/-! Programs as a document writes them, each element one step. -/
namespace Dissect.Document

/-- What the tag of a step says: all of it, or how its body is to be run. -/
inductive Head where
  | act (action : Action Reference)
  | guarded (guard : Guard Reference)
  | loop (guard : LoopGuard Reference)
  | selection

namespace Element
variable (e : Element)

def tests : Except Fault (List (VarTest Reference)) := do
  let eq ← e.operand? "eq"
  let gt ← e.operand? "gt"
  let bit ← e.operand? "bit"
  let defined ←
    if e.has "defined" then do
      if !(← e.flag "defined") then
        .error (e.invalid "defined" "false" "only 'true' is meaningful")
      pure [VarTest.defined]
    else pure []
  return (eq.map VarTest.equals).toList ++ (gt.map VarTest.greater).toList ++
    (bit.map VarTest.bit).toList ++ defined

def guard : Except Fault (Guard Reference) := do
  match ← e.hex? "bytes" with
  | some pattern =>
    if e.has "var" then
      .error (e.fault (.invalid "a match tests either 'bytes' or 'var', not both"))
    let convert ← e.flag "convert"
    e.only ["bytes", "convert"]
    return .bytes pattern convert
  | none =>
    let var ← e.var "var"
    match ← e.tests with
    | [test] =>
      e.only ["var", "eq", "gt", "bit", "defined"]
      return .var var test
    | [] =>
      .error (e.fault
        (.invalid "a variable match needs one of 'eq', 'gt', 'bit' or 'defined'"))
    | _ =>
      .error (e.fault
        (.invalid "a variable match takes only one of 'eq', 'gt', 'bit' or 'defined'"))

def loopGuard : Except Fault (LoopGuard Reference) := do
  let remaining ← e.flag "remaining"
  let var ← e.var? "var"
  let target ← e.operand? "until"
  let count ← e.natural? "count" UInt64.size
  let condition ← match remaining, var, target with
    | true, none, none => pure LoopCondition.remaining
    | false, some var, some target => pure (.below var target)
    | false, none, none =>
      if count.isSome then pure .always
      else .error (e.fault (.invalid "a loop needs 'remaining', 'var' with 'until', or 'count'"))
    | true, _, _ =>
      .error (e.fault (.invalid "'remaining' and 'var'/'until' are mutually exclusive"))
    | false, some _, none => .error (e.fault (.missingAttribute "until"))
    | false, none, some _ => .error (e.fault (.missingAttribute "var"))
  e.only ["remaining", "var", "until", "count"]
  return ⟨condition, count⟩

def fieldStep : Except Fault (FieldStep Reference) := do
  let id ← e.required "ref"
  let var ← e.var? "var"
  let offset ← e.operand? "offset"
  let limit ← e.operand? "limit"
  e.only ["ref", "var", "offset", "limit", "tab"]
  return ⟨e.mention id, var, offset, limit, e.get? "tab"⟩

def printStep : Except Fault (PrintStep Reference) := do
  let label ← e.required "label"
  let var ← e.var "var"
  let suppress ← e.flag "suppress"
  let hex ← e.flag "hex"
  e.only ["label", "var", "tab", "suppress", "hex"]
  return ⟨label, var, e.get? "tab", suppress, hex⟩

def execStep : Except Fault (ExecStep Reference) := do
  let var ← e.var "var"
  let name ← e.required "op"
  let op ← match ArithOp.ofName? name with
    | some op => pure op
    | none => .error (e.invalid "op" name "expected set, mod, add, sub, mul or div")
  let operand ← e.demand "value" (← e.operand? "value")
  let signed ← e.flag "signed"
  let width ← e.width? "size"
  e.only ["var", "op", "value", "signed", "size"]
  return ⟨var, op, signed, operand, width⟩

def head : Except Fault Head := do
  match e.name with
  | "field" => return .act (.field (← e.fieldStep))
  | "match" => return .guarded (← e.guard)
  | "loop" => return .loop (← e.loopGuard)
  | "selection" =>
    e.only []
    return .selection
  | "block" =>
    let id ← e.required "ref"
    e.only ["ref"]
    return .act (.block (e.mention id))
  | "print" => return .act (.print (← e.printStep))
  | "exec" => return .act (.exec (← e.execStep))
  | "section" =>
    let title ← e.required "title"
    e.only ["title"]
    return .act (.title title)
  | "insert" =>
    let tab ← e.required "tab"
    e.only ["tab"]
    return .act (.insert tab)
  | _ => .error (e.fault .unexpectedElement)

end Element

def Content.program (parent : String) (depth : Nat) : Content → Except Fault (Program Reference)
  | .done => .ok .done
  | .blemish offset cause => .error ⟨offset, parent, cause⟩
  | .element tag inner rest => do
    let e ← tag.enter depth
    match ← e.head with
    | .act a =>
      inner.nothing e.name (depth + 1)
      return .act a (← program parent depth rest)
    | .guarded g =>
      let body ← program e.name (depth + 1) inner
      return .guarded g body (← program parent depth rest)
    | .loop g =>
      let body ← program e.name (depth + 1) inner
      return .loop g body (← program parent depth rest)
    | .selection =>
      let body ← program e.name (depth + 1) inner
      return .selection body (← program parent depth rest)

end Dissect.Document
