import Dissect.Markup.Entity

/-! The attributes of a tag. Each is a key, an equals sign and a quoted value; keys are distinct,
blanks may stand around the equals sign, and none is needed after a value. -/
namespace Dissect.Markup
open Text

structure Attribute where
  key : String
  value : String
  /-- Where the key starts, in bytes from the start of the tag's content. -/
  start : Nat
  deriving DecidableEq, Repr

/-- How far the reading of one attribute has come; texts are kept last character first. -/
inductive AttributeMode where
  | gap
  | key (start : Nat) (kept : List Char)
  | keyed (start : Nat) (kept : List Char)
  | equals (start : Nat) (name : String)
  | value (start : Nat) (name : String) (quote : Char) (kept : List Char)

def AttributeMode.afterKey (found : List Attribute) (start : Nat) (kept : List Char) :
    Except TagFault AttributeMode :=
  let name := String.ofList kept.reverse
  match found.find? (·.key == name) with
  | some earlier => .error (.repeatedKey start earlier.start)
  | none => .ok (.equals start name)

/-- Reads on from byte `pos`, with the attributes already found in `found`, last one first. -/
def attributesFrom (found : List Attribute) (pos : Nat) : AttributeMode → List Char →
    Except TagFault (List Attribute)
  | .gap, [] => .ok found.reverse
  | .key _ _, [] => .error (.noEquals pos)
  | .keyed _ _, [] => .error (.noEquals pos)
  | .equals _ _, [] => .error (.noValue pos)
  | .value _ _ quote _, [] => .error (.openQuote pos quote)
  | .gap, c :: cs =>
    attributesFrom found (pos + c.utf8Size) (if isMarkupBlank c then .gap else .key pos [c]) cs
  | .key start kept, c :: cs =>
    if c = '=' then
      match AttributeMode.afterKey found start kept with
      | .error e => .error e
      | .ok mode => attributesFrom found (pos + 1) mode cs
    else
      attributesFrom found (pos + c.utf8Size)
        (if isMarkupBlank c then .keyed start kept else .key start (c :: kept)) cs
  | .keyed start kept, c :: cs =>
    if c = '=' then
      match AttributeMode.afterKey found start kept with
      | .error e => .error e
      | .ok mode => attributesFrom found (pos + 1) mode cs
    else if isMarkupBlank c then attributesFrom found (pos + 1) (.keyed start kept) cs
    else .error (.noEquals pos)
  | .equals start name, c :: cs =>
    if isMarkupBlank c then attributesFrom found (pos + 1) (.equals start name) cs
    else if c = '"' ∨ c = '\'' then attributesFrom found (pos + 1) (.value start name c []) cs
    else .error (.noQuote pos)
  | .value start name quote kept, c :: cs =>
    if c = quote then
      match unescape kept.reverse with
      | .error e => .error e
      | .ok value => attributesFrom (⟨name, value, start⟩ :: found) (pos + 1) .gap cs
    else attributesFrom found (pos + c.utf8Size) (.value start name quote (c :: kept)) cs

end Dissect.Markup
