import Dissect.Markup.Fault
import Dissect.Text.Numeral

/-! Entities in attribute values: the five named ones and characters by number, each between `&`
and `;`. All other characters stand for themselves. -/
namespace Dissect.Markup
open Text

/-- A character code by its digits. A digit that is none is noticed before a code that grows too
large at that digit. -/
def codeFrom (radix : Nat) : Nat → List Char → Except ReferenceFault Nat
  | acc, [] => .ok acc
  | acc, c :: cs =>
    match digit? radix c with
    | none => .error .badDigit
    | some d =>
      if UInt32.size ≤ acc * radix + d then .error .tooLarge
      else codeFrom radix (acc * radix + d) cs

def code (radix : Nat) : List Char → Except ReferenceFault Nat
  | [] => .error .noDigits
  | '+' :: _ => .error .sign
  | '-' :: _ => .error .sign
  | cs => codeFrom radix 0 cs

def referenced (cs : List Char) : Except ReferenceFault Char := do
  let n ← match cs with
    | 'x' :: hex => code 16 hex
    | _ => code 10 cs
  if n = 0 then .error .null
  else if h : n.isValidChar then .ok (Char.ofNatAux n h)
  else .error (.noCharacter n)

def namedEntity? : String → Option Char
  | "lt" => some '<'
  | "gt" => some '>'
  | "amp" => some '&'
  | "apos" => some '\''
  | "quot" => some '"'
  | _ => none

def entity (first : Nat) (name : List Char) : Except TagFault Char :=
  match name with
  | '#' :: reference => (referenced reference).mapError .badReference
  | _ =>
    match namedEntity? (String.ofList name) with
    | some c => .ok c
    | none =>
      .error (.unknownEntity first (first + utf8Length name) (String.ofList name))

/-- Replaces entities from byte `pos` of a value of `size` bytes. An entity in progress is given
by the place of its `&` and its name so far, last character first. -/
def unescapeFrom (size pos : Nat) : Option (Nat × List Char) → List Char →
    Except TagFault (List Char)
  | none, [] => .ok []
  | some (start, _), [] => .error (.openEntity start size)
  | none, c :: cs =>
    if c = '&' then unescapeFrom size (pos + 1) (some (pos, [])) cs
    else (unescapeFrom size (pos + c.utf8Size) none cs).map (c :: ·)
  | some (start, name), c :: cs =>
    if c = '&' then .error (.openEntity start size)
    else if c = ';' then do
      let e ← entity (start + 1) name.reverse
      let rest ← unescapeFrom size (pos + 1) none cs
      return e :: rest
    else unescapeFrom size (pos + c.utf8Size) (some (start, c :: name)) cs

def unescape (raw : List Char) : Except TagFault String :=
  (unescapeFrom (utf8Length raw) 0 none raw).map String.ofList

end Dissect.Markup
