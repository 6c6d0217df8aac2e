import Dissect.Markup.Fault
import Dissect.Markup.Position

/-! Why a document is refused. A fault names the element it concerns and the offset where its tag,
or the text or markup in question, is looked for; an error gives the same with line and column. -/
namespace Dissect.Document
open Markup

inductive Table where
  | color
  | field
  | block
  deriving DecidableEq, Repr

def Table.name : Table → String
  | .color => "color"
  | .field => "field"
  | .block => "block"

def maxNesting : Nat := 128

inductive Cause where
  | malformed (fault : Markup.Fault)
  | unexpectedElement
  | unexpectedText (text : String)
  | missingAttribute (key : String)
  | unexpectedAttribute (key : String)
  | invalidAttribute (key value reason : String)
  | malformedHex (text : String)
  | duplicate (what : String)
  | maskOnVariableSize
  | missingElement (name : String)
  | undefined (table : Table) (id : String)
  | tooDeep
  | invalid (reason : String)
  deriving DecidableEq, Repr

def Cause.message : Cause → String
  | .malformed fault => "malformed markup: " ++ fault.message
  | .unexpectedElement => "element is not allowed here"
  | .unexpectedText text => "unexpected text content '" ++ text ++ "'"
  | .missingAttribute key => "missing required attribute '" ++ key ++ "'"
  | .unexpectedAttribute key => "unknown attribute '" ++ key ++ "'"
  | .invalidAttribute key value reason =>
    "invalid value '" ++ value ++ "' for attribute '" ++ key ++ "': " ++ reason
  | .malformedHex text => "malformed hexadecimal literal '" ++ text ++ "'"
  | .duplicate what => "'" ++ what ++ "' may only be given once"
  | .maskOnVariableSize => "bit masks are only allowed on fixed-size fields"
  | .missingElement name => "missing required element <" ++ name ++ ">"
  | .undefined table id => "undefined " ++ table.name ++ " '" ++ id ++ "'"
  | .tooDeep => "nesting exceeds " ++ toString maxNesting ++ " levels"
  | .invalid reason => reason

structure Fault where
  offset : Nat
  element : String
  cause : Cause
  deriving DecidableEq, Repr

structure Error where
  position : Position
  element : String
  cause : Cause
  deriving DecidableEq, Repr

def Error.message (e : Error) : String :=
  "line " ++ e.position.text ++ ", <" ++ e.element ++ ">: " ++ e.cause.message

def Fault.locate (source : List Char) (f : Fault) : Error :=
  ⟨Position.ofStart source f.offset, f.element, f.cause⟩

end Dissect.Document
