import Dissect.Document.Cause
import Dissect.Markup.Attribute
import Dissect.Markup.Token

/-! A document as nested elements. Text never has a meaning in a definition, so the content of an
element is a row of elements, and whatever else is met, stray text or broken markup, is a blemish
behind which nothing is read. -/
namespace Dissect.Document
open Markup Text

structure Tag where
  name : String
  /-- Where the token before the tag ended. -/
  offset : Nat
  attributes : Except TagFault (List Attribute)

/-- The row of elements that an element, or the document, contains. -/
inductive Content where
  | done
  | blemish (offset : Nat) (cause : Cause)
  | element (tag : Tag) (inner : Content) (rest : Content)

def Content.prepend : List (Tag × Content) → Content → Content
  | [], tail => tail
  | (tag, inner) :: before, tail => prepend before (.element tag inner tail)

/-- An element whose end has not come, with the elements before it, the last one first. -/
structure Open where
  tag : Tag
  before : List (Tag × Content)

/-- The whole document, if `tail` is all that follows `before` in the innermost open element. -/
def Content.enclose : List Open → List (Tag × Content) → Content → Content
  | [], before, tail => prepend before tail
  | o :: opens, before, tail => enclose opens ((o.tag, prepend before tail) :: o.before) .done

def Tag.ofContent (offset : Nat) (content : List Char) : Tag :=
  let name := content.takeWhile (!isMarkupBlank ·)
  ⟨String.ofList name, offset,
    attributesFrom [] (utf8Length name) .gap (content.drop name.length)⟩

/-- The name in an end tag, cut after its last character that is not blank. -/
def endName (content : List Char) : String :=
  String.ofList (if content.all isMarkupBlank then content else dropEndWhile isMarkupBlank content)

def Content.ofTokensFrom : List Open → List (Tag × Content) → List Token → Content
  | [], before, [] => prepend before .done
  | o :: opens, before, [] =>
    enclose (o :: opens) before (.blemish o.tag.offset (.malformed .unclosedElement))
  | opens, before, t :: ts =>
    match t.piece with
    | .ignored => ofTokensFrom opens before ts
    | .cdata => enclose opens before (.blemish t.start (.unexpectedText "CDATA"))
    | .broken fault => enclose opens before (.blemish t.stop (.malformed fault))
    | .text content =>
      match trim content with
      | [] => ofTokensFrom opens before ts
      | c :: cs =>
        enclose opens before (.blemish t.start (.unexpectedText (String.ofList (c :: cs))))
    | .tag ('/' :: content) =>
      match opens with
      | [] => enclose opens before (.blemish t.stop (.malformed (.unmatchedEnd (endName content))))
      | o :: opens =>
        if o.tag.name = endName content then
          ofTokensFrom opens ((o.tag, prepend before .done) :: o.before) ts
        else
          enclose (o :: opens) before
            (.blemish t.stop (.malformed (.otherEnd o.tag.name (endName content))))
    | .tag content =>
      if content.getLast? = some '/' then
        ofTokensFrom opens ((Tag.ofContent t.start content.dropLast, .done) :: before) ts
      else ofTokensFrom (⟨Tag.ofContent t.start content, before⟩ :: opens) [] ts

def Content.ofSource (source : List Char) : Content := ofTokensFrom [] [] (scan source)

end Dissect.Document
