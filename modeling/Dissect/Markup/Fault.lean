/-! What can be wrong with the markup itself, apart from what the elements mean. -/
namespace Dissect.Markup

inductive Construct where
  | tag
  | comment
  | cdata
  | doctype
  | instruction
  deriving DecidableEq, Repr

def Construct.unclosedText : Construct → String
  | .tag => "tag not closed: `>`"
  | .comment => "comment not closed: `-->`"
  | .cdata => "CDATA not closed: `]]>`"
  | .doctype => "DOCTYPE not closed: `>`"
  | .instruction => "processing instruction or xml declaration not closed: `?>`"

inductive ReferenceFault where
  | sign
  | noDigits
  | badDigit
  | tooLarge
  | null
  | noCharacter (code : Nat)
  deriving DecidableEq, Repr

def ReferenceFault.message : ReferenceFault → String
  | .sign => "unexpected number sign"
  | .noDigits => "cannot parse integer from empty string"
  | .badDigit => "invalid digit found in string"
  | .tooLarge => "number too large to fit in target type"
  | .null => "0x0 character is not permitted in XML"
  | .noCharacter code => "`" ++ toString code ++ "` is not a valid codepoint"

/-- Faults inside a tag. Places count bytes from just after the `<`, or within the value. -/
inductive TagFault where
  | noEquals (place : Nat)
  | repeatedKey (place earlier : Nat)
  | noQuote (place : Nat)
  | noValue (place : Nat)
  | openQuote (place : Nat) (quote : Char)
  | unknownEntity (first last : Nat) (name : String)
  | openEntity (first last : Nat)
  | badReference (fault : ReferenceFault)
  deriving DecidableEq, Repr

def TagFault.message : TagFault → String
  | .noEquals p =>
    "position " ++ toString p ++ ": attribute key must be directly followed by `=` or space"
  | .repeatedKey p q =>
    "position " ++ toString p ++ ": duplicated attribute, previous declaration at position " ++
      toString q
  | .noQuote p =>
    "position " ++ toString p ++ ": attribute value must be enclosed in `\"` or `'`"
  | .noValue p => "position " ++ toString p ++ ": `=` must be followed by an attribute value"
  | .openQuote p quote =>
    "position " ++ toString p ++ ": missing closing quote `" ++ quote.toString ++
      "` in attribute value"
  | .unknownEntity s e name =>
    "at " ++ toString s ++ ".." ++ toString e ++ ": unrecognized entity `" ++ name ++ "`"
  | .openEntity s e =>
    "Error while escaping character at range " ++ toString s ++ ".." ++ toString e ++
      ": Cannot find ';' after '&'"
  | .badReference fault => "invalid character reference: " ++ fault.message

inductive Fault where
  | unclosed (construct : Construct)
  | unknown
  | unmatchedEnd (name : String)
  | otherEnd (expected found : String)
  | unnamedDoctype
  | unclosedElement
  | inTag (fault : TagFault)
  deriving DecidableEq, Repr

def Fault.message : Fault → String
  | .unclosed construct =>
    "syntax error: " ++ construct.unclosedText ++ " not found before end of input"
  | .unknown => "syntax error: unknown or missed symbol in markup"
  | .unmatchedEnd name =>
    "ill-formed document: close tag `</" ++ name ++ ">` does not match any open tag"
  | .otherEnd expected found =>
    "ill-formed document: expected `</" ++ expected ++ ">`, but `</" ++ found ++ ">` was found"
  | .unnamedDoctype =>
    "ill-formed document: `<!DOCTYPE>` declaration does not contain a name of a document type"
  | .unclosedElement => "element is never closed"
  | .inTag fault => fault.message

end Dissect.Markup
