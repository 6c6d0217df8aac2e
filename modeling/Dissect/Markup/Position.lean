import Dissect.Text.Blank

/-! Places in a source text. Offsets count bytes; lines and columns start at one, and columns
count characters. -/
namespace Dissect.Markup
open Text

structure Position where
  line : Nat
  column : Nat
  offset : Nat
  deriving DecidableEq, Repr

def Position.text (p : Position) : String := toString p.line ++ ":" ++ toString p.column

def afterBytes : Nat → List Char → Option (List Char)
  | 0, cs => some cs
  | _ + 1, [] => none
  | n + 1, c :: cs => if c.utf8Size ≤ n + 1 then afterBytes (n + 1 - c.utf8Size) cs else none

def skipBlank (source : List Char) (offset : Nat) : Nat :=
  match afterBytes offset source with
  | some rest => offset + utf8Length (rest.takeWhile isBlank)
  | none => offset

/-- Line and column after `left` more bytes, given the line and how many characters and bytes of
it are past. Inside a character the column counts bytes. -/
def advance (line chars bytes : Nat) : Nat → List Char → Nat × Nat
  | 0, _ => (line, chars + 1)
  | _ + 1, [] => (line, chars + 1)
  | left + 1, c :: cs =>
    if left + 1 < c.utf8Size then (line, bytes + (left + 1) + 1)
    else if c = '\n' then advance (line + 1) 0 0 left cs
    else advance line (chars + 1) (bytes + c.utf8Size) (left + 1 - c.utf8Size) cs

/-- The position of an offset; one past the end counts as the end. -/
def Position.ofOffset (source : List Char) (offset : Nat) : Position :=
  let stop := min offset (utf8Length source)
  let (line, column) := advance 1 0 0 stop source
  ⟨line, column, stop⟩

/-- The position that is reported for something that begins at `offset` or after blanks there. -/
def Position.ofStart (source : List Char) (offset : Nat) : Position :=
  Position.ofOffset source (skipBlank source offset)

end Dissect.Markup
