import Dissect.Markup.Fault
import Dissect.Text.Blank

/-! A source text cut into pieces of markup and of text. The reader goes from character to
character; each token remembers where the one before it ended and where it ends itself. Blanks
before a piece belong to none. -/
namespace Dissect.Markup
open Text

inductive Piece where
  | tag (content : List Char)
  | text (content : List Char)
  | cdata
  | ignored
  | broken (fault : Fault)
  deriving DecidableEq, Repr

structure Token where
  start : Nat
  stop : Nat
  piece : Piece
  deriving DecidableEq, Repr

/-- Constructs that begin with `<!`. -/
inductive Declared where
  | comment
  | cdata
  | doctype
  deriving DecidableEq, Repr

/-- What the reader is in the middle of; texts are kept last character first. -/
inductive Mode where
  | between
  | text (kept : List Char)
  | opened
  | tag (quote : Option Char) (kept : List Char)
  | exclaimed
  | declared (what : Declared) (kept : List Char)
  | instruction (kept : List Char)

inductive Feed where
  | more (mode : Mode)
  | textEnds (content : List Char)
  | pieceEnds (piece : Piece)
  /-- The character before this one is the last that could be understood. -/
  | refused

def beginsWith (word content : List Char) : Bool :=
  (content.take word.length).map Char.toUpper == word

def Declared.ends : Declared → List Char → Bool
  | .comment, kept => 5 ≤ kept.length && kept.take 2 == ['-', '-']
  | .cdata, kept => kept.take 2 == [']', ']']
  | .doctype, kept => kept.count '<' == kept.count '>'

def Declared.piece (what : Declared) (content : List Char) : Piece :=
  match what with
  | .comment =>
    if content.take 3 == "!--".toList then .ignored else .broken (.unclosed .comment)
  | .cdata =>
    if content.take 8 == "![CDATA[".toList then .cdata else .broken (.unclosed .cdata)
  | .doctype =>
    if beginsWith "!DOCTYPE".toList content then
      if (content.drop 8).all isMarkupBlank then .broken .unnamedDoctype else .ignored
    else .broken (.unclosed .doctype)

def Declared.construct : Declared → Construct
  | .comment => .comment
  | .cdata => .cdata
  | .doctype => .doctype

/-- A tag goes on to the first closing bracket outside quotes. -/
def tagFeed (quote : Option Char) (kept : List Char) (c : Char) : Feed :=
  match quote with
  | some q => .more (.tag (if c = q then none else some q) (c :: kept))
  | none =>
    if c = '>' then .pieceEnds (.tag kept.reverse)
    else .more (.tag (if c = '"' ∨ c = '\'' then some c else none) (c :: kept))

def Mode.feed (mode : Mode) (c : Char) : Feed :=
  match mode with
  | .between =>
    if c = '<' then .more .opened
    else if isMarkupBlank c then .more .between
    else .more (.text [c])
  | .text kept => if c = '<' then .textEnds kept.reverse else .more (.text (c :: kept))
  | .opened =>
    if c = '!' then .more .exclaimed
    else if c = '?' then .more (.instruction ['?'])
    else tagFeed none [] c
  | .tag quote kept => tagFeed quote kept c
  | .exclaimed =>
    if c = '-' then .more (.declared .comment ['-', '!'])
    else if c = '[' then .more (.declared .cdata ['[', '!'])
    else if c = 'D' ∨ c = 'd' then .more (.declared .doctype [c, '!'])
    else .refused
  | .declared what kept =>
    if c = '>' ∧ what.ends kept then .pieceEnds (what.piece kept.reverse)
    else .more (.declared what (c :: kept))
  | .instruction kept =>
    if c = '>' ∧ kept.head? = some '?' then
      .pieceEnds (if kept.length = 1 then .broken (.unclosed .instruction) else .ignored)
    else .more (.instruction (c :: kept))

def Mode.atEnd (start pos : Nat) : Mode → List Token
  | .between => []
  | .text kept => [⟨start, pos, .text kept.reverse⟩]
  | .opened => [⟨start, pos, .broken (.unclosed .tag)⟩]
  | .tag _ _ => [⟨start, pos, .broken (.unclosed .tag)⟩]
  | .exclaimed => [⟨start, pos - 1, .broken .unknown⟩]
  | .declared what _ => [⟨start, pos, .broken (.unclosed what.construct)⟩]
  | .instruction _ => [⟨start, pos, .broken (.unclosed .instruction)⟩]

/-- Reads on at offset `pos`; the token before ended at `start`. Nothing is read after a broken
piece. -/
def scanFrom (start pos : Nat) : Mode → List Char → List Token
  | mode, [] => mode.atEnd start pos
  | mode, c :: cs =>
    match mode.feed c with
    | .more mode => scanFrom start (pos + c.utf8Size) mode cs
    | .textEnds content => ⟨start, pos, .text content⟩ :: scanFrom pos (pos + c.utf8Size) .opened cs
    | .pieceEnds (.broken fault) => [⟨start, pos + c.utf8Size, .broken fault⟩]
    | .pieceEnds piece =>
      ⟨start, pos + c.utf8Size, piece⟩ ::
        scanFrom (pos + c.utf8Size) (pos + c.utf8Size) .between cs
    | .refused => [⟨start, pos - 1, .broken .unknown⟩]

/-- The tokens of a source. A byte order mark in front is dropped and counts for no bytes. -/
def scan : List Char → List Token
  | '\ufeff' :: cs => scanFrom 0 0 .between cs
  | cs => scanFrom 0 0 .between cs

end Dissect.Markup
