import Dissect.Document.Section

/-! From identifiers to numbers. Colors, fields, blocks and variables are numbered in the order in
which a document first mentions them, by a declaration or by a use, and every identifier that is
mentioned has to be declared somewhere. -/
namespace Dissect.Document

namespace Operand

def vars : Operand Reference → List Reference
  | .literal _ => []
  | .var id => [id]

end Operand

def optionalVars (operand : Option (Operand Reference)) : List Reference :=
  (operand.map Operand.vars).getD []

def guardVars : Guard Reference → List Reference
  | .var id test =>
    id :: match test with
      | .equals o => Operand.vars o
      | .greater o => Operand.vars o
      | .bit o => Operand.vars o
      | .defined => []
  | .bytes _ _ => []

def conditionVars : LoopCondition Reference → List Reference
  | .remaining => []
  | .below id target => id :: Operand.vars target
  | .always => []

structure Mentions where
  colors : List Reference := []
  fields : List Reference := []
  blocks : List Reference := []
  vars : List Reference := []

namespace Mentions

def append (a b : Mentions) : Mentions :=
  ⟨a.colors ++ b.colors, a.fields ++ b.fields, a.blocks ++ b.blocks, a.vars ++ b.vars⟩

instance : Append Mentions := ⟨append⟩

def gather {α : Type} (of : α → Mentions) : List α → Mentions
  | [] => {}
  | a :: as => of a ++ gather of as

def ofAction : Action Reference → Mentions
  | .field s =>
    { fields := [s.field]
      vars := s.var.toList ++ optionalVars s.offset ++ optionalVars s.limit }
  | .block id => { blocks := [id] }
  | .print s => { vars := [s.var] }
  | .exec s => { vars := s.var :: Operand.vars s.operand }
  | .title _ => {}
  | .insert _ => {}

def ofProgram : Program Reference → Mentions
  | .done => {}
  | .act a rest => ofAction a ++ ofProgram rest
  | .guarded g body rest => { vars := guardVars g } ++ (ofProgram body ++ ofProgram rest)
  | .loop g body rest =>
    { vars := conditionVars g.condition } ++ (ofProgram body ++ ofProgram rest)
  | .selection body rest => ofProgram body ++ ofProgram rest

def ofMagicStep : MagicStep Reference → Mentions
  | .pattern _ offset => { vars := optionalVars offset }
  | .capture var _ offset => { vars := var :: optionalVars offset }

def ofColor (d : ColorDecl) : Mentions := { colors := [⟨d.color.id, "color", d.offset⟩] }

def ofField (d : FieldDecl) : Mentions :=
  { colors := d.field.color.toList ++ d.field.accent.toList
    fields := [⟨d.field.id, "field", d.offset⟩] }

def ofBlock (d : BlockDecl) : Mentions :=
  { blocks := [⟨d.id, "block-def", d.offset⟩] } ++ ofProgram d.program

def ofSection : Section → Mentions
  | .endianness .big => {}
  | .endianness .little => {}
  | .endianness (.captured id _ _) => { vars := [id] }
  | .magic signatures => gather (gather ofMagicStep) signatures
  | .colors decls => gather ofColor decls
  | .fields decls => gather ofField decls
  | .blocks decls => gather ofBlock decls
  | .run program => ofProgram program

end Mentions

def firstMentions : List Reference → List Reference
  | [] => []
  | r :: rs => r :: (firstMentions rs).filter (·.id != r.id)

def numberIn (firsts : List Reference) (r : Reference) : Nat := firsts.findIdx (·.id == r.id)

/-- Entry by entry what the identifiers of a table stand for; the first one without a meaning is
reported where it is first mentioned. -/
def resolve {α : Type} (table : Table) (meaning : String → Option α) :
    List Reference → Except Fault (List α)
  | [] => .ok []
  | r :: rs =>
    match meaning r.id with
    | none => .error ⟨r.offset, r.element, .undefined table r.id⟩
    | some a => (resolve table meaning rs).map (a :: ·)

def Mentions.numbering (firsts : Mentions) : Renaming Reference Nat where
  color := numberIn firsts.colors
  field := numberIn firsts.fields
  block := numberIn firsts.blocks
  var := numberIn firsts.vars

namespace Format

def mentions (f : Format) : Mentions := Mentions.gather Mentions.ofSection f.sections

/-- The mentions of fields, with the field for uncovered bytes last. -/
def fieldMentions (f : Format) : List Reference :=
  f.mentions.fields ++ [⟨unusedId, "field-defs", f.offset⟩]

def firsts (f : Format) : Mentions where
  colors := firstMentions f.mentions.colors
  fields := firstMentions f.fieldMentions
  blocks := firstMentions f.mentions.blocks
  vars := firstMentions f.mentions.vars

def endianness (f : Format) : Endianness Reference :=
  (f.sections.findSome? fun | .endianness policy => some policy | _ => none).getD .big

def signatures (f : Format) : List (Signature Reference) :=
  (f.sections.findSome? fun | .magic signatures => some signatures | _ => none).getD []

def colorDecls (f : Format) : List ColorDecl :=
  (f.sections.findSome? fun | .colors decls => some decls | _ => none).getD []

def fieldDecls (f : Format) : List FieldDecl :=
  (f.sections.findSome? fun | .fields decls => some decls | _ => none).getD []

def blockDecls (f : Format) : List BlockDecl :=
  (f.sections.findSome? fun | .blocks decls => some decls | _ => none).getD []

def program (f : Format) : Program Reference :=
  (f.sections.findSome? fun | .run program => some program | _ => none).getD .done

def color? (f : Format) (id : String) : Option Color :=
  (f.colorDecls.find? (·.color.id == id)).map (·.color)

/-- A declared field, or the stand-in for an undeclared field `unused`. -/
def field? (f : Format) (numbering : Renaming Reference Nat) (id : String) :
    Option (FieldDef Nat) :=
  match f.fieldDecls.find? (·.field.id == id) with
  | some d => some (d.field.map numbering.color)
  | none => if id = unusedId then some FieldDef.unused else none

def block? (f : Format) (numbering : Renaming Reference Nat) (id : String) : Option Block :=
  (f.blockDecls.find? (·.id == id)).map fun d => ⟨d.id, (numbering.program d.program).flatten⟩

/-- Sections without which a document means nothing, in the order in which they are missed. -/
def requiredSections : List String := ["endianness", "magic", "colors", "field-defs", "run"]

def missingSection? (f : Format) : Option String :=
  requiredSections.find? fun name => !f.sections.any (·.name == name)

def definition (f : Format) : Except Fault Definition := do
  match f.missingSection? with
  | some name => .error ⟨f.offset, "format", .missingElement name⟩
  | none =>
    let firsts := f.firsts
    let numbering := firsts.numbering
    let colors ← resolve .color f.color? firsts.colors
    let fields ← resolve .field (f.field? numbering) firsts.fields
    let blocks ← resolve .block (f.block? numbering) firsts.blocks
    return {
      name := f.name
      shortName := f.shortName
      endianness := numbering.endianness f.endianness
      colors := colors
      fields := fields
      signatures := f.signatures.map numbering.signature
      blocks := blocks
      program := (numbering.program f.program).flatten
      vars := firsts.vars.map (·.id)
      unused := firsts.fields.findIdx (·.id == unusedId) }

end Format

/-- The definition that a document gives, or the first thing wrong with it. -/
def compile (source : List Char) : Except Error Definition :=
  match Format.ofContent? (Content.ofSource source) with
  | .error fault => .error (fault.locate source)
  | .ok none => .error ⟨Markup.Position.ofOffset source 0, "format", .missingElement "format"⟩
  | .ok (some format) => (format.definition).mapError (·.locate source)

end Dissect.Document
