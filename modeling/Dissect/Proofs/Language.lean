import Dissect.Document.Tables

/-! The language of documents, as a grammar: which elements stand in which, what their attributes
may be, and what has to hold between the elements of one row. Nothing here is about the order in
which a document is read. -/
namespace Dissect.Document
open Text

/-! ## Texts of attributes -/

/-- At least one digit and nothing else, read as a number. -/
def Digits (radix : Nat) (cs : List Char) (n : Nat) : Prop :=
  cs ≠ [] ∧ (∀ c ∈ cs, (digit? radix c).isSome) ∧
    cs.foldl (fun acc c => acc * radix + (digit? radix c).getD 0) 0 = n

/-- Digits, with or without a plus sign. -/
def Numeral (radix : Nat) (cs : List Char) (n : Nat) : Prop :=
  Digits radix cs n ∨ ∃ digits, cs = '+' :: digits ∧ Digits radix digits n

/-- A decimal integer that fits in 64 bits of two's complement, or a hexadecimal word. -/
def Literal (cs : List Char) : Prop :=
  (∃ n, Numeral 10 cs n ∧ n < 1 <<< 63) ∨
    (∃ digits n, cs = '-' :: digits ∧ Digits 10 digits n ∧ n ≤ 1 <<< 63) ∨
    ∃ digits n, (cs = '0' :: 'x' :: digits ∨ cs = '0' :: 'X' :: digits) ∧ Numeral 16 digits n ∧
      n < UInt64.size

inductive Pairs : List Char → List UInt8 → Prop
  | nil : Pairs [] []
  | cons {hi lo : Char} {h l : Nat} {cs : List Char} {bytes : List UInt8} :
    digit? 16 hi = some h → digit? 16 lo = some l → Pairs cs bytes →
      Pairs (hi :: lo :: cs) (UInt8.ofNat (16 * h + l) :: bytes)

/-- At least one byte in hexadecimal digits, blanks around them left out. -/
def HexText (text : String) (bytes : List UInt8) : Prop :=
  bytes ≠ [] ∧ Pairs (trim text.toList) bytes

inductive Kind where
  | text
  | oneOf (values : List String)
  | natural (fits : Nat → Prop)
  | hex (fits : List UInt8 → Prop)
  | identifier
  | operand
  | reference (table : Table)

def Kind.flag : Kind := .oneOf ["true", "false"]

def Kind.width : Kind := .natural (· ∈ [1, 2, 4, 8])

/-- The texts of a kind. `declared` says which identifiers stand for something. -/
def Kind.Accepts (declared : Table → String → Prop) : Kind → String → Prop
  | .text, _ => True
  | .oneOf values, v => v ∈ values
  | .natural fits, v => ∃ n, Numeral 10 (trim v.toList) n ∧ fits n
  | .hex fits, v => ∃ bytes, HexText v bytes ∧ fits bytes
  | .identifier, v => isIdentifier v.toList
  | .operand, v => Literal (trim v.toList) ∨ isIdentifier (trim v.toList)
  | .reference table, v => declared table v

structure AttributeRule where
  key : String
  kind : Kind
  required : Bool

def needs (key : String) (kind : Kind) : AttributeRule := ⟨key, kind, true⟩

def takes (key : String) (kind : Kind) : AttributeRule := ⟨key, kind, false⟩

@[simp] theorem needs_key (key : String) (kind : Kind) : (needs key kind).key = key := rfl

@[simp] theorem takes_key (key : String) (kind : Kind) : (takes key kind).key = key := rfl

def AttributeRule.Holds (declared : Table → String → Prop) (e : Element) (r : AttributeRule) :
    Prop :=
  match e.get? r.key with
  | some v => r.kind.Accepts declared v
  | none => r.required = false

def Element.Keeps (declared : Table → String → Prop) (e : Element) (rules : List AttributeRule) :
    Prop :=
  ∀ r ∈ rules, r.Holds declared e

/-- Every attribute has a rule, and every rule is kept. -/
def Element.Obeys (declared : Table → String → Prop) (e : Element) (rules : List AttributeRule) :
    Prop :=
  (∀ a ∈ e.attributes, a.key ∈ rules.map (·.key)) ∧ e.Keeps declared rules

/-! ## Rows of elements -/

abbrev Row := List (Tag × Content)

def Content.row : Content → Row
  | .done => []
  | .blemish _ _ => []
  | .element tag inner rest => (tag, inner) :: rest.row

def Tag.get? (t : Tag) (key : String) : Option String :=
  match t.attributes with
  | .ok attributes => (attributes.find? (·.key == key)).map (·.value)
  | .error _ => none

namespace Row

def names (r : Row) : List String := r.map (·.1.name)

def values (key : String) (r : Row) : List String := r.filterMap (·.1.get? key)

def named (name : String) (r : Row) : Row := r.filter (·.1.name == name)

def inside (name : String) (r : Row) : Row := (r.named name).flatMap (·.2.row)

end Row

structure FieldRules (parts : Row) : Prop where
  once : parts.names.Nodup
  sized : "size" ∈ parts.names
  /-- Only a fixed size of at most eight bytes can be cut to bits. -/
  cut : "mask" ∈ parts.names ∨ "shift" ∈ parts.names →
    ∃ text ∈ (parts.named "size").values "fixed", ∃ n, Numeral 10 (trim text.toList) n ∧ n ≤ 8 ∧
      ∀ mask ∈ (parts.named "mask").values "value", ∀ bytes, HexText mask bytes → bytes.length ≤ n
  options : "options" ∈ (parts.named "print").values "mode" → "options" ∈ parts.names
  flags : "flags" ∈ (parts.named "print").values "mode" → "flags" ∈ parts.names
  /-- An option is as long as the field, unless the field is cut to bits. -/
  patterns : "mask" ∉ parts.names → "shift" ∉ parts.names →
    ∀ text ∈ (parts.named "size").values "fixed", ∀ n, Numeral 10 (trim text.toList) n →
      ∀ pattern ∈ (parts.inside "options").values "value", ∀ bytes, HexText pattern bytes →
        bytes.length = n

/-! ## The grammar -/

inductive Context where
  | document
  | format
  | magic
  | signature
  | colors
  | fields
  | field
  | options
  | flags
  | blocks
  | program
  | leaf

/-- One way to write an element: its attributes, where its content is, and what else has to hold. -/
structure Form where
  rules : List AttributeRule
  inner : Context := .leaf
  demands : Element → Content → Prop := fun _ _ => True

/-- The elements of a context. An element that is given more than once has several forms and is
written in one of them. -/
def Context.elements : Context → List (String × Form)
  | .document =>
    [("format",
      { rules := [needs "name" .text, needs "short" .text]
        inner := .format
        demands := fun _ content => content.row.names.Nodup ∧
          ∀ name ∈ ["endianness", "magic", "colors", "field-defs", "run"],
            name ∈ content.row.names })]
  | .format =>
    [("endianness", { rules := [needs "order" (.oneOf ["big", "little"])] }),
     ("endianness",
      { rules := [needs "order" (.oneOf ["variable"]), needs "var" .identifier,
          needs "big" (.hex fun _ => True), needs "little" (.hex fun _ => True)]
        demands := fun e _ => ∀ big little bytes, e.get? "big" = some big →
          e.get? "little" = some little → ¬(HexText big bytes ∧ HexText little bytes) }),
     ("magic", ⟨[], .magic, fun _ content => content.row ≠ []⟩),
     ("colors", ⟨[], .colors, fun _ content => (content.row.values "id").Nodup⟩),
     ("field-defs", ⟨[], .fields, fun _ content => (content.row.values "id").Nodup⟩),
     ("block-defs", ⟨[], .blocks, fun _ content => (content.row.values "id").Nodup⟩),
     ("run", { rules := [], inner := .program })]
  | .magic => [("signature", ⟨[], .signature, fun _ content => content.row ≠ []⟩)]
  | .signature =>
    [("match", { rules := [needs "value" (.hex fun _ => True), takes "offset" .operand] }),
     ("read", { rules := [needs "var" .identifier, needs "size" .width, takes "offset" .operand] })]
  | .colors =>
    [("color",
      { rules := [needs "id" .text, needs "index" (.natural (· < UInt32.size)), takes "name" .text,
          takes "background" .flag] })]
  | .fields =>
    [("field",
      { rules := [needs "id" .text, takes "color" (.reference .color),
          takes "accent" (.reference .color), takes "name" .text, takes "tag" .text,
          takes "tooltip" .text]
        inner := .field
        demands := fun _ content => FieldRules content.row })]
  | .field =>
    [("size",
      { rules := [needs "fixed" (.natural fun n => 1 ≤ n ∧ n < UInt64.size),
          takes "remaining" (.oneOf ["false"])] }),
     ("size", { rules := [needs "remaining" (.oneOf ["true"])] }),
     ("size",
      { rules :=
          [needs "terminator" (.hex (·.length = 1)), takes "remaining" (.oneOf ["false"])] }),
     ("mask", { rules := [needs "value" (.hex (·.length ≤ 8))] }),
     ("shift", { rules := [needs "bits" (.natural (· < 64))] }),
     ("encoding",
      { rules := [needs "value" (.oneOf ["ascii", "utf8", "latin1", "utf16le", "utf16be"])] }),
     ("print",
      { rules := [needs "mode"
          (.oneOf ["raw", "hex", "int", "uint", "text", "options", "flags"])] }),
     ("options", ⟨[], .options, fun _ content => content.row ≠ []⟩),
     ("flags", ⟨[], .flags, fun _ content => content.row ≠ []⟩)]
  | .options =>
    [("option", { rules := [needs "name" .text, needs "value" (.hex fun _ => True)] })]
  | .flags =>
    [("flag",
      { rules := [needs "name" .text,
          needs "mask" (.hex fun bytes => bytes.length ≤ 8 ∧ ∃ b ∈ bytes, b ≠ 0),
          takes "meaning" .text] })]
  | .blocks => [("block-def", { rules := [needs "id" .text], inner := .program })]
  | .program =>
    [("field",
      { rules := [needs "ref" (.reference .field), takes "var" .identifier,
          takes "offset" .operand, takes "limit" .operand, takes "tab" .text] }),
     ("match",
      { rules := [needs "bytes" (.hex fun _ => True), takes "convert" .flag], inner := .program }),
     ("match", { rules := [needs "var" .identifier, needs "eq" .operand], inner := .program }),
     ("match", { rules := [needs "var" .identifier, needs "gt" .operand], inner := .program }),
     ("match", { rules := [needs "var" .identifier, needs "bit" .operand], inner := .program }),
     ("match",
      { rules := [needs "var" .identifier, needs "defined" (.oneOf ["true"])]
        inner := .program }),
     ("loop",
      { rules := [needs "remaining" (.oneOf ["true"]), takes "count" (.natural (· < UInt64.size))]
        inner := .program }),
     ("loop",
      { rules := [needs "var" .identifier, needs "until" .operand,
          takes "remaining" (.oneOf ["false"]), takes "count" (.natural (· < UInt64.size))]
        inner := .program }),
     ("loop",
      { rules := [needs "count" (.natural (· < UInt64.size)), takes "remaining" (.oneOf ["false"])]
        inner := .program }),
     ("selection", { rules := [], inner := .program }),
     ("block", { rules := [needs "ref" (.reference .block)] }),
     ("print",
      { rules := [needs "label" .text, needs "var" .identifier, takes "tab" .text,
          takes "suppress" .flag, takes "hex" .flag] }),
     ("exec",
      { rules := [needs "var" .identifier,
          needs "op" (.oneOf ["set", "mod", "add", "sub", "mul", "div"]), needs "value" .operand,
          takes "signed" .flag, takes "size" .width] }),
     ("section", { rules := [needs "title" .text] }),
     ("insert", { rules := [needs "tab" .text] })]
  | .leaf => []

/-- Every element of the row is one of the context, with everything in it, and none is nested too
deep. -/
def Content.Conforms (declared : Table → String → Prop) : Context → Nat → Content → Prop
  | _, _, .done => True
  | _, _, .blemish _ _ => False
  | context, depth, .element tag inner rest =>
    depth ≤ maxNesting ∧
      (∃ attributes form, tag.attributes = .ok attributes ∧ (tag.name, form) ∈ context.elements ∧
        Element.Obeys declared ⟨tag.name, tag.offset, attributes⟩ form.rules ∧
        form.demands ⟨tag.name, tag.offset, attributes⟩ inner ∧
        inner.Conforms declared form.inner (depth + 1)) ∧
      rest.Conforms declared context depth

def Table.section : Table → String
  | .color => "colors"
  | .field => "field-defs"
  | .block => "block-defs"

/-- The field `unused` stands for something even where no element declares it. -/
def Content.Declares (doc : Content) (table : Table) (id : String) : Prop :=
  id ∈ ((doc.row.inside "format").inside table.section).values "id" ∨
    table = .field ∧ id = unusedId

structure Content.InLanguage (doc : Content) : Prop where
  root : doc.row.names = ["format"]
  conforms : doc.Conforms doc.Declares .document 1

end Dissect.Document
