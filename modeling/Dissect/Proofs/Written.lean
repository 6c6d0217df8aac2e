import Dissect.Proofs.Acceptance
import Dissect.Proofs.Agreement

/-! What the elements of a document write. References are the texts of attributes here, and a row of
steps writes the flat program in which every body stands between the markers of its element. The
readers of a document find what is written. -/
namespace Dissect.Document
open Text

/-! ## Attributes -/

/-- The word a literal stands for. One in hexadecimal digits is read in two's complement. -/
def LiteralValue (cs : List Char) (value : Int64) : Prop :=
  (∃ n, Numeral 10 cs n ∧ n < 1 <<< 63 ∧ value = Int64.ofInt n) ∨
    (∃ digits n, cs = '-' :: digits ∧ Digits 10 digits n ∧ n ≤ 1 <<< 63 ∧
      value = Int64.ofInt (-n)) ∨
    ∃ digits n, (cs = '0' :: 'x' :: digits ∨ cs = '0' :: 'X' :: digits) ∧ Numeral 16 digits n ∧
      n < UInt64.size ∧ value = Int64.ofInt n

/-- Blanks around an operand are left out. What is no literal is the name of a variable. -/
def OperandText (text : String) : Operand String → Prop
  | .literal value => LiteralValue (trim text.toList) value
  | .var name => ¬Literal (trim text.toList) ∧ name = String.ofList (trim text.toList)

def NumberText (text : String) (n : Nat) : Prop := Numeral 10 (trim text.toList) n

namespace Tag
variable (t : Tag)

/-- What an attribute says, and that it is absent where it says nothing. -/
def Says {α : Type} (key : String) (means : String → α → Prop) : Option α → Prop
  | none => t.get? key = none
  | some a => ∃ v, t.get? key = some v ∧ means v a

def Sets (key : String) (flag : Bool) : Prop := flag = true ↔ t.get? key = some "true"

/-! ## Steps -/

def WritesTest : VarTest String → Prop
  | .equals o => t.Says "eq" OperandText (some o)
  | .greater o => t.Says "gt" OperandText (some o)
  | .bit o => t.Says "bit" OperandText (some o)
  | .defined => t.get? "defined" = some "true"

def WritesGuard : Guard String → Prop
  | .bytes pattern convert => t.Says "bytes" HexText (some pattern) ∧ t.Sets "convert" convert
  | .var name test => t.get? "bytes" = none ∧ t.get? "var" = some name ∧ t.WritesTest test

def WritesCondition : LoopCondition String → Prop
  | .remaining => t.get? "remaining" = some "true"
  | .below name target => t.get? "remaining" ≠ some "true" ∧ t.get? "var" = some name ∧
      t.Says "until" OperandText (some target)
  | .always => t.get? "remaining" ≠ some "true" ∧ t.get? "var" = none

def WritesLoop (g : LoopGuard String) : Prop :=
  t.WritesCondition g.condition ∧ t.Says "count" NumberText g.count

def WritesAction : Action String → Prop
  | .field s => t.name = "field" ∧ t.get? "ref" = some s.field ∧ t.get? "var" = s.var ∧
      t.Says "offset" OperandText s.offset ∧ t.Says "limit" OperandText s.limit ∧
      t.get? "tab" = s.tab
  | .block id => t.name = "block" ∧ t.get? "ref" = some id
  | .print s => t.name = "print" ∧ t.get? "label" = some s.label ∧ t.get? "var" = some s.var ∧
      t.get? "tab" = s.tab ∧ t.Sets "suppress" s.suppress ∧ t.Sets "hex" s.hex
  | .exec s => t.name = "exec" ∧ t.get? "var" = some s.var ∧
      t.Says "op" (ArithOp.ofName? · = some ·) (some s.op) ∧
      t.Says "value" OperandText (some s.operand) ∧ t.Sets "signed" s.signed ∧
      t.Says "size" (fun text w => NumberText text w.bytes) s.width
  | .title text => t.name = "section" ∧ t.get? "title" = some text
  | .insert tab => t.name = "insert" ∧ t.get? "tab" = some tab

/-! ## Entries of the other sections -/

def WritesColor (c : Color) : Prop :=
  t.name = "color" ∧ t.get? "id" = some c.id ∧ (t.get? "name").getD c.id = c.name ∧
    t.Says "index" NumberText (some c.index) ∧ t.Sets "background" c.background

def WritesField (f : FieldDef String) : Prop :=
  t.name = "field" ∧ t.get? "id" = some f.id ∧ (t.get? "name").getD f.id = f.name ∧
    t.get? "tag" = f.tag ∧ t.get? "color" = f.color ∧ t.get? "accent" = f.accent ∧
    t.get? "tooltip" = f.tooltip

def WritesMagicStep : MagicStep String → Prop
  | .pattern bytes offset => t.name = "match" ∧ t.Says "value" HexText (some bytes) ∧
      t.Says "offset" OperandText offset
  | .capture var width offset => t.name = "read" ∧ t.get? "var" = some var ∧
      t.Says "size" (fun text (w : Width) => NumberText text w.bytes) (some width) ∧
      t.Says "offset" OperandText offset

def WritesEndianness : Endianness String → Prop
  | .big => t.get? "order" = some "big"
  | .little => t.get? "order" = some "little"
  | .captured var big little => t.get? "order" = some "variable" ∧ t.get? "var" = some var ∧
      t.Says "big" HexText (some big) ∧ t.Says "little" HexText (some little)

end Tag

def Content.WritesSignature (c : Content) (s : Signature String) : Prop :=
  List.Forall₂ (fun t step => t.1.WritesMagicStep step) c.row s

/-- The steps that a row writes: one for an element without a body, and for the others the steps of
the body between a start marker and an end marker of the same kind. -/
inductive Content.Flattens : Content → List (Step String) → Prop where
  | done : Flattens .done []
  | act {tag : Tag} {rest : Content} {a : Action String} {steps : List (Step String)}
    (head : tag.WritesAction a) (tail : Flattens rest steps) :
    Flattens (.element tag .done rest) (.act a :: steps)
  | guarded {tag : Tag} {inner rest : Content} {g : Guard String} {body steps : List (Step String)}
    (name : tag.name = "match") (head : tag.WritesGuard g) (inside : Flattens inner body)
    (tail : Flattens rest steps) :
    Flattens (.element tag inner rest) (.matchStart g :: (body ++ .matchEnd :: steps))
  | loop {tag : Tag} {inner rest : Content} {g : LoopGuard String}
    {body steps : List (Step String)} (name : tag.name = "loop") (head : tag.WritesLoop g)
    (inside : Flattens inner body) (tail : Flattens rest steps) :
    Flattens (.element tag inner rest) (.loopStart g :: (body ++ .loopEnd :: steps))
  | selection {tag : Tag} {inner rest : Content} {body steps : List (Step String)}
    (name : tag.name = "selection") (inside : Flattens inner body) (tail : Flattens rest steps) :
    Flattens (.element tag inner rest) (.selectionStart :: (body ++ .selectionEnd :: steps))

/-! ## Readers find what is written -/

theorem exists_natural {o : Option Nat} {v : Int}
    (h : (o.bind fun n : Nat => some (n : Int)) = some v) :
    ∃ n : Nat, o = some n ∧ (n : Int) = v := by
  obtain ⟨n, hn, hv⟩ := Option.bind_eq_some_iff.1 h
  exact ⟨n, hn, Option.some.inj hv⟩

theorem literalValue_of_signed64? {cs : List Char} {v : Int} (h : signed64? cs = some v) :
    LiteralValue cs (Int64.ofInt v) := by
  unfold signed64? at h
  split at h
  · next rest =>
    obtain ⟨_, hv, rfl⟩ := Option.map_eq_some_iff.1 h
    obtain ⟨n, hn, rfl⟩ := exists_natural hv
    obtain ⟨hn, hle⟩ := Option.filter_eq_some_iff.1 hn
    exact .inr (.inl ⟨rest, n, rfl, natural?_eq_some.1 hn, by simpa using hle, rfl⟩)
  · obtain ⟨_, hv, rfl⟩ := Option.map_eq_some_iff.1 h
    obtain ⟨n, hn, rfl⟩ := exists_natural hv
    obtain ⟨hn, hlt⟩ := unsigned?_eq_some.1 hn
    exact .inl ⟨n, hn, hlt, rfl⟩

theorem literalValue_of_literal? {text : List Char} {value : Int64}
    (h : literal? text = some value) : LiteralValue (trim text) value := by
  unfold literal? at h
  split at h
  · next digits hd =>
    obtain ⟨_, hv, rfl⟩ := Option.map_eq_some_iff.1 h
    obtain ⟨n, hn, rfl⟩ := exists_natural hv
    obtain ⟨hn, hlt⟩ := unsigned?_eq_some.1 hn
    exact .inr (.inr ⟨digits, n, .inl hd, hn, hlt, rfl⟩)
  · next digits hd =>
    obtain ⟨_, hv, rfl⟩ := Option.map_eq_some_iff.1 h
    obtain ⟨n, hn, rfl⟩ := exists_natural hv
    obtain ⟨hn, hlt⟩ := unsigned?_eq_some.1 hn
    exact .inr (.inr ⟨digits, n, .inr hd, hn, hlt, rfl⟩)
  · obtain ⟨v, hv, rfl⟩ := Option.map_eq_some_iff.1 h
    exact literalValue_of_signed64? hv

theorem Element.Spells.operandText {e : Element} {text : String} {o : Operand Reference}
    (h : e.Spells text o) : OperandText text (texts.operand o) := by
  cases o with
  | literal value => exact literalValue_of_literal? h
  | var r =>
    obtain ⟨hl, -, rfl⟩ := h
    refine ⟨fun hlit => ?_, rfl⟩
    obtain ⟨v, hv⟩ := literal?_isSome.2 hlit
    rw [hl] at hv
    cases hv

section Reading
variable {tag : Tag} {depth : Nat} {e : Element} (he : tag.enter depth = .ok e) {key : String}
include he

theorem says_of_gives {α β : Type} {means : String → α → Prop} {means' : String → β → Prop}
    (f : α → β) (hmeans : ∀ v a, means v a → means' v (f a)) {o : Option α}
    (h : e.Gives key means o) : tag.Says key means' (o.map f) := by
  cases o with
  | none => exact (get?_of_enter he key).trans h
  | some a =>
    obtain ⟨v, hv, hm⟩ := h
    exact ⟨v, (get?_of_enter he key).trans hv, hmeans v a hm⟩

theorem get?_of_required {v : String} (h : e.required key = .ok v) : tag.get? key = some v :=
  (get?_of_enter he key).trans (Element.required_eq_ok.1 h)

theorem get?_of_var? {o : Option Reference} (h : e.var? key = .ok o) :
    tag.get? key = o.map (·.id) := by
  have hg := Element.var?_eq_ok.1 h
  rw [get?_of_enter he]
  cases o with
  | none => exact hg
  | some r =>
    obtain ⟨v, hv, -, rfl⟩ := hg
    exact hv

theorem get?_of_var {r : Reference} (h : e.var key = .ok r) : tag.get? key = some r.id :=
  get?_of_var? he (Element.var?_eq_some.2 h)

theorem says_of_operand? {o : Option (Operand Reference)} (h : e.operand? key = .ok o) :
    tag.Says key OperandText (o.map texts.operand) :=
  says_of_gives he _ (fun _ _ hs => hs.operandText) (Element.operand?_eq_ok.1 h)

theorem says_of_hex {bytes : List UInt8} (h : e.hex key = .ok bytes) :
    tag.Says key HexText (some bytes) :=
  says_of_gives he id (fun _ _ hs => hs) (Element.hex_eq_ok.1 h)

theorem says_of_natural? {bound : Nat} {o : Option Nat} (h : e.natural? key bound = .ok o) :
    tag.Says key NumberText o := by
  have hs := says_of_gives he id (fun _ _ hn => hn.1) (Element.natural?_eq_ok.1 h)
  rwa [Option.map_id] at hs

theorem says_of_width? {o : Option Width} (h : e.width? key = .ok o) :
    tag.Says key (fun text w => NumberText text w.bytes) o := by
  have hs := says_of_gives he id (fun _ _ hn => hn) (Element.width?_eq_ok.1 h)
  rwa [Option.map_id] at hs

theorem sets_of_flag {b : Bool} (h : e.flag key = .ok b) : tag.Sets key b := by
  rw [Tag.Sets, get?_of_enter he]
  obtain ⟨rfl, hv⟩ | ⟨rfl, hv⟩ | ⟨rfl, hv⟩ := Element.flag_eq_ok.1 h <;> simp [hv]

theorem writes_test {t : VarTest Reference} (h : e.tests = .ok [t]) :
    tag.WritesTest (texts.test t) := by
  obtain ⟨eq, gt, bit, heq, hgt, hbit, h⟩ := Element.tests_eq_ok.1 h
  obtain ⟨-, hlist⟩ | ⟨hdefined, hlist⟩ := h
  · cases eq with
    | some o =>
      obtain ⟨rfl, -⟩ := List.cons.inj hlist
      exact says_of_operand? he heq
    | none =>
      cases gt with
      | some o =>
        obtain ⟨rfl, -⟩ := List.cons.inj hlist
        exact says_of_operand? he hgt
      | none =>
        cases bit with
        | some o =>
          obtain ⟨rfl, -⟩ := List.cons.inj hlist
          exact says_of_operand? he hbit
        | none => cases hlist
  · cases eq with
    | some o => cases gt <;> cases bit <;> cases hlist
    | none =>
      cases gt with
      | some o => cases bit <;> cases hlist
      | none =>
        cases bit with
        | some o => cases hlist
        | none =>
          obtain ⟨rfl, -⟩ := List.cons.inj hlist
          exact (get?_of_enter he _).trans hdefined

theorem writes_guard {g : Guard Reference} (h : e.guard = .ok g) :
    tag.WritesGuard (texts.guard g) := by
  have hg := Element.guard_eq_ok.1 h
  cases g with
  | bytes pattern convert => exact ⟨says_of_hex he hg.1, sets_of_flag he hg.2.2.1⟩
  | var r t =>
    obtain ⟨hbytes, hvar, htests, -⟩ := hg
    exact ⟨(get?_of_enter he _).trans hbytes, get?_of_var he hvar, writes_test he htests⟩

theorem writes_loop {g : LoopGuard Reference} (h : e.loopGuard = .ok g) :
    tag.WritesLoop (texts.loopGuard g) := by
  obtain ⟨hcount, -, hcondition⟩ := Element.loopGuard_eq_ok.1 h
  have hunset (hr : e.flag "remaining" = .ok false) : tag.get? "remaining" ≠ some "true" :=
    fun hv => Bool.noConfusion ((sets_of_flag he hr).2 hv)
  refine ⟨?_, says_of_natural? he hcount⟩
  obtain ⟨condition, count⟩ := g
  cases condition with
  | remaining => exact (get?_of_enter he _).trans hcondition.1
  | below r o =>
    obtain ⟨hr, hvar, huntil⟩ := hcondition
    exact ⟨hunset hr, get?_of_var he hvar, says_of_operand? he huntil⟩
  | always =>
    obtain ⟨hr, hvar, -⟩ := hcondition
    exact ⟨hunset hr, (get?_of_enter he _).trans hvar⟩

theorem writes_action {a : Action Reference} (h : e.head = .ok (.act a)) :
    tag.WritesAction (texts.action a) := by
  have hname := name_of_enter he
  have hh := head_eq_ok.1 h
  cases a with
  | field s =>
    obtain ⟨hn, hs⟩ := hh
    simp only [Element.fieldStep, bind_eq_ok, pure_eq_ok] at hs
    obtain ⟨v, hv, var, hvar, offset, hoffset, limit, hlimit, _, -, rfl⟩ := hs
    exact ⟨hname.trans hn, get?_of_required he hv, get?_of_var? he hvar,
      says_of_operand? he hoffset, says_of_operand? he hlimit, get?_of_enter he _⟩
  | block r =>
    obtain ⟨hn, -, v, hv, rfl⟩ := hh
    exact ⟨hname.trans hn, get?_of_required he hv⟩
  | print s =>
    obtain ⟨hn, hs⟩ := hh
    simp only [Element.printStep, bind_eq_ok, pure_eq_ok] at hs
    obtain ⟨label, hlabel, var, hvar, suppress, hsuppress, hex, hhex, _, -, rfl⟩ := hs
    exact ⟨hname.trans hn, get?_of_required he hlabel, get?_of_var he hvar, get?_of_enter he _,
      sets_of_flag he hsuppress, sets_of_flag he hhex⟩
  | exec s =>
    obtain ⟨hn, hs⟩ := hh
    simp only [Element.execStep, bind_eq_ok] at hs
    obtain ⟨var, hvar, name, hop, hs⟩ := hs
    cases ho : ArithOp.ofName? name with
    | none =>
      rw [ho] at hs
      cases hs
    | some op =>
      simp only [ho, pure_bind, bind_eq_ok, Element.demand_eq_ok, pure_eq_ok] at hs
      obtain ⟨_, hvalue, value, rfl, signed, hsigned, width, hwidth, _, -, rfl⟩ := hs
      exact ⟨hname.trans hn, get?_of_var he hvar, ⟨name, get?_of_required he hop, ho⟩,
        says_of_operand? he hvalue, sets_of_flag he hsigned, says_of_width? he hwidth⟩
  | title text => exact ⟨hname.trans hh.1, get?_of_required he hh.2.2⟩
  | insert tab => exact ⟨hname.trans hh.1, get?_of_required he hh.2.2⟩

theorem writes_color {inner : Content} {x : ColorDecl} (h : x.Read e inner) :
    tag.WritesColor x.color := by
  obtain ⟨hn, hid, hindex, hbackground, -, -, hname, -⟩ := h
  refine ⟨(name_of_enter he).trans hn, get?_of_required he hid, ?_, says_of_natural? he hindex,
    sets_of_flag he hbackground⟩
  rw [get?_of_enter he, hname]

theorem writes_field {inner : Content} {x : FieldDecl} (h : x.Read e inner) :
    tag.WritesField (x.field.map texts.color) := by
  obtain ⟨hn, hid, -, ⟨_, _, -, hfield⟩, -⟩ := h
  obtain ⟨_, _, -, -, -, -, -, hf⟩ := FieldParts.field_eq_ok.1 hfield
  have href {o : Option Reference} {key : String} (ho : (e.get? key).map e.mention = o) :
      tag.get? key = o.map (·.id) := by
    rw [get?_of_enter he, ← ho, Option.map_map]
    exact Option.map_id'.symm
  refine ⟨(name_of_enter he).trans hn, get?_of_required he hid, ?_, ?_,
    href (congrArg FieldDef.color hf), href (congrArg FieldDef.accent hf), ?_⟩
  · rw [get?_of_enter he]
    exact congrArg FieldDef.name hf
  · rw [get?_of_enter he]
    exact congrArg FieldDef.tag hf
  · rw [get?_of_enter he]
    exact congrArg FieldDef.tooltip hf

theorem writes_magicStep {inner : Content} {x : MagicStep Reference}
    (h : MagicStep.Read e inner x) :
    tag.WritesMagicStep (texts.magicStep x) := by
  cases x with
  | pattern bytes offset =>
    obtain ⟨hn, hbytes, hoffset, -⟩ := h
    exact ⟨(name_of_enter he).trans hn, says_of_hex he hbytes, says_of_operand? he hoffset⟩
  | capture var width offset =>
    obtain ⟨hn, hvar, hwidth, hoffset, -⟩ := h
    exact ⟨(name_of_enter he).trans hn, get?_of_var he hvar, says_of_width? he hwidth,
      says_of_operand? he hoffset⟩

theorem writes_endianness {policy : Endianness Reference} (h : e.endianness = .ok policy) :
    tag.WritesEndianness (texts.endianness policy) := by
  simp only [Element.endianness, bind_eq_ok] at h
  obtain ⟨order, horder, h⟩ := h
  have hg := get?_of_required he horder
  split at h
  · simp only [bind_eq_ok, pure_eq_ok] at h
    obtain ⟨_, -, rfl⟩ := h
    exact hg
  · simp only [bind_eq_ok, pure_eq_ok] at h
    obtain ⟨_, -, rfl⟩ := h
    exact hg
  · simp only [bind_eq_ok, check_eq_ok, pure_eq_ok] at h
    obtain ⟨r, hr, big, hbig, little, hlittle, -, _, -, rfl⟩ := h
    exact ⟨hg, get?_of_var he hr, says_of_hex he hbig, says_of_hex he hlittle⟩
  · cases h

end Reading

theorem writes_signature {c : Content} {s : Signature Reference} {depth : Nat}
    (h : c.Each depth MagicStep.Read s) : c.WritesSignature (texts.signature s) := by
  refine List.forall₂_map_right_iff.2 (h.forall₂.imp ?_)
  intro t step hstep
  obtain ⟨e, he, hread⟩ := hstep
  exact writes_magicStep he hread

theorem flattens_of_program {parent : String} {depth : Nat} {c : Content} {p : Program Reference}
    (h : c.program parent depth = .ok p) : c.Flattens (texts.program p).flatten := by
  induction c generalizing parent depth p with
  | done =>
    cases h
    exact .done
  | blemish offset cause => cases h
  | element tag inner rest ihinner ihrest =>
    obtain ⟨e, head, body, after, he, hhead, hbody, hleaf, hafter, rfl⟩ := program_element.1 h
    have hname := name_of_enter he
    cases head with
    | act a =>
      obtain rfl := hleaf rfl
      obtain rfl := program_eq_done.1 hbody
      exact .act (writes_action he hhead) (ihrest hafter)
    | guarded g =>
      obtain ⟨hn, hg⟩ := head_eq_ok.1 hhead
      exact .guarded (hname.trans hn) (writes_guard he hg) (ihinner hbody) (ihrest hafter)
    | loop g =>
      obtain ⟨hn, hg⟩ := head_eq_ok.1 hhead
      exact .loop (hname.trans hn) (writes_loop he hg) (ihinner hbody) (ihrest hafter)
    | selection =>
      obtain ⟨hn, -⟩ := head_eq_ok.1 hhead
      exact .selection (hname.trans hn) (ihinner hbody) (ihrest hafter)

end Dissect.Document
