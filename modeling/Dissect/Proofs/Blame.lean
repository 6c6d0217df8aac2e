import Dissect.Proofs.Acceptance
import Dissect.Proofs.Standing

/-! Whose fault it is when a document cannot be read. A reader of an element blames this element or
one inside it, and says of its attributes only what is so. -/
namespace Dissect

/-! ### Faults of a sequence of checks -/

/-- If it fails, it does so with a fault of this kind. -/
def Faults {ε α : Type} (P : ε → Prop) (x : Except ε α) : Prop := ∀ e, x = .error e → P e

section Faults
variable {ε ε' α β : Type} {P : ε → Prop}

@[simp] theorem faults_ok (a : α) : Faults P (.ok a) := nofun

@[simp] theorem faults_pure (a : α) : Faults P (pure a : Except ε α) := nofun

@[simp] theorem faults_error {e : ε} : Faults P (.error e : Except ε α) ↔ P e := by
  simp [Faults]

@[simp] theorem faults_bind {x : Except ε α} {f : α → Except ε β} :
    Faults P (x >>= f) ↔ Faults P x ∧ ∀ a, x = .ok a → Faults P (f a) := by
  cases x <;> simp

@[simp] theorem faults_ite {p : Prop} [Decidable p] {x y : Except ε α} :
    Faults P (if p then x else y) ↔ (p → Faults P x) ∧ (¬p → Faults P y) := by
  by_cases h : p <;> simp [h]

@[simp] theorem faults_map {x : Except ε α} {f : α → β} :
    Faults P (x.map f) ↔ Faults P x := by
  cases x <;> simp [Except.map]

@[simp] theorem faults_functor_map {x : Except ε α} {f : α → β} :
    Faults P (f <$> x) ↔ Faults P x := faults_map

@[simp] theorem faults_mapError {x : Except ε α} {P : ε' → Prop} {f : ε → ε'} :
    Faults P (x.mapError f) ↔ Faults (fun e => P (f e)) x := by
  cases x <;> simp [Except.mapError]

@[simp] theorem forall_ok_none {x : Except ε (Option α)} {p : Prop} :
    (∀ o, x = .ok o → o = none → p) ↔ (x = .ok none → p) := by
  constructor
  · intro h hx
    exact h none hx rfl
  · rintro h _ hx rfl
    exact h hx

@[simp] theorem forall_ok_some {x : Except ε (Option α)} {p : α → Prop} :
    (∀ o, x = .ok o → ∀ a, o = some a → p a) ↔ ∀ a, x = .ok (some a) → p a := by
  constructor
  · intro h a hx
    exact h (some a) hx a rfl
  · rintro h _ hx a rfl
    exact h a hx

theorem Faults.mono {x : Except ε α} {Q : ε → Prop} (h : Faults P x) (hpq : ∀ e, P e → Q e) :
    Faults Q x := fun e he => hpq e (h e he)

end Faults

namespace Document
open Text

/-- What a cause says about the attributes of the element that is blamed. -/
def Cause.Shows (said : String → Option String) : Cause → Prop
  | .missingAttribute key => said key = none
  | .unexpectedAttribute key => said key ≠ none
  | .invalidAttribute key _ _ => said key ≠ none
  | .malformedHex text => ∃ key, said key = some text
  | .undefined _ id => ∃ key, said key = some id
  | .malformed _ | .unexpectedText _ | .unexpectedElement | .missingElement _ | .duplicate _
  | .maskOnVariableSize | .tooDeep | .invalid _ => True

structure Tag.Blames (t : Tag) (f : Fault) : Prop where
  offset : f.offset = t.offset
  element : f.element = t.name
  shows : f.cause.Shows t.get?

structure Element.Blames (e : Element) (f : Fault) : Prop where
  offset : f.offset = e.offset
  element : f.element = e.name
  shows : f.cause.Shows e.get?

namespace Element
variable {e : Element} {key : String}

@[simp] theorem blames_fault {cause : Cause} : e.Blames (e.fault cause) ↔ cause.Shows e.get? := by
  constructor
  · intro h
    exact h.shows
  · intro h
    exact ⟨rfl, rfl, h⟩

@[simp] theorem blames_invalid {value reason : String} :
    e.Blames (e.invalid key value reason) ↔ e.get? key ≠ none := blames_fault

theorem faults_fault {α : Type} {cause : Cause} (h : cause.Shows e.get?) :
    Faults e.Blames (.error (e.fault cause) : Except Fault α) := faults_error.2 (blames_fault.2 h)

theorem faults_invalid {α : Type} {value reason : String} (h : e.get? key ≠ none) :
    Faults e.Blames (.error (e.invalid key value reason) : Except Fault α) := faults_fault h

/-! ### Attributes -/

@[simp] theorem faults_demand {α : Type} {o : Option α} :
    Faults e.Blames (e.demand key o) ↔ (o = none → e.get? key = none) := by
  cases o <;> simp [demand, Cause.Shows]

theorem ne_none {v : String} (h : e.get? key = some v) : e.get? key ≠ none := by
  simp [h]

theorem required_ne_none {v : String} (h : e.required key = .ok v) : e.get? key ≠ none :=
  ne_none (required_eq_ok.1 h)

theorem Gives.ne_none {α : Type} {means : String → α → Prop} {a : α}
    (h : e.Gives key means (some a)) : e.get? key ≠ none := by
  obtain ⟨v, hv, -⟩ := h
  exact Element.ne_none hv

@[simp] theorem faults_required : Faults e.Blames (e.required key) := by
  simp [required]

@[simp] theorem faults_flag : Faults e.Blames (e.flag key) := by
  unfold flag
  split
  · exact faults_ok _
  · exact faults_ok _
  · exact faults_ok _
  · next h => exact faults_invalid (ne_none h)

@[simp] theorem faults_natural? {bound : Nat} : Faults e.Blames (e.natural? key bound) := by
  unfold natural?
  split
  · exact faults_ok _
  · next text h =>
    split
    · exact faults_ok _
    · exact faults_invalid (ne_none h)

@[simp] theorem faults_width? : Faults e.Blames (e.width? key) := by
  unfold width?
  split
  · exact faults_ok _
  · next text h =>
    split
    · exact faults_ok _
    · exact faults_invalid (ne_none h)

@[simp] theorem faults_hex? : Faults e.Blames (e.hex? key) := by
  unfold hex?
  split
  · exact faults_ok _
  · next text h =>
    split
    · exact faults_ok _
    · exact faults_fault ⟨key, h⟩

@[simp] theorem faults_hex : Faults e.Blames (e.hex key) := by
  simp [hex]

@[simp] theorem faults_var? : Faults e.Blames (e.var? key) := by
  unfold var?
  split
  · exact faults_ok _
  · next name h =>
    split
    · exact faults_ok _
    · exact faults_invalid (ne_none h)

@[simp] theorem faults_var : Faults e.Blames (e.var key) := by
  simp [var]

@[simp] theorem faults_operand? : Faults e.Blames (e.operand? key) := by
  unfold operand?
  split
  · exact faults_ok _
  · next text h =>
    split
    · exact faults_ok _
    · exact faults_ite.2 ⟨fun _ => faults_ok _, fun _ => faults_invalid (ne_none h)⟩

@[simp] theorem faults_only {keys : List String} : Faults e.Blames (e.only keys) := by
  unfold only
  split
  · next a h =>
    have ha : a ∈ e.attributes := List.mem_of_find?_eq_some h
    refine faults_fault ?_
    intro hnone
    exact get?_eq_none.1 hnone a ha rfl
  · simp

@[simp] theorem faults_once {α : Type} {o : Option α} : Faults e.Blames (e.once o) := by
  cases o <;> simp [once, Cause.Shows]

/-! ### Parts of fields -/

@[simp] theorem faults_size : Faults e.Blames e.size := by
  have hinvalid (reason : String) :
      Faults e.Blames (.error (e.fault (.invalid reason)) : Except Fault SizeRule) :=
    faults_fault trivial
  rw [Element.size, faults_bind]
  refine ⟨faults_natural?, fun fixed hfixed => ?_⟩
  rw [faults_bind]
  refine ⟨faults_flag, fun remaining _ => ?_⟩
  rw [faults_bind]
  refine ⟨faults_hex?, fun terminator hterminator => ?_⟩
  cases fixed with
  | some n =>
    have hseen : e.get? "fixed" ≠ none := (natural?_eq_ok.1 hfixed).ne_none
    cases remaining with
    | true => cases n <;> exact hinvalid _
    | false =>
      cases terminator with
      | some bytes => cases n <;> exact hinvalid _
      | none =>
        cases n with
        | zero => exact faults_invalid hseen
        | succ n => exact faults_ok _
  | none =>
    cases remaining with
    | true =>
      cases terminator with
      | some bytes => exact hinvalid _
      | none => exact faults_ok _
    | false =>
      cases terminator with
      | none => exact hinvalid _
      | some bytes =>
        have hseen : e.get? "terminator" ≠ none := (hex?_eq_ok.1 hterminator).ne_none
        cases bytes with
        | nil => exact faults_invalid hseen
        | cons byte bytes =>
          cases bytes with
          | nil => exact faults_ok _
          | cons byte' bytes => exact faults_invalid hseen

@[simp] theorem faults_mask : Faults e.Blames e.mask := by
  simp only [mask, faults_bind, faults_hex, faults_ite, faults_error, blames_invalid, faults_pure,
    true_and, implies_true, and_true]
  intro bytes hbytes _
  exact (hex_eq_ok.1 hbytes).ne_none

@[simp] theorem faults_shift : Faults e.Blames e.shift := by
  simp only [shift, faults_bind, faults_natural?, faults_demand, demand_eq_ok, faults_ite,
    faults_error, blames_invalid, faults_pure, true_and, implies_true, and_true, imp_and,
    forall_and, forall_ok_none, forall_ok_some]
  constructor
  · exact natural?_eq_none.1
  · intro bits hbits _
    exact (natural?_eq_ok.1 hbits).ne_none

@[simp] theorem faults_encoding : Faults e.Blames e.encoding := by
  simp only [encoding, faults_bind, faults_required, true_and]
  intro value hvalue
  split
  · exact faults_pure _
  · exact faults_invalid (required_ne_none hvalue)

@[simp] theorem faults_printMode : Faults e.Blames e.printMode := by
  simp only [printMode, faults_bind, faults_required, true_and]
  intro value hvalue
  split
  · exact faults_pure _
  · exact faults_invalid (required_ne_none hvalue)

/-! ### Steps -/

@[simp] theorem faults_tests : Faults e.Blames e.tests := by
  have hdefined (h : e.has "defined" = true) : e.get? "defined" ≠ none := by
    intro hnone
    rw [has_eq_false.2 hnone] at h
    cases h
  simp only [tests, faults_bind, faults_operand?, faults_ite, faults_flag, faults_error,
    blames_invalid, faults_pure, true_and, implies_true, and_true]
  intro _ _ _ _ _ _ h _ _ _
  exact hdefined h

@[simp] theorem faults_guard : Faults e.Blames e.guard := by
  simp only [guard, faults_bind, faults_hex?, true_and]
  intro bytes _
  cases bytes with
  | some pattern => simp [Cause.Shows]
  | none =>
    simp only [faults_bind, faults_var, faults_tests, true_and]
    intro var _ ts _
    split <;> simp [Cause.Shows]

@[simp] theorem faults_loopGuard : Faults e.Blames e.loopGuard := by
  simp only [loopGuard, faults_bind, faults_flag, faults_var?, faults_operand?, faults_natural?,
    true_and]
  intro remaining _ var hvar target htarget count _
  split
  · simp
  · simp
  · simp [Cause.Shows]
  · exact faults_fault trivial
  · exact faults_fault (operand?_eq_none.1 htarget)
  · exact faults_fault (var?_eq_none.1 hvar)

@[simp] theorem faults_fieldStep : Faults e.Blames e.fieldStep := by
  simp [fieldStep]

@[simp] theorem faults_printStep : Faults e.Blames e.printStep := by
  simp [printStep]

@[simp] theorem faults_execStep : Faults e.Blames e.execStep := by
  simp only [execStep, faults_bind, faults_var, faults_required, true_and]
  intro var _ name hname
  split
  · simp [operand?_eq_none]
  · exact faults_invalid (required_ne_none hname)

@[simp] theorem faults_head : Faults e.Blames e.head := by
  unfold head
  split <;> simp [Cause.Shows]

@[simp] theorem faults_endianness : Faults e.Blames e.endianness := by
  simp only [endianness, faults_bind, faults_required, true_and]
  intro order horder
  split
  · simp
  · simp
  · simp only [faults_bind, faults_var, faults_hex, faults_ite, faults_error, blames_invalid,
      faults_only, faults_pure, true_and, implies_true, and_true]
    intro _ _ _ _ little hlittle _
    exact (hex_eq_ok.1 hlittle).ne_none
  · exact faults_invalid (required_ne_none horder)

end Element

/-! ### Rows -/

/-- A fault of some content: it is found at a tag in it, or it is what stands there in place of an
element. -/
def Content.Blames (c : Content) (f : Fault) : Prop :=
  f.cause ∈ c.blemishes ∨ ∃ t ∈ c.tags, t.Blames f

def Within (e : Element) (inner : Content) (f : Fault) : Prop := e.Blames f ∨ inner.Blames f

theorem faults_enter {tag : Tag} {depth : Nat} : Faults tag.Blames (tag.enter depth) := by
  unfold Tag.enter
  split
  · exact faults_error.2 ⟨rfl, rfl, trivial⟩
  · split
    · exact faults_error.2 ⟨rfl, rfl, trivial⟩
    · exact faults_ok _

theorem Element.Blames.tag {tag : Tag} {depth : Nat} {e : Element} (he : tag.enter depth = .ok e)
    {f : Fault} (h : e.Blames f) : tag.Blames f := by
  have hget : tag.get? = e.get? := funext (get?_of_enter he)
  obtain ⟨-, attributes, -, rfl⟩ := enter_eq_ok.1 he
  exact ⟨h.offset, h.element, hget ▸ h.shows⟩

namespace Content
variable {tag : Tag} {inner rest : Content} {depth : Nat} {parent : String} {f : Fault}

theorem Blames.of_tag (h : tag.Blames f) : (element tag inner rest).Blames f :=
  .inr ⟨tag, mem_tags_self, h⟩

theorem Blames.of_rest (h : rest.Blames f) : (element tag inner rest).Blames f := by
  refine h.imp ?_ ?_
  · exact List.mem_append_right _
  · rintro ⟨t, ht, hf⟩
    exact ⟨t, mem_tags_rest ht, hf⟩

theorem Blames.of_inner (h : inner.Blames f) : (element tag inner rest).Blames f := by
  refine h.imp ?_ ?_
  · exact List.mem_append_left _
  · rintro ⟨t, ht, hf⟩
    exact ⟨t, mem_tags_inner ht, hf⟩

theorem Blames.of_within {e : Element} (he : tag.enter depth = .ok e) (h : Within e inner f) :
    (element tag inner rest).Blames f :=
  h.elim (fun h => .of_tag (h.tag he)) .of_inner

theorem faults_fold {β : Type} {read : β → Element → Content → Except Fault β}
    (h : ∀ acc e inner, Faults (Within e inner) (read acc e inner)) (c : Content) (acc : β) :
    Faults c.Blames (c.fold parent depth read acc) := by
  induction c generalizing acc with
  | done => exact faults_ok _
  | blemish offset cause => exact faults_error.2 (.inl (List.mem_singleton_self cause))
  | element tag inner rest _ ih =>
    rw [fold, faults_bind]
    refine ⟨faults_enter.mono fun f => .of_tag, fun e he => ?_⟩
    rw [faults_bind]
    refine ⟨(h acc e inner).mono fun f => .of_within he, fun acc _ => ?_⟩
    exact (ih acc).mono fun f => .of_rest

theorem faults_nothing (c : Content) : Faults c.Blames (c.nothing parent depth) := by
  refine faults_fold ?_ c ()
  intro _ e _
  exact faults_error.2 (.inl (Element.blames_fault.2 trivial))

theorem faults_program (c : Content) : Faults c.Blames (c.program parent depth) := by
  induction c generalizing parent depth with
  | done => exact faults_ok _
  | blemish offset cause => exact faults_error.2 (.inl (List.mem_singleton_self cause))
  | element tag inner rest ihinner ihrest =>
    rw [program, faults_bind]
    refine ⟨faults_enter.mono fun f => .of_tag, fun e he => ?_⟩
    rw [faults_bind]
    refine ⟨Element.faults_head.mono fun f h => .of_tag (h.tag he), fun head _ => ?_⟩
    have hinner (parent : String) (depth : Nat) :
        Faults (element tag inner rest).Blames (inner.program parent depth) :=
      ihinner.mono fun f => .of_inner
    have hrest : Faults (element tag inner rest).Blames (rest.program parent depth) :=
      ihrest.mono fun f => .of_rest
    have hnothing : Faults (element tag inner rest).Blames (inner.nothing e.name (depth + 1)) :=
      inner.faults_nothing.mono fun f => .of_inner
    cases head <;> simp [hinner, hrest, hnothing]

end Content

/-! ### Declarations -/

section Within
variable {e : Element} {inner : Content}

theorem within_of_blames {α : Type} {x : Except Fault α} (h : Faults e.Blames x) :
    Faults (Within e inner) x := h.mono fun _ => .inl

theorem within_of_content {α : Type} {x : Except Fault α} (h : Faults inner.Blames x) :
    Faults (Within e inner) x := h.mono fun _ => .inr

@[simp] theorem within_unexpected : Within e inner (e.fault .unexpectedElement) :=
  .inl (Element.blames_fault.2 trivial)

@[simp] theorem within_missing {name : String} : Within e inner (e.fault (.missingElement name)) :=
  .inl (Element.blames_fault.2 trivial)

@[simp] theorem within_duplicate {what : String} : Within e inner (e.fault (.duplicate what)) :=
  .inl (Element.blames_fault.2 trivial)

theorem within_demand {α : Type} {x : Except Fault (Option α)} {key : String}
    (hx : x = .ok none ↔ e.get? key = none) {o : Option α} (ho : x = .ok o) :
    Faults (Within e inner) (e.demand key o) :=
  within_of_blames (Element.faults_demand.2 fun hnone => hx.1 (hnone ▸ ho))

theorem faults_bits (parts : FieldParts) (size : SizeRule) :
    Faults (Cause.Shows e.get?) (parts.bits size) := by
  unfold FieldParts.bits
  split
  · exact faults_ok _
  · split
    · split
      · exact faults_error.2 trivial
      · split
        · exact faults_ok _
        · split
          · exact faults_error.2 trivial
          · exact faults_ok _
    · exact faults_error.2 trivial

theorem faults_checkOptions (size : SizeRule) (bits : Option BitField)
    (options : List OptionEntry) :
    Faults (Cause.Shows e.get?) (checkOptions size bits options) := by
  unfold checkOptions
  split
  · split
    · exact faults_error.2 trivial
    · exact faults_ok _
  · exact faults_ok _

theorem faults_field (parts : FieldParts) (id : String) :
    Faults (Cause.Shows e.get?) (parts.field id e) := by
  have hmissing (name : String) : (Cause.missingElement name).Shows e.get? := trivial
  cases hsize : parts.size with
  | none => simp [FieldParts.field, hsize, hmissing]
  | some size => simp [FieldParts.field, hsize, hmissing, faults_bits, faults_checkOptions]

theorem faults_addColor (decls : List ColorDecl) (e : Element) (inner : Content) :
    Faults (Within e inner) (addColor decls e inner) := by
  have hindex {o : Option Nat} (ho : e.natural? "index" UInt32.size = .ok o) :
      Faults (Within e inner) (e.demand "index" o) := within_demand Element.natural?_eq_none ho
  simp +contextual [addColor, within_of_blames, within_of_content, Content.faults_nothing, hindex]

theorem faults_addOption (entries : List OptionEntry) (e : Element) (inner : Content) :
    Faults (Within e inner) (addOption entries e inner) := by
  simp [addOption, within_of_blames, within_of_content, Content.faults_nothing]

theorem faults_addFlag (entries : List FlagEntry) (e : Element) (inner : Content) :
    Faults (Within e inner) (addFlag entries e inner) := by
  have hmask {bytes : List UInt8} {text reason : String} (h : e.hex "mask" = .ok bytes) :
      Within e inner (e.invalid "mask" text reason) :=
    .inl (Element.blames_invalid.2 (Element.hex_eq_ok.1 h).ne_none)
  simp only [addFlag, faults_bind, faults_ite, error_bind, faults_error, within_unexpected,
    implies_true, true_and]
  intro _
  refine ⟨within_of_blames Element.faults_required, fun name _ => ?_⟩
  refine ⟨within_of_blames Element.faults_hex, fun bytes hbytes => ?_⟩
  split
  · exact faults_error.2 (hmask hbytes)
  · simp [within_of_blames, within_of_content, Content.faults_nothing, hmask hbytes]

theorem faults_addPart (parts : FieldParts) (e : Element) (inner : Content) :
    Faults (Within e inner) (addPart parts e inner) := by
  unfold addPart
  split
  all_goals
    simp [within_of_blames, within_of_content, Content.faults_nothing,
      Content.faults_fold faults_addOption, Content.faults_fold faults_addFlag]

theorem faults_addField (decls : List FieldDecl) (e : Element) (inner : Content) :
    Faults (Within e inner) (addField decls e inner) := by
  have hfield (parts : FieldParts) (id : String) :
      Faults (fun cause => Within e inner (e.fault cause)) (parts.field id e) :=
    (faults_field parts id).mono fun cause h => .inl (Element.blames_fault.2 h)
  simp [addField, within_of_blames, within_of_content, hfield, Content.faults_fold faults_addPart]

theorem faults_addMagicStep (steps : Signature Reference) (e : Element) (inner : Content) :
    Faults (Within e inner) (addMagicStep steps e inner) := by
  have hsize {o : Option Width} (ho : e.width? "size" = .ok o) :
      Faults (Within e inner) (e.demand "size" o) := within_demand Element.width?_eq_ok ho
  unfold addMagicStep
  split
  all_goals
    simp +contextual [within_of_blames, within_of_content, Content.faults_nothing, hsize]

theorem faults_addSignature (signatures : List (Signature Reference)) (e : Element)
    (inner : Content) : Faults (Within e inner) (addSignature signatures e inner) := by
  simp [addSignature, within_of_blames, within_of_content, Content.faults_fold faults_addMagicStep]

theorem faults_addBlock (decls : List BlockDecl) (e : Element) (inner : Content) :
    Faults (Within e inner) (addBlock decls e inner) := by
  simp [addBlock, within_of_blames, within_of_content, Content.faults_program]

theorem faults_readSection (e : Element) (inner : Content) :
    Faults (Within e inner) (readSection e inner) := by
  unfold readSection
  split
  all_goals
    simp [within_of_blames, within_of_content, Content.faults_nothing, Content.faults_program,
      Content.faults_fold faults_addSignature, Content.faults_fold faults_addColor,
      Content.faults_fold faults_addField, Content.faults_fold faults_addBlock]

theorem faults_addSection (sections : List Section) (e : Element) (inner : Content) :
    Faults (Within e inner) (addSection sections e inner) := by
  simp [addSection, faults_readSection]

theorem faults_readRoot (found : Option Format) (e : Element) (inner : Content) :
    Faults (Within e inner) (readRoot found e inner) := by
  simp [readRoot, within_of_blames, within_of_content, Content.faults_fold faults_addSection]

end Within

/-- A document that cannot be read is at fault in one of its elements, or in what stands in place of
one. -/
theorem faults_ofContent? (c : Content) : Faults c.Blames (Format.ofContent? c) :=
  Content.faults_fold faults_readRoot c none

end Document
end Dissect
