import Dissect.Document.Tables
import Dissect.Proofs.Checks

/-! What a definition consists of that a document compiles to: every identifier that is mentioned
has a number and, under the number, its meaning. -/
namespace Dissect.Document
variable {declared : Table → String → Prop}

namespace Mentions

def ofTable (m : Mentions) : Table → List Reference
  | .color => m.colors
  | .field => m.fields
  | .block => m.blocks

def Declared (declared : Table → String → Prop) (m : Mentions) : Prop :=
  ∀ table, ∀ r ∈ m.ofTable table, declared table r.id

@[simp] theorem ofTable_append (a b : Mentions) (table : Table) :
    (a ++ b).ofTable table = a.ofTable table ++ b.ofTable table := by
  cases table <;> rfl

@[simp] theorem declared_append {a b : Mentions} :
    (a ++ b).Declared declared ↔ a.Declared declared ∧ b.Declared declared := by
  simp only [Declared, ofTable_append, List.forall_mem_append, forall_and]

end Mentions

theorem resolve_eq_ok {α : Type} {table : Table} {meaning : String → Option α}
    {rs : List Reference} {entries : List α} :
    resolve table meaning rs = .ok entries ↔ rs.map (meaning ·.id) = entries.map some := by
  induction rs generalizing entries with
  | nil =>
    cases entries <;> simp [resolve]
  | cons r rs ih =>
    rw [resolve]
    cases hm : meaning r.id with
    | none => cases entries <;> simp [hm]
    | some a =>
      simp only [map_eq_ok, ih, List.map_cons, hm]
      cases entries with
      | nil => simp
      | cons b entries =>
        simp only [List.cons.injEq, List.map_cons, Option.some.injEq]
        constructor
        · rintro ⟨_, h, rfl, rfl⟩
          exact ⟨rfl, h⟩
        · rintro ⟨rfl, h⟩
          exact ⟨entries, h, rfl, rfl⟩

theorem exists_resolved {α : Type} {meaning : String → Option α} {rs : List Reference} :
    (∃ entries : List α, rs.map (meaning ·.id) = entries.map some) ↔
      ∀ r ∈ rs, (meaning r.id).isSome := by
  induction rs with
  | nil => simp
  | cons r rs ih =>
    rw [List.forall_mem_cons, ← ih]
    constructor
    · intro h
      obtain ⟨entries, h⟩ := h
      cases entries with
      | nil => cases h
      | cons a entries =>
        rw [List.map_cons, List.map_cons, List.cons.injEq] at h
        exact ⟨by rw [h.1]; rfl, entries, h.2⟩
    · intro h
      obtain ⟨hr, entries, h⟩ := h
      obtain ⟨a, ha⟩ := Option.isSome_iff_exists.1 hr
      exact ⟨a :: entries, by rw [List.map_cons, List.map_cons, ha, h]⟩

theorem forall_firstMentions {p : String → Prop} {rs : List Reference} :
    (∀ r ∈ firstMentions rs, p r.id) ↔ ∀ r ∈ rs, p r.id := by
  induction rs with
  | nil => rfl
  | cons r rs ih =>
    rw [firstMentions, List.forall_mem_cons, List.forall_mem_cons, ← ih]
    refine and_congr_right fun hr => ?_
    constructor
    · intro h s hs
      by_cases hid : s.id = r.id
      · rw [hid]
        exact hr
      · exact h s (List.mem_filter.2 ⟨hs, by simpa using hid⟩)
    · intro h s hs
      exact h s (List.mem_filter.1 hs).1

def Section.declares : Section → Table → List String
  | .colors decls, .color => decls.map (·.color.id)
  | .fields decls, .field => decls.map (·.field.id)
  | .blocks decls, .block => decls.map (·.id)
  | _, _ => []

theorem Mentions.declared_gather {α : Type} {of : α → Mentions} {as : List α} :
    (gather of as).Declared declared ↔ ∀ a ∈ as, (of a).Declared declared := by
  induction as with
  | nil =>
    simp only [gather, List.not_mem_nil, false_implies, implies_true, iff_true]
    intro table r hr
    cases table <;> cases hr
  | cons a as ih => rw [gather, declared_append, ih, List.forall_mem_cons]

namespace Format

theorem definition_eq_ok {f : Format} {d : Definition} :
    f.definition = .ok d ↔ f.missingSection? = none ∧
      f.firsts.colors.map (f.color? ·.id) = d.colors.map some ∧
      f.firsts.fields.map (f.field? f.firsts.numbering ·.id) = d.fields.map some ∧
      f.firsts.blocks.map (f.block? f.firsts.numbering ·.id) = d.blocks.map some ∧
      d = {
        name := f.name
        shortName := f.shortName
        endianness := f.firsts.numbering.endianness f.endianness
        colors := d.colors
        fields := d.fields
        signatures := f.signatures.map f.firsts.numbering.signature
        blocks := d.blocks
        program := (f.firsts.numbering.program f.program).flatten
        vars := f.firsts.vars.map (·.id)
        unused := f.firsts.fields.findIdx (·.id == unusedId) } := by
  rw [definition]
  cases f.missingSection? with
  | some name => simp
  | none =>
    simp only [bind_eq_ok, resolve_eq_ok, pure_eq_ok, true_and]
    constructor
    · rintro ⟨colors, hc, fields, hf, blocks, hb, rfl⟩
      exact ⟨hc, hf, hb, rfl⟩
    · rintro ⟨hc, hf, hb, hd⟩
      exact ⟨d.colors, hc, d.fields, hf, d.blocks, hb, hd.symm⟩

theorem missingSection?_eq_none {f : Format} :
    f.missingSection? = none ↔ ∀ name ∈ requiredSections, name ∈ f.sections.map Section.name := by
  simp [missingSection?]

def Declares (f : Format) (table : Table) (id : String) : Prop :=
  (∃ s ∈ f.sections, id ∈ s.declares table) ∨ table = .field ∧ id = unusedId

/-- `read` is what the sections of one sort have; there is one of them at most in the formats that
matter, and `a₀` stands for none. -/
structure Reads {α : Type} (make : α → Section) (a₀ : α) (read : Format → α) : Prop where
  name : ∀ a b, (make a).name = (make b).name
  sort : ∀ s a, s.name = (make a).name → ∃ b, s = make b
  look : ∃ g : Section → Option α, (∀ s a, g s = some a ↔ s = make a) ∧
    ∀ f, read f = (f.sections.findSome? g).getD a₀

section Reads
variable {α : Type} {make : α → Section} {a₀ : α} {read : Format → α}

theorem Reads.injective (h : Reads make a₀ read) : Function.Injective make := by
  obtain ⟨g, hg, -⟩ := h.look
  intro a b hab
  have ha : g (make a) = some a := (hg _ a).2 rfl
  rw [hab, (hg _ b).2 rfl] at ha
  exact (Option.some.inj ha).symm

theorem Reads.mem_or_eq (h : Reads make a₀ read) (f : Format) :
    make (read f) ∈ f.sections ∨ read f = a₀ ∧ ∀ a, make a ∉ f.sections := by
  obtain ⟨g, hg, hread⟩ := h.look
  rw [hread]
  cases hfind : f.sections.findSome? g with
  | some a =>
    obtain ⟨s, hs, ha⟩ := List.exists_of_findSome?_eq_some hfind
    rw [(hg s a).1 ha] at hs
    exact .inl hs
  | none =>
    refine .inr ⟨rfl, ?_⟩
    intro a hs
    have ha : g (make a) = none := List.findSome?_eq_none_iff.1 hfind _ hs
    rw [(hg _ a).2 rfl] at ha
    cases ha

variable {f : Format} (hn : (f.sections.map (·.name)).Nodup)
include hn

theorem Reads.eq_of_mem (h : Reads make a₀ read) {a : α} (hs : make a ∈ f.sections) :
    read f = a := by
  cases h.mem_or_eq f with
  | inl hread => exact h.injective (List.inj_on_of_nodup_map hn hread hs (h.name _ _))
  | inr hnone => exact absurd hs (hnone.2 a)

theorem Reads.find?_isSome {make : List α → Section} {read : Format → List α}
    (h : Reads make [] read) {table : Table} {key : α → String}
    (hdeclares : ∀ xs id, id ∈ (make xs).declares table ↔ id ∈ xs.map key)
    (hother : ∀ s id, id ∈ s.declares table → ∃ xs, s = make xs) (id : String) :
    ((read f).find? (key · == id)).isSome ↔ ∃ s ∈ f.sections, id ∈ s.declares table := by
  have hfind : ((read f).find? (key · == id)).isSome ↔ id ∈ (read f).map key := by
    simp only [List.find?_isSome, beq_iff_eq, List.mem_map]
  rw [hfind]
  constructor
  · intro hid
    cases h.mem_or_eq f with
    | inl hs => exact ⟨_, hs, (hdeclares _ id).2 hid⟩
    | inr hnone =>
      rw [hnone.1] at hid
      cases hid
  · intro hid
    obtain ⟨s, hs, hid⟩ := hid
    obtain ⟨xs, rfl⟩ := hother s id hid
    rw [h.eq_of_mem hn hs]
    exact (hdeclares xs id).1 hid

end Reads

theorem reads_endianness : Reads Section.endianness .big endianness := by
  refine ⟨fun _ _ => rfl, ?_, _, ?_, fun _ => rfl⟩
  · intro s _ hs
    cases s <;> simp [Section.name] at hs ⊢
  · intro s _
    cases s <;> simp

theorem reads_signatures : Reads Section.magic [] signatures := by
  refine ⟨fun _ _ => rfl, ?_, _, ?_, fun _ => rfl⟩
  · intro s _ hs
    cases s <;> simp [Section.name] at hs ⊢
  · intro s _
    cases s <;> simp

theorem reads_colors : Reads Section.colors [] colorDecls := by
  refine ⟨fun _ _ => rfl, ?_, _, ?_, fun _ => rfl⟩
  · intro s _ hs
    cases s <;> simp [Section.name] at hs ⊢
  · intro s _
    cases s <;> simp

theorem reads_fields : Reads Section.fields [] fieldDecls := by
  refine ⟨fun _ _ => rfl, ?_, _, ?_, fun _ => rfl⟩
  · intro s _ hs
    cases s <;> simp [Section.name] at hs ⊢
  · intro s _
    cases s <;> simp

theorem reads_blocks : Reads Section.blocks [] blockDecls := by
  refine ⟨fun _ _ => rfl, ?_, _, ?_, fun _ => rfl⟩
  · intro s _ hs
    cases s <;> simp [Section.name] at hs ⊢
  · intro s _
    cases s <;> simp

theorem reads_program : Reads Section.run .done program := by
  refine ⟨fun _ _ => rfl, ?_, _, ?_, fun _ => rfl⟩
  · intro s _ hs
    cases s <;> simp [Section.name] at hs ⊢
  · intro s _
    cases s <;> simp

variable {f : Format}

theorem color?_isSome (hn : (f.sections.map (·.name)).Nodup) {id : String} :
    (f.color? id).isSome ↔ f.Declares .color id := by
  have hfind : (f.colorDecls.find? (·.color.id == id)).isSome ↔
      ∃ s ∈ f.sections, id ∈ s.declares .color := by
    apply reads_colors.find?_isSome hn
    · intro _ _
      rfl
    · intro s _ hid
      cases s <;> simp [Section.declares] at hid ⊢
  rw [color?, Option.isSome_map, hfind, Declares]
  simp

theorem block?_isSome (hn : (f.sections.map (·.name)).Nodup) {numbering : Renaming Reference Nat}
    {id : String} : (f.block? numbering id).isSome ↔ f.Declares .block id := by
  have hfind : (f.blockDecls.find? (·.id == id)).isSome ↔
      ∃ s ∈ f.sections, id ∈ s.declares .block := by
    apply reads_blocks.find?_isSome hn
    · intro _ _
      rfl
    · intro s _ hid
      cases s <;> simp [Section.declares] at hid ⊢
  rw [block?, Option.isSome_map, hfind, Declares]
  simp

theorem field?_isSome (hn : (f.sections.map (·.name)).Nodup) {numbering : Renaming Reference Nat}
    {id : String} : (f.field? numbering id).isSome ↔ f.Declares .field id := by
  have hfind : (f.fieldDecls.find? (·.field.id == id)).isSome ↔
      ∃ s ∈ f.sections, id ∈ s.declares .field := by
    apply reads_fields.find?_isSome hn
    · intro _ _
      rfl
    · intro s _ hid
      cases s <;> simp [Section.declares] at hid ⊢
  rw [Declares, ← hfind, field?]
  cases f.fieldDecls.find? (·.field.id == id) with
  | none => simp
  | some d => simp

/-- A definition is made of sections that are all there, with nothing in them undeclared. -/
theorem exists_definition (hn : (f.sections.map (·.name)).Nodup) :
    (∃ d, f.definition = .ok d) ↔
      f.missingSection? = none ∧ f.mentions.Declared f.Declares := by
  have hcolors : (∃ colors : List Color, f.firsts.colors.map (f.color? ·.id) = colors.map some) ↔
      ∀ r ∈ f.mentions.colors, f.Declares .color r.id := by
    rw [exists_resolved]
    simp only [color?_isSome hn]
    exact @forall_firstMentions (f.Declares .color) _
  have hblocks : (∃ blocks : List Block,
      f.firsts.blocks.map (f.block? f.firsts.numbering ·.id) = blocks.map some) ↔
      ∀ r ∈ f.mentions.blocks, f.Declares .block r.id := by
    rw [exists_resolved]
    simp only [block?_isSome hn]
    exact @forall_firstMentions (f.Declares .block) _
  have hunused : f.Declares .field unusedId := .inr ⟨rfl, rfl⟩
  have hfields : (∃ fields : List (FieldDef Nat),
      f.firsts.fields.map (f.field? f.firsts.numbering ·.id) = fields.map some) ↔
      ∀ r ∈ f.mentions.fields, f.Declares .field r.id := by
    rw [exists_resolved]
    simp only [field?_isSome hn]
    refine (@forall_firstMentions (f.Declares .field) f.fieldMentions).trans ?_
    simp only [fieldMentions, List.forall_mem_append, List.forall_mem_singleton, hunused, and_true]
  constructor
  · intro h
    obtain ⟨d, hd⟩ := h
    obtain ⟨hmissing, hc, hf, hb, -⟩ := definition_eq_ok.1 hd
    refine ⟨hmissing, fun table => ?_⟩
    cases table with
    | color => exact hcolors.1 ⟨_, hc⟩
    | field => exact hfields.1 ⟨_, hf⟩
    | block => exact hblocks.1 ⟨_, hb⟩
  · intro h
    obtain ⟨hmissing, hd⟩ := h
    obtain ⟨colors, hc⟩ := hcolors.2 (hd .color)
    obtain ⟨fields, hf⟩ := hfields.2 (hd .field)
    obtain ⟨blocks, hb⟩ := hblocks.2 (hd .block)
    simp only [definition, hmissing, bind_eq_ok, resolve_eq_ok, pure_eq_ok]
    exact ⟨_, colors, hc, fields, hf, blocks, hb, rfl⟩

end Format

theorem field?_unused (f : Format) (numbering : Renaming Reference Nat) :
    f.field? numbering unusedId ≠ none := by
  rw [Format.field?]
  split <;> simp

theorem compile_eq_ok {source : List Char} {d : Definition} :
    compile source = .ok d ↔
      ∃ f, Format.ofContent? (Content.ofSource source) = .ok (some f) ∧ f.definition = .ok d := by
  rw [compile]
  cases Format.ofContent? (Content.ofSource source) with
  | error fault => simp
  | ok found =>
    cases found with
    | none => simp
    | some f => simp [mapError_eq_ok]

end Dissect.Document
