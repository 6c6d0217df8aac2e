import Dissect.Proofs.Programs

/-! Which documents compile: those of the language, and no others. -/
namespace Dissect.Document
variable {declared : Table → String → Prop} {parent : String} {depth : Nat}

/-! Sections. -/

/-- What a section refers to is declared. -/
def Section.Bound (declared : Table → String → Prop) : Section → Prop
  | .fields decls => ∀ d ∈ decls, ∀ r ∈ d.field.color.toList ++ d.field.accent.toList,
      declared .color r.id
  | .blocks decls => ∀ d ∈ decls, (Mentions.ofProgram d.program).Declared declared
  | .run program => (Mentions.ofProgram program).Declared declared
  | _ => True

theorem exists_endianness {e : Element} : (∃ policy, e.endianness = .ok policy) ↔
    (e.only ["order"] = .ok () ∧ ∃ v ∈ ["big", "little"], e.get? "order" = some v) ∨
    (e.only ["order", "var", "big", "little"] = .ok () ∧ e.get? "order" = some "variable" ∧
      (∃ r, e.var "var" = .ok r) ∧ (∃ bytes, e.hex "big" = .ok bytes) ∧
      (∃ bytes, e.hex "little" = .ok bytes) ∧ ∀ big little bytes, e.get? "big" = some big →
        e.get? "little" = some little → ¬(HexText big bytes ∧ HexText little bytes)) := by
  have hdiffer {big little : List UInt8} (hbig : e.hex "big" = .ok big)
      (hlittle : e.hex "little" = .ok little) : big ≠ little ↔
      ∀ b l bytes, e.get? "big" = some b → e.get? "little" = some l →
        ¬(HexText b bytes ∧ HexText l bytes) := by
    obtain ⟨b, hb, hbb⟩ := Element.hex_eq_ok.1 hbig
    obtain ⟨l, hl, hll⟩ := Element.hex_eq_ok.1 hlittle
    rw [hb, hl]
    constructor
    · intro hne b' l' bytes hb' hl' hboth
      cases hb'
      cases hl'
      exact hne ((hbb.unique hboth.1).trans (hboth.2.unique hll))
    · intro h heq
      exact h b l big rfl rfl ⟨hbb, heq ▸ hll⟩
  simp only [Element.endianness, bind_eq_ok, Element.required_eq_ok]
  constructor
  · intro h
    obtain ⟨policy, order, horder, h⟩ := h
    split at h
    · simp only [bind_eq_ok] at h
      obtain ⟨_, honly, -⟩ := h
      exact .inl ⟨honly, "big", by simp, horder⟩
    · simp only [bind_eq_ok] at h
      obtain ⟨_, honly, -⟩ := h
      exact .inl ⟨honly, "little", by simp, horder⟩
    · simp only [bind_eq_ok, check_eq_ok] at h
      obtain ⟨r, hr, big, hbig, little, hlittle, hne, _, honly, -⟩ := h
      exact .inr ⟨honly, horder, ⟨r, hr⟩, ⟨big, hbig⟩, ⟨little, hlittle⟩,
        (hdiffer hbig hlittle).1 hne⟩
    · cases h
  · intro h
    obtain ⟨honly, order, hmem, horder⟩ |
      ⟨honly, horder, ⟨r, hr⟩, ⟨big, hbig⟩, ⟨little, hlittle⟩, hne⟩ := h
    · have hcases : order = "big" ∨ order = "little" := by simpa using hmem
      obtain rfl | rfl := hcases
      · exact ⟨.big, "big", horder, by simp [honly]⟩
      · exact ⟨.little, "little", horder, by simp [honly]⟩
    · have hne' : big ≠ little := (hdiffer hbig hlittle).2 hne
      exact ⟨.captured r big little, "variable", horder, by simp [hr, hbig, hlittle, hne', honly]⟩

def Section.Read (e : Element) (inner : Content) : Section → Prop
  | .endianness policy => e.name = "endianness" ∧ e.endianness = .ok policy ∧ inner = .done
  | .magic signatures => e.name = "magic" ∧ e.only [] = .ok () ∧
      inner.Each 3 Signature.Read signatures ∧ signatures ≠ []
  | .colors decls => e.name = "colors" ∧ e.only [] = .ok () ∧ inner.Each 3 ColorDecl.Read decls ∧
      (decls.map (·.color.id)).Nodup
  | .fields decls => e.name = "field-defs" ∧ e.only [] = .ok () ∧
      inner.Each 3 FieldDecl.Read decls ∧ (decls.map (·.field.id)).Nodup
  | .blocks decls => e.name = "block-defs" ∧ e.only [] = .ok () ∧
      inner.Each 3 BlockDecl.Read decls ∧ (decls.map (·.id)).Nodup
  | .run program => e.name = "run" ∧ e.only [] = .ok () ∧ inner.program e.name 3 = .ok program

theorem Section.name_of_read {e : Element} {inner : Content} {s : Section}
    (h : s.Read e inner) : e.name = s.name := by
  cases s <;> exact h.1

theorem readSection_eq_ok {e : Element} {inner : Content} {s : Section} :
    readSection e inner = .ok s ↔ s.Read e inner := by
  constructor
  · intro h
    unfold readSection at h
    split at h
    · next hn =>
      simp only [bind_eq_ok, pure_eq_ok, nothing_eq_ok] at h
      obtain ⟨policy, hpolicy, _, hinner, rfl⟩ := h
      exact ⟨hn, hpolicy, hinner⟩
    · next hn =>
      simp only [bind_eq_ok, check_eq_ok, pure_eq_ok, signatures_eq_ok] at h
      obtain ⟨_, honly, signatures, hread, hne, rfl⟩ := h
      exact ⟨hn, honly, hread, hne⟩
    · next hn =>
      simp only [bind_eq_ok, pure_eq_ok, colors_eq_ok] at h
      obtain ⟨_, honly, decls, hread, rfl⟩ := h
      exact ⟨hn, honly, hread⟩
    · next hn =>
      simp only [bind_eq_ok, pure_eq_ok, fields_eq_ok] at h
      obtain ⟨_, honly, decls, hread, rfl⟩ := h
      exact ⟨hn, honly, hread⟩
    · next hn =>
      simp only [bind_eq_ok, pure_eq_ok, blocks_eq_ok] at h
      obtain ⟨_, honly, decls, hread, rfl⟩ := h
      exact ⟨hn, honly, hread⟩
    · next hn =>
      simp only [bind_eq_ok, pure_eq_ok] at h
      obtain ⟨_, honly, program, hread, rfl⟩ := h
      exact ⟨hn, honly, hread⟩
    · cases h
  · intro h
    cases s with
    | endianness policy => simp [readSection, h.1, h.2.1, h.2.2]
    | magic signatures =>
      have hread : inner.fold "magic" 3 addSignature [] = .ok signatures :=
        signatures_eq_ok.2 h.2.2.1
      simp [readSection, h.1, h.2.1, hread, h.2.2.2]
    | colors decls =>
      have hread : inner.fold "colors" 3 addColor [] = .ok decls := colors_eq_ok.2 h.2.2
      simp [readSection, h.1, h.2.1, hread]
    | fields decls =>
      have hread : inner.fold "field-defs" 3 addField [] = .ok decls := fields_eq_ok.2 h.2.2
      simp [readSection, h.1, h.2.1, hread]
    | blocks decls =>
      have hread : inner.fold "block-defs" 3 addBlock [] = .ok decls := blocks_eq_ok.2 h.2.2
      simp [readSection, h.1, h.2.1, hread]
    | run program =>
      have hread : inner.program "run" 3 = .ok program := h.1 ▸ h.2.2
      simp [readSection, h.1, h.2.1, hread]

theorem addSection_eq_ok {sections sections' : List Section} {e : Element} {inner : Content} :
    addSection sections e inner = .ok sections' ↔ ∃ s, Section.Read e inner s ∧
      s.name ∉ sections.map Section.name ∧ sections ++ [s] = sections' := by
  simp only [addSection, check_eq_ok, bind_eq_ok, pure_eq_ok, any_key_iff, readSection_eq_ok]
  constructor
  · intro h
    obtain ⟨-, hnew, s, hread, rfl⟩ := h
    exact ⟨s, hread, Section.name_of_read hread ▸ hnew, rfl⟩
  · intro h
    obtain ⟨s, hread, hnew, rfl⟩ := h
    have hname := Section.name_of_read hread
    refine ⟨?_, hname ▸ hnew, s, hread, rfl⟩
    rw [hname]
    cases s <;> simp [Section.names, Section.name]

theorem sections_eq_ok {c : Content} {sections : List Section} :
    c.fold parent depth addSection [] = .ok sections ↔
      c.Each depth Section.Read sections ∧ (sections.map Section.name).Nodup := by
  apply Content.fold_distinct_eq_ok
  intro _ _ _ _
  exact addSection_eq_ok

theorem allowed_section (e : Element) (inner : Content) : Allowed declared .format 2 e inner ↔
    (e.name = "endianness" ∧ (∃ policy, e.endianness = .ok policy) ∧ inner = .done) ∨
    (e.name = "magic" ∧ e.only [] = .ok () ∧ inner.row ≠ [] ∧ inner.Conforms declared .magic 3) ∨
    (e.name = "colors" ∧ e.only [] = .ok () ∧ (inner.row.values "id").Nodup ∧
      inner.Conforms declared .colors 3) ∨
    (e.name = "field-defs" ∧ e.only [] = .ok () ∧ (inner.row.values "id").Nodup ∧
      inner.Conforms declared .fields 3) ∨
    (e.name = "block-defs" ∧ e.only [] = .ok () ∧ (inner.row.values "id").Nodup ∧
      inner.Conforms declared .blocks 3) ∨
    (e.name = "run" ∧ e.only [] = .ok () ∧ inner.Conforms declared .program 3) := by
  rw [exists_endianness]
  simp only [or_and_right, and_or_left, or_assoc, and_assoc]
  rw [allowed_iff]
  simp only [Context.elements, List.exists_mem_cons_iff]
  simp [and_assoc]

theorem color_ids {c : Content} {decls : List ColorDecl} (h : c.Each depth ColorDecl.Read decls) :
    c.row.values "id" = decls.map (·.color.id) := by
  apply h.values
  intro _ _ _ hread
  exact Element.required_eq_ok.1 hread.2.1

theorem field_ids {c : Content} {decls : List FieldDecl} (h : c.Each depth FieldDecl.Read decls) :
    c.row.values "id" = decls.map (·.field.id) := by
  apply h.values
  intro _ _ _ hread
  exact Element.required_eq_ok.1 hread.2.1

theorem block_ids {c : Content} {decls : List BlockDecl} (h : c.Each depth BlockDecl.Read decls) :
    c.row.values "id" = decls.map (·.id) := by
  apply h.values
  intro _ _ _ hread
  exact Element.required_eq_ok.1 hread.2.1

theorem section_names {c : Content} {sections : List Section}
    (h : c.Each depth Section.Read sections) : c.row.names = sections.map Section.name := by
  apply h.names
  intro _ _ _
  exact Section.name_of_read

theorem section_allowed (e : Element) (inner : Content) :
    (∃ s, Section.Read e inner s ∧ s.Bound declared) ↔ Allowed declared .format 2 e inner := by
  rw [allowed_section, ← Content.each_iff_of_exists signature_allowed,
    ← Content.each_iff_of_exists color_allowed, ← Content.each_iff field_allowed,
    ← Content.each_iff block_allowed, ← @exists_program declared e.name]
  constructor
  · intro h
    obtain ⟨s, hread, hb⟩ := h
    cases s with
    | endianness policy => exact .inl ⟨hread.1, ⟨policy, hread.2.1⟩, hread.2.2⟩
    | magic signatures =>
      obtain ⟨hn, honly, hs, hne⟩ := hread
      exact .inr (.inl ⟨hn, honly, fun hrow => hne (hs.row_eq_nil.1 hrow), signatures, hs⟩)
    | colors decls =>
      obtain ⟨hn, honly, hs, hids⟩ := hread
      exact .inr (.inr (.inl ⟨hn, honly, color_ids hs ▸ hids, decls, hs⟩))
    | fields decls =>
      obtain ⟨hn, honly, hs, hids⟩ := hread
      exact .inr (.inr (.inr (.inl ⟨hn, honly, field_ids hs ▸ hids, decls, hs, hb⟩)))
    | blocks decls =>
      obtain ⟨hn, honly, hs, hids⟩ := hread
      exact .inr (.inr (.inr (.inr (.inl ⟨hn, honly, block_ids hs ▸ hids, decls, hs, hb⟩))))
    | run program =>
      obtain ⟨hn, honly, hs⟩ := hread
      exact .inr (.inr (.inr (.inr (.inr ⟨hn, honly, program, hs, hb⟩))))
  · intro h
    obtain ⟨hn, ⟨policy, hp⟩, hinner⟩ | ⟨hn, honly, hrow, signatures, hs⟩ |
      ⟨hn, honly, hids, decls, hs⟩ | ⟨hn, honly, hids, decls, hs, hb⟩ |
      ⟨hn, honly, hids, decls, hs, hb⟩ | ⟨hn, honly, program, hs, hb⟩ := h
    · exact ⟨.endianness policy, ⟨hn, hp, hinner⟩, trivial⟩
    · exact ⟨.magic signatures, ⟨hn, honly, hs, fun h => hrow (hs.row_eq_nil.2 h)⟩, trivial⟩
    · exact ⟨.colors decls, ⟨hn, honly, hs, color_ids hs ▸ hids⟩, trivial⟩
    · exact ⟨.fields decls, ⟨hn, honly, hs, field_ids hs ▸ hids⟩, hb⟩
    · exact ⟨.blocks decls, ⟨hn, honly, hs, block_ids hs ▸ hids⟩, hb⟩
    · exact ⟨.run program, ⟨hn, honly, hs⟩, hb⟩

theorem Section.mem_declares {e : Element} {inner : Content} {s : Section} (h : s.Read e inner)
    (table : Table) (id : String) :
    id ∈ s.declares table ↔ e.name = table.section ∧ id ∈ inner.row.values "id" := by
  cases s with
  | colors decls =>
    rw [color_ids h.2.2.1, h.1]
    cases table <;> simp [Section.declares, Table.section]
  | fields decls =>
    rw [field_ids h.2.2.1, h.1]
    cases table <;> simp [Section.declares, Table.section]
  | blocks decls =>
    rw [block_ids h.2.2.1, h.1]
    cases table <;> simp [Section.declares, Table.section]
  | _ =>
    rw [h.1]
    cases table <;> simp [Section.declares, Table.section]

theorem Section.declared_iff {s : Section}
    (h : ∀ table, ∀ id ∈ s.declares table, declared table id) :
    (Mentions.ofSection s).Declared declared ↔ s.Bound declared := by
  cases s with
  | endianness policy =>
    refine iff_of_true ?_ trivial
    cases policy <;> exact Mentions.declared_vars _
  | magic signatures =>
    refine iff_of_true ?_ trivial
    refine Mentions.declared_gather.2 fun signature _ => Mentions.declared_gather.2 fun step _ => ?_
    cases step <;> exact Mentions.declared_vars _
  | colors decls =>
    refine iff_of_true (Mentions.declared_gather.2 fun d hd table r hr => ?_) trivial
    cases table with
    | color =>
      rw [List.mem_singleton.1 hr]
      exact h .color d.color.id (List.mem_map_of_mem hd)
    | _ => cases hr
  | fields decls =>
    refine Mentions.declared_gather.trans (forall₂_congr fun d hd => ?_)
    have hid : declared .field d.field.id := h .field d.field.id (List.mem_map_of_mem hd)
    constructor
    · intro hf
      exact hf .color
    · intro hc table r hr
      cases table with
      | color => exact hc r hr
      | field =>
        rw [List.mem_singleton.1 hr]
        exact hid
      | block => cases hr
  | blocks decls =>
    refine Mentions.declared_gather.trans (forall₂_congr fun d hd => ?_)
    have hid : declared .block d.id := h .block d.id (List.mem_map_of_mem hd)
    rw [Mentions.ofBlock, Mentions.declared_append]
    exact and_iff_right (Mentions.declared_block.2 hid)
  | run program => exact Iff.rfl

/-! The root. -/

def Format.Read (e : Element) (inner : Content) (f : Format) : Prop :=
  e.name = "format" ∧ e.required "name" = .ok f.name ∧ e.required "short" = .ok f.shortName ∧
    e.only ["name", "short"] = .ok () ∧ inner.Each 2 Section.Read f.sections ∧
    (f.sections.map Section.name).Nodup ∧ f.offset = e.offset

theorem readRoot_eq_ok {found found' : Option Format} {e : Element} {inner : Content} :
    readRoot found e inner = .ok found' ↔ ∃ f, Format.Read e inner f ∧ found = none ∧
      some f = found' := by
  simp only [readRoot, check_eq_ok, bind_eq_ok, pure_eq_ok, sections_eq_ok, Decidable.not_not,
    Bool.not_eq_true, Option.isSome_eq_false_iff, Option.isNone_iff_eq_none]
  constructor
  · intro h
    obtain ⟨hn, hnone, name, hname, short, hshort, _, honly, sections, hs, rfl⟩ := h
    exact ⟨⟨name, short, e.offset, sections⟩, ⟨hn, hname, hshort, honly, hs.1, hs.2, rfl⟩, hnone,
      rfl⟩
  · intro h
    obtain ⟨f, ⟨hn, hname, hshort, honly, hs, hd, hoffset⟩, hnone, rfl⟩ := h
    refine ⟨hn, hnone, _, hname, _, hshort, (), honly, _, ⟨hs, hd⟩, ?_⟩
    rw [← hoffset]

theorem ofContent?_eq_ok {c : Content} {f : Format} :
    Format.ofContent? c = .ok (some f) ↔ c.Each 1 Format.Read [f] := by
  have hputs (xs : List Format) : Content.Puts (fun acc _ => acc = none) (fun _ f => some f) none xs
      (some f) ↔ xs = [f] := by
    cases xs with
    | nil => simp [Content.Puts]
    | cons x xs => cases xs <;> simp [Content.Puts]
  have hfold : c.fold "" 1 readRoot none = .ok (some f) ↔ ∃ xs, c.Each 1 Format.Read xs ∧
      Content.Puts (fun acc _ => acc = none) (fun _ f => some f) none xs (some f) := by
    apply Content.fold_eq_ok
    intro _ _ _ _
    exact readRoot_eq_ok
  rw [Format.ofContent?, hfold]
  simp only [hputs, exists_eq_right]

theorem each_singleton {α : Type} {one : Element → Content → α → Prop} {c : Content} {x : α} :
    c.Each depth one [x] ↔ ∃ tag inner e, c = .element tag inner .done ∧ tag.enter depth = .ok e ∧
      one e inner x := by
  constructor
  · intro h
    cases c with
    | done => cases h
    | blemish offset cause => exact h.elim
    | element tag inner rest =>
      obtain ⟨⟨e, he, hone⟩, hrest⟩ := h
      cases rest with
      | done => exact ⟨tag, inner, e, rfl, he, hone⟩
      | blemish offset cause => exact hrest.elim
      | element tag' inner' rest' => exact hrest.elim
  · intro h
    obtain ⟨tag, inner, e, rfl, he, hone⟩ := h
    exact ⟨⟨e, he, hone⟩, rfl⟩

theorem exists_compile {source : List Char} : (∃ d, compile source = .ok d) ↔
    ∃ tag inner e f, Content.ofSource source = .element tag inner .done ∧ tag.enter 1 = .ok e ∧
      Format.Read e inner f ∧ f.missingSection? = none ∧ f.mentions.Declared f.Declares := by
  simp only [compile_eq_ok, ofContent?_eq_ok, each_singleton]
  constructor
  · intro h
    obtain ⟨d, f, ⟨tag, inner, e, hc, he, hf⟩, hd⟩ := h
    have hdefinition := (Format.exists_definition hf.2.2.2.2.2.1).1 ⟨d, hd⟩
    exact ⟨tag, inner, e, f, hc, he, hf, hdefinition⟩
  · intro h
    obtain ⟨tag, inner, e, f, hc, he, hf, hdefinition⟩ := h
    obtain ⟨d, hd⟩ := (Format.exists_definition hf.2.2.2.2.2.1).2 hdefinition
    exact ⟨d, f, ⟨tag, inner, e, hc, he, hf⟩, hd⟩

theorem inside_root {tag : Tag} {inner : Content} {e : Element} (he : tag.enter depth = .ok e)
    (hn : e.name = "format") :
    (Content.element tag inner .done).row.inside "format" = inner.row := by
  have hname : tag.name = "format" := (name_of_enter he).trans hn
  simp [Row.inside, Row.named, Content.row, hname]

theorem declares_iff {tag : Tag} {inner : Content} {e : Element} {f : Format}
    (he : tag.enter 1 = .ok e) (hf : Format.Read e inner f) (table : Table) (id : String) :
    (Content.element tag inner .done).Declares table id ↔ f.Declares table id := by
  obtain ⟨hn, -, -, -, hs, -⟩ := hf
  rw [Content.Declares, Format.Declares, inside_root he hn, Row.mem_values_inside]
  refine or_congr ?_ Iff.rfl
  constructor
  · intro h
    obtain ⟨t, ht, htn, hid⟩ := h
    obtain ⟨s, hmem, e', he', hread⟩ := hs.exists_of_mem_row ht
    have hvalue : id ∈ t.2.row.values "id" := List.mem_filterMap.2 hid
    exact ⟨s, hmem, (s.mem_declares hread table id).2 ⟨name_of_enter he' ▸ htn, hvalue⟩⟩
  · intro h
    obtain ⟨s, hmem, hid⟩ := h
    obtain ⟨t, ht, e', he', hread⟩ := hs.exists_of_mem hmem
    obtain ⟨htn, hvalue⟩ := (s.mem_declares hread table id).1 hid
    exact ⟨t, ht, (name_of_enter he').trans htn, List.mem_filterMap.1 hvalue⟩

theorem Format.mentions_declared {f : Format} :
    f.mentions.Declared f.Declares ↔ ∀ s ∈ f.sections, s.Bound f.Declares := by
  refine Mentions.declared_gather.trans (forall₂_congr fun s hs => ?_)
  apply Section.declared_iff
  intro table id hid
  exact .inl ⟨s, hs, hid⟩

theorem root_allowed (e : Element) (inner : Content) :
    (∃ f, Format.Read e inner f ∧ f.missingSection? = none ∧
      ∀ s ∈ f.sections, s.Bound declared) ↔ Allowed declared .document 1 e inner := by
  have hallowed : Allowed declared .document 1 e inner ↔ e.name = "format" ∧
      e.only ["name", "short"] = .ok () ∧ (∃ name, e.required "name" = .ok name) ∧
      (∃ short, e.required "short" = .ok short) ∧
      (inner.row.names.Nodup ∧ ∀ name ∈ Format.requiredSections, name ∈ inner.row.names) ∧
      inner.Conforms declared .format 2 := by
    simp [allowed_iff, Context.elements, Format.requiredSections, and_assoc]
  rw [hallowed, ← Content.each_iff section_allowed]
  simp only [Format.missingSection?_eq_none]
  constructor
  · intro h
    obtain ⟨f, ⟨hn, hname, hshort, honly, hs, hd, hoffset⟩, hmissing, hb⟩ := h
    rw [section_names hs]
    exact ⟨hn, honly, ⟨_, hname⟩, ⟨_, hshort⟩, ⟨hd, hmissing⟩, f.sections, hs, hb⟩
  · intro h
    obtain ⟨hn, honly, ⟨name, hname⟩, ⟨short, hshort⟩, hsections, sections, hs, hb⟩ := h
    rw [section_names hs] at hsections
    exact ⟨⟨name, short, e.offset, sections⟩, ⟨hn, hname, hshort, honly, hs, hsections.1, rfl⟩,
      hsections.2, hb⟩

/-- A document compiles if and only if it is in the language. -/
theorem compile_iff_inLanguage (source : List Char) :
    (∃ d, compile source = .ok d) ↔ (Content.ofSource source).InLanguage := by
  rw [exists_compile]
  constructor
  · intro h
    obtain ⟨tag, inner, e, f, hc, he, hf, hmissing, hd⟩ := h
    have hdeclares : (Content.ofSource source).Declares = f.Declares := by
      funext table id
      rw [hc]
      exact propext (declares_iff he hf table id)
    have hroot : Allowed f.Declares .document 1 e inner :=
      (root_allowed e inner).1 ⟨f, hf, hmissing, Format.mentions_declared.1 hd⟩
    constructor
    case root => rw [hc, Content.row, Row.names, List.map_cons, name_of_enter he, hf.1]; rfl
    case conforms =>
      rw [hdeclares, hc, conforms_element]
      exact ⟨⟨e, he, hroot⟩, trivial⟩
  · intro h
    obtain ⟨hroot, hconforms⟩ := h
    cases hc : Content.ofSource source with
    | done => simp [hc, Content.row, Row.names] at hroot
    | blemish offset cause => simp [hc, Content.row, Row.names] at hroot
    | element tag inner rest =>
      rw [hc] at hroot hconforms
      have hrow : rest.row = [] := List.map_eq_nil_iff.1 (List.cons.inj hroot).2
      obtain ⟨⟨e, he, hallowed⟩, hrest⟩ := conforms_element.1 hconforms
      obtain rfl : rest = .done := by
        cases rest with
        | done => rfl
        | blemish offset cause => exact hrest.elim
        | element tag' inner' rest' => cases hrow
      obtain ⟨f, hf, hmissing, hb⟩ := (root_allowed e inner).2 hallowed
      have hdeclares : (Content.element tag inner .done).Declares = f.Declares := by
        funext table id
        exact propext (declares_iff he hf table id)
      rw [hdeclares] at hb
      exact ⟨tag, inner, e, f, rfl, he, hf, hmissing, Format.mentions_declared.2 hb⟩

end Dissect.Document
