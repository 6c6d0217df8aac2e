import Dissect.Proofs.Flattening
import Dissect.Proofs.Rearrangement
import Dissect.Proofs.Shapes

/-! A definition is an image of its document: every entry and every step of it is written by an
element, every number in it stands for what is written there, and nothing is left over. -/
namespace Dissect

/-- Every end marker closes the body that was opened last, whatever its kind, and in the end none is
open. -/
def wellNested {ρ : Type} : List SpanKind → List (Step ρ) → Bool
  | kinds, [] => kinds == []
  | kinds, .act _ :: rest => wellNested kinds rest
  | kinds, .matchStart _ :: rest => wellNested (.guarded :: kinds) rest
  | kinds, .loopStart _ :: rest => wellNested (.loop :: kinds) rest
  | kinds, .selectionStart :: rest => wellNested (.selection :: kinds) rest
  | .guarded :: kinds, .matchEnd :: rest => wellNested kinds rest
  | .loop :: kinds, .loopEnd :: rest => wellNested kinds rest
  | .selection :: kinds, .selectionEnd :: rest => wellNested kinds rest
  | _, _ => false

theorem wellNested_flatten {ρ : Type} (p : Program ρ) (kinds : List SpanKind)
    (rest : List (Step ρ)) : wellNested kinds (p.flatten ++ rest) = wellNested kinds rest := by
  induction p generalizing kinds rest with
  | done => rfl
  | act a after ih => simp only [Program.flatten, List.cons_append, wellNested, ih]
  | guarded g body after ihbody ih =>
    simp only [Program.flatten, List.cons_append, List.append_assoc, wellNested, ihbody, ih]
  | loop g body after ihbody ih =>
    simp only [Program.flatten, List.cons_append, List.append_assoc, wellNested, ihbody, ih]
  | selection body after ihbody ih =>
    simp only [Program.flatten, List.cons_append, List.append_assoc, wellNested, ihbody, ih]

end Dissect

namespace Dissect.Document

/-! ## Elements of a row by their names -/

namespace Row

theorem named_of_mem {r : Row} (hn : r.names.Nodup) {t : Tag × Content} (ht : t ∈ r) :
    r.named t.1.name = [t] := by
  have hsame : ∀ u ∈ r.named t.1.name, u = t := by
    intro u hu
    obtain ⟨hu, hname⟩ := List.mem_filter.1 hu
    exact List.inj_on_of_nodup_map hn hu ht (eq_of_beq hname)
  have hnodup : (r.named t.1.name).Nodup := (List.Nodup.of_map _ hn).filter _
  have hmem : t ∈ r.named t.1.name := List.mem_filter.2 ⟨ht, beq_self_eq_true _⟩
  by_contra hne
  obtain hnil | ⟨u, hu, hut⟩ := (hnodup.ne_singleton_iff t).1 hne
  · rw [hnil] at hmem
    cases hmem
  · exact hut (hsame u hu)

theorem inside_of_named {r : Row} {name : String} {t : Tag × Content} (h : r.named name = [t]) :
    r.inside name = t.2.row := by
  simp only [inside, h, List.flatMap_cons, List.flatMap_nil, List.append_nil]

end Row

/-- The elements directly inside the outermost one. -/
def Content.parts (doc : Content) : Row := doc.row.inside "format"

end Dissect.Document

namespace Dissect.Definition
open Document

/-- The steps are those that are written, and every number in them stands for the text there. -/
def Renders (d : Definition) (steps : List (Step Nat)) (written : List (Step String)) : Prop :=
  steps.map d.lookup.step = written.map found.step

structure IsImage (d : Definition) (doc : Content) : Prop where
  root : ∃ tag content, doc = .element tag content .done ∧ tag.name = "format" ∧
    tag.get? "name" = some d.name ∧ tag.get? "short" = some d.shortName
  once : doc.parts.names.Nodup
  program : ∃ t ∈ doc.parts, t.1.name = "run" ∧ ∃ written, t.2.Flattens written ∧
    d.Renders d.program written
  block : ∀ b ∈ d.blocks, ∃ t ∈ doc.parts.inside "block-defs", t.1.get? "id" = some b.id ∧
    ∃ written, t.2.Flattens written ∧ d.Renders b.steps written
  blocks : (d.blocks.map (·.id)).Perm ((doc.parts.inside "block-defs").values "id")
  color : ∀ c ∈ d.colors, ∃ t ∈ doc.parts.inside "colors", t.1.WritesColor c
  colors : (d.colors.map (·.id)).Perm ((doc.parts.inside "colors").values "id")
  /-- An entry is declared, or it is the stand-in for a field `unused` that is not. -/
  field : ∀ f ∈ d.fields, (∃ t ∈ doc.parts.inside "field-defs", ∃ written,
      t.1.WritesField written ∧ t.2.WritesShape written ∧
        f.map d.lookup.color = written.map some) ∨
    f = FieldDef.unused ∧ unusedId ∉ (doc.parts.inside "field-defs").values "id"
  fields : (d.fields.map (·.id)).Perm
    (List.insert unusedId ((doc.parts.inside "field-defs").values "id"))
  signatures : ∃ t ∈ doc.parts, t.1.name = "magic" ∧ ∃ written,
    List.Forall₂ (fun s signature => s.2.WritesSignature signature) t.2.row written ∧
      d.signatures.map d.lookup.signature = written.map found.signature
  endianness : ∃ t ∈ doc.parts, t.1.name = "endianness" ∧ ∃ written, t.1.WritesEndianness written ∧
    d.lookup.endianness d.endianness = found.endianness written
  nested : ∀ code, wellNested [] (d.code code) = true
  distinctColors : (d.colors.map (·.id)).Nodup
  distinctFields : (d.fields.map (·.id)).Nodup
  distinctBlocks : (d.blocks.map (·.id)).Nodup
  distinctVars : d.vars.Nodup
  findField : ∀ id i, d.findField? id = some i ↔ d.lookup.field i = some id
  findVariable : ∀ name i, d.findVariable? name = some i ↔ d.lookup.var i = some name
  unused : ∃ f, d.fields[d.unused]? = some f ∧ f.id = unusedId ∧
    (unusedId ∉ (doc.parts.inside "field-defs").values "id" → f = FieldDef.unused)

end Dissect.Definition

namespace Dissect.Document

/-! ## Sections and their elements -/

section Sections
variable {e : Element} {inner : Content} {f : Format} (h : f.Read e inner)
include h

theorem parts_once : inner.row.names.Nodup := by
  obtain ⟨-, -, -, -, hsections, hnodup, -⟩ := h
  rw [section_names hsections]
  exact hnodup

theorem exists_part {s : Section} (hs : s ∈ f.sections) :
    ∃ t ∈ inner.row, t.1.name = s.name ∧ inner.row.named s.name = [t] ∧
      ∃ e', t.1.enter 2 = .ok e' ∧ s.Read e' t.2 := by
  obtain ⟨t, ht, e', he', hread⟩ := h.2.2.2.2.1.exists_of_mem hs
  have hname : t.1.name = s.name := (name_of_enter he').trans (Section.name_of_read hread)
  exact ⟨t, ht, hname, hname ▸ Row.named_of_mem (parts_once h) ht, e', he', hread⟩

theorem inside_eq_nil {name : String} (hs : ∀ s ∈ f.sections, s.name ≠ name) :
    inner.row.inside name = [] := by
  have hnil : inner.row.named name = [] := by
    refine List.filter_eq_nil_iff.2 fun t ht he => ?_
    obtain ⟨s, hmem, e', he', hread⟩ := h.2.2.2.2.1.exists_of_mem_row ht
    refine hs s hmem ?_
    rw [← Section.name_of_read hread, ← name_of_enter he']
    exact eq_of_beq he
  rw [Row.inside, hnil, List.flatMap_nil]

theorem exists_inside {α : Type} {make : List α → Section} {read : Format → List α}
    (hr : Format.Reads make [] read) {one : Element → Content → α → Prop}
    (hone : ∀ xs e c, (make xs).Read e c → c.Each 3 one xs) (name : String)
    (hname : ∀ xs, (make xs).name = name) :
    ∃ c : Content, inner.row.inside name = c.row ∧ c.Each 3 one (read f) := by
  rcases hr.mem_or_eq f with hs | ⟨hnil, hnone⟩
  · obtain ⟨t, -, -, hnamed, e', -, hread⟩ := exists_part h hs
    rw [hname] at hnamed
    exact ⟨t.2, Row.inside_of_named hnamed, hone _ _ _ hread⟩
  · refine ⟨.done, inside_eq_nil h fun s hs he => ?_, hnil⟩
    obtain ⟨xs, rfl⟩ := hr.sort s [] (he.trans (hname []).symm)
    exact hnone xs hs

theorem inside_colors : ∃ c : Content, inner.row.inside "colors" = c.row ∧
    c.Each 3 ColorDecl.Read f.colorDecls :=
  exists_inside h Format.reads_colors (fun _ _ _ hread => hread.2.2.1) "colors" fun _ => rfl

theorem inside_fields : ∃ c : Content, inner.row.inside "field-defs" = c.row ∧
    c.Each 3 FieldDecl.Read f.fieldDecls :=
  exists_inside h Format.reads_fields (fun _ _ _ hread => hread.2.2.1) "field-defs" fun _ => rfl

theorem inside_blocks : ∃ c : Content, inner.row.inside "block-defs" = c.row ∧
    c.Each 3 BlockDecl.Read f.blockDecls :=
  exists_inside h Format.reads_blocks (fun _ _ _ hread => hread.2.2.1) "block-defs" fun _ => rfl

end Sections

/-! ## Tables -/

theorem mem_resolved {α : Type} {meaning : String → Option α} {rs : List Reference}
    {entries : List α} (h : (firstMentions rs).map (meaning ·.id) = entries.map some)
    {declared : List String} (hmeaning : ∀ id, (meaning id).isSome → id ∈ declared)
    (hdeclared : ∀ id ∈ declared, id ∈ rs.map (·.id)) (id : String) :
    id ∈ (firstMentions rs).map (·.id) ↔ id ∈ declared := by
  constructor
  · intro hid
    obtain ⟨r, hr, rfl⟩ := List.mem_map.1 hid
    exact hmeaning _ (exists_resolved.1 ⟨_, h⟩ r hr)
  · intro hid
    exact mem_firstMentions.2 (hdeclared id hid)

theorem mem_of_find? {α : Type} {key : α → String} {xs : List α} {id : String}
    (h : (xs.find? (key · == id)).isSome) : id ∈ xs.map key := by
  obtain ⟨a, ha, he⟩ := List.find?_isSome.1 h
  exact eq_of_beq he ▸ List.mem_map_of_mem ha

theorem Format.has_of_section {f : Format} {s : Section} (hs : s ∈ f.sections) {x : Mention}
    (hx : (Mentions.ofSection s).Has x) : f.mentions.Has x :=
  Mentions.has_gather.2 ⟨s, hs, hx⟩

theorem Format.Reads.has_of_mem {α : Type} {make : List α → Section} {read : Format → List α}
    (hr : Format.Reads make [] read) {of : α → Mentions}
    (hof : ∀ xs, Mentions.ofSection (make xs) = Mentions.gather of xs) {f : Format} {a : α}
    (ha : a ∈ read f) {x : Mention} (hx : (of a).Has x) : f.mentions.Has x := by
  rcases hr.mem_or_eq f with hs | ⟨hnil, -⟩
  · refine Format.has_of_section hs ?_
    rw [hof]
    exact Mentions.has_gather.2 ⟨a, ha, hx⟩
  · rw [hnil] at ha
    cases ha

namespace Format
variable {f : Format} {d : Definition}

theorem Reads.mem_of_name {α : Type} {make : α → Section} {a₀ : α} {read : Format → α}
    (hr : Reads make a₀ read) (hn : (make a₀).name ∈ f.sections.map Section.name) :
    make (read f) ∈ f.sections := by
  rcases hr.mem_or_eq f with hs | ⟨-, hnone⟩
  · exact hs
  · obtain ⟨s, hs, hname⟩ := List.mem_map.1 hn
    obtain ⟨a, rfl⟩ := hr.sort s a₀ hname
    exact absurd hs (hnone a)

section Defined
variable (h : f.definition = .ok d)
include h

theorem mem_color_ids (id : String) :
    id ∈ d.colors.map (·.id) ↔ id ∈ f.colorDecls.map (·.color.id) := by
  rw [color_ids_eq h]
  refine mem_resolved (definition_eq_ok.1 h).2.1 (fun id hid => ?_) (fun id hid => ?_) id
  · rw [color?, Option.isSome_map] at hid
    exact mem_of_find? hid
  · obtain ⟨decl, hdecl, rfl⟩ := List.mem_map.1 hid
    exact reads_colors.has_of_mem (x := .color decl.color.id) (fun _ => rfl) hdecl
      (List.mem_singleton_self _)

theorem mem_field_ids (id : String) :
    id ∈ d.fields.map (·.id) ↔ id ∈ List.insert unusedId (f.fieldDecls.map (·.field.id)) := by
  rw [field_ids_eq h]
  refine mem_resolved (definition_eq_ok.1 h).2.2.1 (fun id hid => ?_) (fun id hid => ?_) id
  · rw [List.mem_insert_iff]
    by_cases hu : id = unusedId
    · exact .inl hu
    · right
      refine mem_of_find? ?_
      cases hfind : f.fieldDecls.find? (·.field.id == id) with
      | some decl => rfl
      | none => simp [field?, hfind, hu] at hid
  · rw [fieldMentions, List.map_append, List.mem_append]
    rcases List.mem_insert_iff.1 hid with rfl | hid
    · exact .inr (List.mem_singleton_self _)
    · obtain ⟨decl, hdecl, rfl⟩ := List.mem_map.1 hid
      exact .inl (reads_fields.has_of_mem (x := .field decl.field.id) (fun _ => rfl) hdecl
        (List.mem_singleton_self _))

theorem mem_block_ids (id : String) :
    id ∈ d.blocks.map (·.id) ↔ id ∈ f.blockDecls.map (·.id) := by
  rw [block_ids_eq h]
  refine mem_resolved (definition_eq_ok.1 h).2.2.2.1 (fun id hid => ?_) (fun id hid => ?_) id
  · rw [block?, Option.isSome_map] at hid
    exact mem_of_find? hid
  · obtain ⟨decl, hdecl, rfl⟩ := List.mem_map.1 hid
    exact reads_blocks.has_of_mem (x := .block decl.id) (fun _ => rfl) hdecl
      (Mentions.has_append.2 (.inl (List.mem_singleton_self _)))

theorem nodup_color_ids : (d.colors.map (·.id)).Nodup :=
  color_ids_eq h ▸ firstMentions_nodup _

theorem nodup_field_ids : (d.fields.map (·.id)).Nodup :=
  field_ids_eq h ▸ firstMentions_nodup _

theorem nodup_block_ids : (d.blocks.map (·.id)).Nodup :=
  block_ids_eq h ▸ firstMentions_nodup _

theorem nodup_vars : d.vars.Nodup := vars_eq h ▸ firstMentions_nodup _

end Defined

theorem renders_program {p : Program Reference}
    (hp : AgreeOn (d.lookup.comp f.firsts.numbering) (found.comp texts) (Mentions.ofProgram p)) :
    d.Renders (f.firsts.numbering.program p).flatten (texts.program p).flatten := by
  rw [Definition.Renders, ← Renaming.flatten_program, ← Renaming.flatten_program,
    ← Renaming.program_comp, ← Renaming.program_comp, program_congr hp]

end Format

theorem findIdx?_key {α : Type} {key : α → String} {xs : List α} (hn : (xs.map key).Nodup)
    {id : String} {i : Nat} :
    xs.findIdx? (key · == id) = some i ↔ xs[i]?.map key = some id := by
  rw [List.findIdx?_eq_some_iff_getElem]
  constructor
  · rintro ⟨hi, he, -⟩
    rw [List.getElem?_eq_getElem hi, Option.map_some, eq_of_beq he]
  · intro h
    obtain ⟨a, ha, rfl⟩ := Option.map_eq_some_iff.1 h
    obtain ⟨hi, rfl⟩ := List.getElem?_eq_some_iff.1 ha
    refine ⟨hi, beq_self_eq_true _, fun j hji he => ?_⟩
    have hj : j < xs.length := Nat.lt_trans hji hi
    have hjk : j < (xs.map key).length := (xs.length_map key).symm ▸ hj
    have hik : i < (xs.map key).length := (xs.length_map key).symm ▸ hi
    have hsame : (xs.map key)[j] = (xs.map key)[i] := by
      rw [List.getElem_map, List.getElem_map, eq_of_beq he]
    exact absurd (hn.getElem_inj_iff.1 hsame) (Nat.ne_of_lt hji)

/-! ## The image -/

section Image
variable {e : Element} {inner : Content} {f : Format} {d : Definition} (hread : f.Read e inner)
  (h : f.definition = .ok d)
include hread h

theorem image_program : ∃ t ∈ inner.row, t.1.name = "run" ∧ ∃ written, t.2.Flattens written ∧
    d.Renders d.program written := by
  obtain ⟨hmissing, -, -, -, hdef⟩ := Format.definition_eq_ok.1 h
  have hs : Section.run f.program ∈ f.sections :=
    Format.reads_program.mem_of_name (Format.missingSection?_eq_none.1 hmissing _ (by decide))
  obtain ⟨t, ht, hname, -, e', -, -, -, hprogram⟩ := exists_part hread hs
  have hd : d.program = (f.firsts.numbering.program f.program).flatten :=
    congrArg Definition.program hdef
  refine ⟨t, ht, hname, _, flattens_of_program hprogram, ?_⟩
  rw [hd]
  exact Format.renders_program (Format.lookup_section h hs)

theorem image_block {b : Block} (hb : b ∈ d.blocks) : ∃ t ∈ inner.row.inside "block-defs",
    t.1.get? "id" = some b.id ∧ ∃ written, t.2.Flattens written ∧ d.Renders b.steps written := by
  obtain ⟨c, hrow, heach⟩ := inside_blocks hread
  obtain ⟨decl, hdecl, rfl⟩ : ∃ decl ∈ f.blockDecls,
      ⟨decl.id, (f.firsts.numbering.program decl.program).flatten⟩ = b := by
    have hm : some b ∈ f.firsts.blocks.map (f.block? f.firsts.numbering ·.id) := by
      rw [(Format.definition_eq_ok.1 h).2.2.2.1]
      exact List.mem_map_of_mem hb
    obtain ⟨r, -, hr⟩ := List.mem_map.1 hm
    obtain ⟨decl, hdecl, he⟩ := Option.map_eq_some_iff.1 hr
    exact ⟨decl, List.mem_of_find?_eq_some hdecl, he⟩
  obtain ⟨t, ht, e', he', -, hid, -, hprogram, -⟩ := heach.exists_of_mem hdecl
  refine ⟨t, hrow ▸ ht, get?_of_required he' hid, _, flattens_of_program hprogram, ?_⟩
  refine Format.renders_program ?_
  rcases Format.reads_blocks.mem_or_eq f with hs | ⟨hnil, -⟩
  · have hagree := (Format.lookup_section h hs).of_gather hdecl
    exact (AgreeOn.append.1 hagree).2
  · rw [hnil] at hdecl
    cases hdecl

theorem image_color {c : Color} (hc : c ∈ d.colors) :
    ∃ t ∈ inner.row.inside "colors", t.1.WritesColor c := by
  obtain ⟨content, hrow, heach⟩ := inside_colors hread
  have hm : some c ∈ f.firsts.colors.map (f.color? ·.id) := by
    rw [(Format.definition_eq_ok.1 h).2.1]
    exact List.mem_map_of_mem hc
  obtain ⟨r, -, hr⟩ := List.mem_map.1 hm
  obtain ⟨decl, hdecl, rfl⟩ := Option.map_eq_some_iff.1 hr
  obtain ⟨t, ht, e', he', hone⟩ := heach.exists_of_mem (List.mem_of_find?_eq_some hdecl)
  exact ⟨t, hrow ▸ ht, writes_color he' hone⟩

theorem image_field {a : FieldDef Nat} (ha : a ∈ d.fields) :
    (∃ t ∈ inner.row.inside "field-defs", ∃ written, t.1.WritesField written ∧
      t.2.WritesShape written ∧ a.map d.lookup.color = written.map some) ∨
    a = FieldDef.unused ∧ unusedId ∉ (inner.row.inside "field-defs").values "id" := by
  obtain ⟨content, hrow, heach⟩ := inside_fields hread
  have hm : some a ∈ f.firsts.fields.map (f.field? f.firsts.numbering ·.id) := by
    rw [(Format.definition_eq_ok.1 h).2.2.1]
    exact List.mem_map_of_mem ha
  obtain ⟨r, -, hr⟩ := List.mem_map.1 hm
  rw [Format.field?] at hr
  cases hfind : f.fieldDecls.find? (·.field.id == r.id) with
  | some decl =>
    rw [hfind] at hr
    cases hr
    have hdecl := List.mem_of_find?_eq_some hfind
    obtain ⟨t, ht, e', he', hone⟩ := heach.exists_of_mem hdecl
    refine .inl ⟨t, hrow ▸ ht, _, writes_field he' hone, (writes_shape hone).map _, ?_⟩
    rcases Format.reads_fields.mem_or_eq f with hs | ⟨hnil, -⟩
    · have hsame := field_congr ((Format.lookup_section h hs).of_gather hdecl)
      simp only [FieldDef.map, Option.map_map]
      exact hsame
    · rw [hnil] at hdecl
      cases hdecl
  | none =>
    simp only [hfind] at hr
    by_cases hid : r.id = unusedId
    · rw [if_pos hid] at hr
      cases hr
      refine .inr ⟨rfl, fun hmem => ?_⟩
      rw [hrow, field_ids heach] at hmem
      obtain ⟨decl, hdecl, he⟩ := List.mem_map.1 hmem
      have hne := List.find?_eq_none.1 hfind decl hdecl
      rw [he, hid] at hne
      exact hne (beq_self_eq_true _)
    · rw [if_neg hid] at hr
      cases hr

theorem image_signatures : ∃ t ∈ inner.row, t.1.name = "magic" ∧ ∃ written,
    List.Forall₂ (fun s signature => s.2.WritesSignature signature) t.2.row written ∧
      d.signatures.map d.lookup.signature = written.map found.signature := by
  obtain ⟨hmissing, -, -, -, hdef⟩ := Format.definition_eq_ok.1 h
  have hs : Section.magic f.signatures ∈ f.sections :=
    Format.reads_signatures.mem_of_name (Format.missingSection?_eq_none.1 hmissing _ (by decide))
  obtain ⟨t, ht, hname, -, e', -, -, -, heach, -⟩ := exists_part hread hs
  have hd : d.signatures = f.signatures.map f.firsts.numbering.signature :=
    congrArg Definition.signatures hdef
  refine ⟨t, ht, hname, f.signatures.map texts.signature, ?_, ?_⟩
  · refine List.forall₂_map_right_iff.2 (heach.forall₂.imp ?_)
    rintro u s ⟨e', -, -, -, hsteps, -⟩
    exact writes_signature hsteps
  · rw [hd, List.map_map, List.map_map]
    refine List.map_congr_left fun s hmem => ?_
    have hagree := (Format.lookup_section h hs).of_gather hmem
    have hsame := signature_congr hagree
    rwa [Renaming.signature_comp, Renaming.signature_comp] at hsame

theorem image_endianness : ∃ t ∈ inner.row, t.1.name = "endianness" ∧ ∃ written,
    t.1.WritesEndianness written ∧ d.lookup.endianness d.endianness = found.endianness written := by
  obtain ⟨hmissing, -, -, -, hdef⟩ := Format.definition_eq_ok.1 h
  have hs : Section.endianness f.endianness ∈ f.sections :=
    Format.reads_endianness.mem_of_name (Format.missingSection?_eq_none.1 hmissing _ (by decide))
  obtain ⟨t, ht, hname, -, e', he', -, hpolicy, -⟩ := exists_part hread hs
  have hd : d.endianness = f.firsts.numbering.endianness f.endianness :=
    congrArg Definition.endianness hdef
  refine ⟨t, ht, hname, _, writes_endianness he' hpolicy, ?_⟩
  rw [hd, ← Renaming.endianness_comp, ← Renaming.endianness_comp,
    endianness_congr (Format.lookup_section h hs)]

theorem image_unused : ∃ a, d.fields[d.unused]? = some a ∧ a.id = unusedId ∧
    (unusedId ∉ (inner.row.inside "field-defs").values "id" → a = FieldDef.unused) := by
  obtain ⟨-, -, -, -, hdef⟩ := Format.definition_eq_ok.1 h
  have hunused : d.unused = numberIn f.firsts.fields ⟨unusedId, "field-defs", f.offset⟩ :=
    congrArg Definition.unused hdef
  have hid : (d.fields.map (·.id))[d.unused]? = some unusedId := by
    rw [hunused, Format.field_ids_eq h]
    exact getElem?_numberIn (List.mem_append_right _ (List.mem_singleton_self _))
  rw [List.getElem?_map] at hid
  obtain ⟨a, ha, hid⟩ := Option.map_eq_some_iff.1 hid
  refine ⟨a, ha, hid, fun hnone => ?_⟩
  rcases image_field hread h (List.mem_of_getElem? ha) with
    ⟨t, ht, written, hwrites, -, hmap⟩ | hstand
  · have hwid : a.id = written.id := congrArg FieldDef.id hmap
    have hget : t.1.get? "id" = some unusedId := by
      rw [hwrites.2.1, ← hwid, hid]
    exact absurd (List.mem_filterMap.2 ⟨t, ht, hget⟩) hnone
  · exact hstand.1

end Image

theorem nested_code {f : Format} {d : Definition} (h : f.definition = .ok d) (code : Code) :
    wellNested [] (d.code code) = true := by
  have hflat (p : Program Nat) : wellNested [] p.flatten = true := by
    simpa [wellNested] using wellNested_flatten p [] []
  cases code with
  | main =>
    have hd : d.program = (f.firsts.numbering.program f.program).flatten :=
      congrArg Definition.program (Format.definition_eq_ok.1 h).2.2.2.2
    rw [Definition.code, hd]
    exact hflat _
  | block id =>
    rw [Definition.code, Format.block_steps h]
    exact hflat _

/-- Whatever document compiles, the definition is the image of it. -/
theorem compile_isImage {source : List Char} {d : Definition} (h : compile source = .ok d) :
    d.IsImage (Content.ofSource source) := by
  obtain ⟨f, hf, hd⟩ := compile_eq_ok.1 h
  obtain ⟨tag, inner, e, hdoc, he, hread⟩ := each_singleton.1 (ofContent?_eq_ok.1 hf)
  obtain ⟨-, -, -, -, hdef⟩ := Format.definition_eq_ok.1 hd
  have hname : tag.name = "format" := (name_of_enter he).trans hread.1
  have hparts : (Content.ofSource source).parts = inner.row := by
    simp [Content.parts, hdoc, Content.row, Row.inside, Row.named, hname]
  have hdistinct := hread.distinct
  obtain ⟨colors, hcolors, hcolorsEach⟩ := inside_colors hread
  obtain ⟨fields, hfields, hfieldsEach⟩ := inside_fields hread
  obtain ⟨blocks, hblocks, hblocksEach⟩ := inside_blocks hread
  constructor
  case root =>
    refine ⟨tag, inner, hdoc, hname, ?_, ?_⟩
    · rw [hdef]
      exact get?_of_required he hread.2.1
    · rw [hdef]
      exact get?_of_required he hread.2.2.1
  case once =>
    rw [hparts]
    exact parts_once hread
  case program =>
    rw [hparts]
    exact image_program hread hd
  case block =>
    rw [hparts]
    exact fun b => image_block hread hd
  case blocks =>
    rw [hparts, hblocks, block_ids hblocksEach,
      List.perm_ext_iff_of_nodup (Format.nodup_block_ids hd) hdistinct.blocks]
    exact Format.mem_block_ids hd
  case color =>
    rw [hparts]
    exact fun c => image_color hread hd
  case colors =>
    rw [hparts, hcolors, color_ids hcolorsEach,
      List.perm_ext_iff_of_nodup (Format.nodup_color_ids hd) hdistinct.colors]
    exact Format.mem_color_ids hd
  case field =>
    rw [hparts]
    exact fun a => image_field hread hd
  case fields =>
    rw [hparts, hfields, field_ids hfieldsEach,
      List.perm_ext_iff_of_nodup (Format.nodup_field_ids hd) hdistinct.fields.insert]
    exact Format.mem_field_ids hd
  case signatures =>
    rw [hparts]
    exact image_signatures hread hd
  case endianness =>
    rw [hparts]
    exact image_endianness hread hd
  case nested => exact nested_code hd
  case distinctColors => exact Format.nodup_color_ids hd
  case distinctFields => exact Format.nodup_field_ids hd
  case distinctBlocks => exact Format.nodup_block_ids hd
  case distinctVars => exact Format.nodup_vars hd
  case findField => exact fun id i => findIdx?_key (Format.nodup_field_ids hd)
  case findVariable =>
    intro name i
    have hn : (d.vars.map id).Nodup := by
      rw [List.map_id]
      exact Format.nodup_vars hd
    refine (findIdx?_key hn).trans ?_
    rw [Option.map_id]
    rfl
  case unused =>
    rw [hparts]
    exact image_unused hread hd

/-- A color that is declared after its mention, a field cut to bits, a variable, and a block called
from its own body. -/
def mentionsSample : String :=
  "<format name='n' short='s'><run><loop count='2'><match var='v' eq='1'><block ref='b'/></match>
   </loop></run><endianness order='big'/>
   <magic><signature><match value='00'/></signature></magic>
   <field-defs><field id='f' color='c'><size fixed='1'/><mask value='0f'/><print mode='flags'/>
   <flags><flag name='x' mask='01'/></flags></field></field-defs>
   <colors><color id='c' index='1'/></colors>
   <block-defs><block-def id='b'><selection><field ref='f' var='v'/><block ref='b'/></selection>
   </block-def></block-defs></format>"

set_option maxRecDepth 4000 in
theorem compile_isImage_mentionsSample : ∃ d, compile mentionsSample.toList = .ok d ∧
    d.IsImage (Content.ofSource mentionsSample.toList) := by
  have hc : (compile mentionsSample.toList).isOk = true := by
    rw [show mentionsSample.toList = _ from String.toList_ofList]
    decide +kernel
  obtain ⟨d, hd⟩ := exists_ok hc
  exact ⟨d, hd, compile_isImage hd⟩

end Dissect.Document
