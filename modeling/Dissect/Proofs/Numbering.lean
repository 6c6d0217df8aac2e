import Mathlib.Data.List.Find
import Mathlib.Data.Multiset.Defs
import Dissect.Proofs.Renumbering
import Dissect.Proofs.Tables

/-! Formats that say the same in another order: their tables are numbered differently, and the
definitions they give are alike but for the numbers. -/
namespace Dissect.Document

/-! The place of an entry in two lists that have the same entries. -/

def counterpart (ids ids' : List String) (i : Nat) : Nat :=
  match ids[i]? with
  | some id => ids'.idxOf id
  | none => i

section Counterpart
variable {ids ids' : List String} (h : ids.Perm ids')
include h

theorem counterpart_idxOf (id : String) : counterpart ids ids' (ids.idxOf id) = ids'.idxOf id := by
  rw [counterpart]
  by_cases hid : id ∈ ids
  · rw [List.getElem?_idxOf hid]
  · have hid' : id ∉ ids' := fun hm => hid (h.mem_iff.2 hm)
    rw [List.idxOf_eq_length hid, List.getElem?_eq_none (Nat.le_refl _), List.idxOf_eq_length hid']
    exact h.length_eq

theorem getElem?_counterpart (i : Nat) : ids'[counterpart ids ids' i]? = ids[i]? := by
  rw [counterpart]
  cases hi : ids[i]? with
  | none =>
    have hlen : ids'.length ≤ i := h.length_eq ▸ List.getElem?_eq_none_iff.1 hi
    exact List.getElem?_eq_none hlen
  | some id => exact List.getElem?_idxOf (h.mem_iff.1 (List.mem_of_getElem? hi))

theorem counterpart_injective (hn : ids.Nodup) : Function.Injective (counterpart ids ids') := by
  intro i j hij
  have hsame : ids[i]? = ids[j]? := by
    rw [← getElem?_counterpart h i, hij, getElem?_counterpart h j]
  cases hi : ids[i]? with
  | none =>
    have hj : ids[j]? = none := hsame ▸ hi
    simpa only [counterpart, hi, hj] using hij
  | some id =>
    have hlt : i < ids.length := (List.getElem?_eq_some_iff.1 hi).1
    exact (List.getElem?_inj hlt hn).1 hsame

end Counterpart

/-! Numbers by first mention. -/

theorem numberIn_eq (firsts : List Reference) (r : Reference) :
    numberIn firsts r = (firsts.map (·.id)).idxOf r.id := by
  rw [numberIn, List.idxOf, List.findIdx_map]
  rfl

theorem firstMentions_nodup (rs : List Reference) : ((firstMentions rs).map (·.id)).Nodup := by
  induction rs with
  | nil => exact List.nodup_nil
  | cons r rs ih =>
    rw [firstMentions, List.map_cons, List.nodup_cons]
    constructor
    · intro h
      obtain ⟨s, hs, hid⟩ := List.mem_map.1 h
      have hne := (List.mem_filter.1 hs).2
      simp [hid] at hne
    · exact ih.sublist (List.filter_sublist.map _)

theorem mem_firstMentions {rs : List Reference} {id : String} :
    id ∈ (firstMentions rs).map (·.id) ↔ id ∈ rs.map (·.id) := by
  have h := not_congr (@forall_firstMentions (· ≠ id) rs)
  simpa using h

theorem firstMentions_perm {rs rs' : List Reference}
    (h : ∀ id, id ∈ rs.map (·.id) ↔ id ∈ rs'.map (·.id)) :
    ((firstMentions rs).map (·.id)).Perm ((firstMentions rs').map (·.id)) := by
  rw [List.perm_ext_iff_of_nodup (firstMentions_nodup rs) (firstMentions_nodup rs')]
  intro id
  rw [mem_firstMentions, mem_firstMentions, h id]

/-! Entries that look the same have the same keys. -/

section Keys
variable {α γ : Type} {look : α → γ} {key : α → String} {tag : γ → String}
variable (hkey : ∀ a, tag (look a) = key a)
include hkey

theorem map_key (as : List α) : as.map key = (as.map look).map tag := by
  rw [List.map_map]
  exact List.map_congr_left fun a _ => (hkey a).symm

theorem nodup_of_perm {as bs : List α} (h : (as.map look).Perm (bs.map look))
    (hn : (as.map key).Nodup) : (bs.map key).Nodup := by
  rw [map_key hkey] at hn ⊢
  exact (h.map tag).nodup_iff.1 hn

theorem find?_perm {as bs : List α} (h : (as.map look).Perm (bs.map look))
    (hn : (as.map key).Nodup) (id : String) :
    (as.find? (key · == id)).map look = (bs.find? (key · == id)).map look := by
  have hfind (as : List α) :
      (as.find? (key · == id)).map look = (as.map look).find? (tag · == id) := by
    rw [List.find?_map]
    congr 2
    funext a
    rw [Function.comp, hkey]
  rw [map_key hkey] at hn
  rw [hfind, hfind]
  apply List.find?_eq_find?_of_perm h
  intro c hc d hd
  have htag : tag c = tag d := (eq_of_beq hc.2).trans (eq_of_beq hd.2).symm
  exact List.inj_on_of_nodup_map hn hc.1 hd.1 htag

end Keys

/-! References without the elements that make them. -/

def Reference.bare (r : Reference) : Reference := ⟨r.id, "", 0⟩

def stripped : Renaming Reference Reference :=
  ⟨Reference.bare, Reference.bare, Reference.bare, Reference.bare⟩

def FieldDecl.bare (d : FieldDecl) : FieldDef Reference := d.field.map Reference.bare

def BlockDecl.bare (d : BlockDecl) : String × Program Reference :=
  (d.id, stripped.program d.program)

theorem vars_bare (o : Operand Reference) :
    Operand.vars (stripped.operand o) = (Operand.vars o).map Reference.bare := by
  cases o <;> rfl

theorem optionalVars_bare (o : Option (Operand Reference)) :
    optionalVars (o.map stripped.operand) = (optionalVars o).map Reference.bare := by
  cases o with
  | none => rfl
  | some o => exact vars_bare o

theorem guardVars_bare (g : Guard Reference) :
    guardVars (stripped.guard g) = (guardVars g).map Reference.bare := by
  cases g with
  | bytes pattern convert => rfl
  | var id test =>
    cases test with
    | defined => rfl
    | _ o => exact congrArg (id.bare :: ·) (vars_bare o)

theorem conditionVars_bare (c : LoopCondition Reference) :
    conditionVars (stripped.condition c) = (conditionVars c).map Reference.bare := by
  cases c with
  | below id target => exact congrArg (id.bare :: ·) (vars_bare target)
  | _ => rfl

inductive Mention where
  | color (id : String)
  | field (id : String)
  | block (id : String)
  | var (id : String)

namespace Mentions

def Has (m : Mentions) : Mention → Prop
  | .color id => id ∈ m.colors.map (·.id)
  | .field id => id ∈ m.fields.map (·.id)
  | .block id => id ∈ m.blocks.map (·.id)
  | .var id => id ∈ m.vars.map (·.id)

theorem colors_append (a b : Mentions) : (a ++ b).colors = a.colors ++ b.colors := rfl

theorem fields_append (a b : Mentions) : (a ++ b).fields = a.fields ++ b.fields := rfl

theorem blocks_append (a b : Mentions) : (a ++ b).blocks = a.blocks ++ b.blocks := rfl

theorem vars_append (a b : Mentions) : (a ++ b).vars = a.vars ++ b.vars := rfl

theorem has_append {a b : Mentions} {x : Mention} : (a ++ b).Has x ↔ a.Has x ∨ b.Has x := by
  cases x <;> simp only [Has, colors_append, fields_append, blocks_append, vars_append,
    List.map_append, List.mem_append]

theorem has_gather {α : Type} {of : α → Mentions} {as : List α} {x : Mention} :
    (gather of as).Has x ↔ ∃ a ∈ as, (of a).Has x := by
  induction as with
  | nil => cases x <;> simp [gather, Has]
  | cons a as ih => rw [gather, has_append, ih, List.exists_mem_cons_iff]

theorem has_gather_congr {α γ : Type} {of : α → Mentions} {look : α → γ}
    (hlook : ∀ a b, look a = look b → ∀ x, (of a).Has x ↔ (of b).Has x) {as bs : List α}
    (h : (as.map look).Perm (bs.map look)) (x : Mention) :
    (gather of as).Has x ↔ (gather of bs).Has x := by
  have himp {as bs : List α} (h : (as.map look).Perm (bs.map look))
      (hx : (gather of as).Has x) : (gather of bs).Has x := by
    obtain ⟨a, ha, hax⟩ := has_gather.1 hx
    obtain ⟨b, hb, hab⟩ := List.mem_map.1 (h.mem_iff.1 (List.mem_map_of_mem ha))
    exact has_gather.2 ⟨b, hb, (hlook a b hab.symm x).1 hax⟩
  exact ⟨himp h, himp h.symm⟩

def bare (m : Mentions) : Mentions :=
  ⟨m.colors.map Reference.bare, m.fields.map Reference.bare, m.blocks.map Reference.bare,
    m.vars.map Reference.bare⟩

theorem has_bare {m : Mentions} {x : Mention} : m.bare.Has x ↔ m.Has x := by
  have hid (rs : List Reference) : (rs.map Reference.bare).map (·.id) = rs.map (·.id) := by
    rw [List.map_map]
    rfl
  cases x <;> simp only [Has, bare, hid]

theorem bare_append (a b : Mentions) : (a ++ b).bare = a.bare ++ b.bare := by
  simp only [bare, colors_append, fields_append, blocks_append, vars_append, List.map_append]
  rfl

theorem ofAction_bare (a : Action Reference) :
    ofAction (stripped.action a) = (ofAction a).bare := by
  cases a with
  | field s =>
    have hvar : (s.var.map Reference.bare).toList = s.var.toList.map Reference.bare := by
      cases s.var <;> rfl
    have hvars :
        (s.var.map Reference.bare).toList ++ optionalVars (s.offset.map stripped.operand) ++
        optionalVars (s.limit.map stripped.operand) =
          (s.var.toList ++ optionalVars s.offset ++ optionalVars s.limit).map Reference.bare := by
      simp only [hvar, optionalVars_bare, List.map_append]
    exact congrArg (Mentions.mk [] [s.field.bare] []) hvars
  | exec s =>
    exact congrArg (fun vars => Mentions.mk [] [] [] (s.var.bare :: vars)) (vars_bare s.operand)
  | _ => rfl

theorem ofProgram_bare (p : Program Reference) :
    ofProgram (stripped.program p) = (ofProgram p).bare := by
  induction p with
  | done => rfl
  | act a rest ih => simp only [Renaming.program, ofProgram, ofAction_bare, ih, bare_append]
  | guarded g body rest ihb ih => 
    simp only [Renaming.program, ofProgram, ihb, ih, bare_append, guardVars_bare]
    rfl
  | loop g body rest ihb ih =>
    simp only [Renaming.program, ofProgram, ihb, ih, bare_append, Renaming.loopGuard,
      conditionVars_bare]
    rfl
  | selection body rest ihb ih => simp only [Renaming.program, ofProgram, ihb, ih, bare_append]

theorem has_of_bare {a b : Mentions} (h : a.bare = b.bare) (x : Mention) : a.Has x ↔ b.Has x := by
  rw [← has_bare, h, has_bare]

theorem ofMagicStep_bare (m : MagicStep Reference) :
    (ofMagicStep m).bare = ofMagicStep (stripped.magicStep m) := by
  cases m with
  | pattern bytes offset =>
    exact congrArg (Mentions.mk [] [] []) (optionalVars_bare offset).symm
  | capture var width offset =>
    exact congrArg (fun vars => Mentions.mk [] [] [] (var.bare :: vars))
      (optionalVars_bare offset).symm

theorem ofColor_bare (d : ColorDecl) :
    (ofColor d).bare = { colors := [⟨d.color.id, "", 0⟩] } := rfl

theorem ofField_bare (d : FieldDecl) : (ofField d).bare =
    { colors := d.bare.color.toList ++ d.bare.accent.toList
      fields := [⟨d.bare.id, "", 0⟩] } := by
  have hoption (r : Option Reference) :
      r.toList.map Reference.bare = (r.map Reference.bare).toList := by
    cases r <;> rfl
  simp only [ofField, bare, List.map_append, hoption]
  rfl

theorem ofBlock_bare (d : BlockDecl) :
    (ofBlock d).bare = { blocks := [⟨d.bare.1, "", 0⟩] } ++ ofProgram d.bare.2 := by
  rw [ofBlock, bare_append, BlockDecl.bare, ofProgram_bare]
  rfl

end Mentions

/-! What a section says, in whatever order it declares things and wherever it stands. -/

inductive Outline where
  | endianness (policy : Endianness Reference)
  | magic (signatures : List (Signature Reference))
  | colors (decls : Multiset Color)
  | fields (decls : Multiset (FieldDef Reference))
  | blocks (decls : Multiset (String × Program Reference))
  | run (program : Program Reference)

def Outline.name : Outline → String
  | .endianness _ => "endianness"
  | .magic _ => "magic"
  | .colors _ => "colors"
  | .fields _ => "field-defs"
  | .blocks _ => "block-defs"
  | .run _ => "run"

namespace Section

def outline : Section → Outline
  | .endianness policy => .endianness (stripped.endianness policy)
  | .magic signatures => .magic (signatures.map stripped.signature)
  | .colors decls => .colors (decls.map (·.color))
  | .fields decls => .fields (decls.map FieldDecl.bare)
  | .blocks decls => .blocks (decls.map BlockDecl.bare)
  | .run program => .run (stripped.program program)

theorem name_outline (s : Section) : s.outline.name = s.name := by
  cases s <;> rfl

theorem has_congr {s s' : Section} (h : s.outline = s'.outline) (x : Mention) :
    (Mentions.ofSection s).Has x ↔ (Mentions.ofSection s').Has x := by
  cases s with
  | endianness policy =>
    cases s' with
    | endianness policy' =>
      have hbare (p : Endianness Reference) : (Mentions.ofSection (.endianness p)).bare =
          Mentions.ofSection (.endianness (stripped.endianness p)) := by
        cases p <;> rfl
      apply Mentions.has_of_bare
      rw [hbare, hbare, Outline.endianness.inj h]
    | _ => cases h
  | magic signatures =>
    cases s' with
    | magic signatures' =>
      apply Mentions.has_gather_congr _ (.of_eq (Outline.magic.inj h))
      intro a b hab
      apply Mentions.has_gather_congr _ (.of_eq hab)
      intro m m' hm
      apply Mentions.has_of_bare
      rw [Mentions.ofMagicStep_bare, Mentions.ofMagicStep_bare, hm]
    | _ => cases h
  | colors decls =>
    cases s' with
    | colors decls' =>
      apply Mentions.has_gather_congr _ (Multiset.coe_eq_coe.1 (Outline.colors.inj h))
      intro d d' hd
      apply Mentions.has_of_bare
      rw [Mentions.ofColor_bare, Mentions.ofColor_bare, hd]
    | _ => cases h
  | fields decls =>
    cases s' with
    | fields decls' =>
      apply Mentions.has_gather_congr _ (Multiset.coe_eq_coe.1 (Outline.fields.inj h))
      intro d d' hd
      apply Mentions.has_of_bare
      rw [Mentions.ofField_bare, Mentions.ofField_bare, hd]
    | _ => cases h
  | blocks decls =>
    cases s' with
    | blocks decls' =>
      apply Mentions.has_gather_congr _ (Multiset.coe_eq_coe.1 (Outline.blocks.inj h))
      intro d d' hd
      apply Mentions.has_of_bare
      rw [Mentions.ofBlock_bare, Mentions.ofBlock_bare, hd]
    | _ => cases h
  | run program =>
    cases s' with
    | run program' =>
      apply Mentions.has_of_bare
      rw [Mentions.ofSection, Mentions.ofSection, ← Mentions.ofProgram_bare,
        ← Mentions.ofProgram_bare, Outline.run.inj h]
    | _ => cases h

end Section

namespace Format

def outline (f : Format) : String × String × Multiset Outline :=
  (f.name, f.shortName, f.sections.map Section.outline)

/-- Formats that say the same in another order. -/
structure Alike (f f' : Format) : Prop where
  name : f.name = f'.name
  shortName : f.shortName = f'.shortName
  sections : (f.sections.map Section.outline).Perm (f'.sections.map Section.outline)

theorem alike_of_outline {f f' : Format} (h : f.outline = f'.outline) : Alike f f' := by
  obtain ⟨hname, hrest⟩ := Prod.mk.inj h
  obtain ⟨hshort, hsections⟩ := Prod.mk.inj hrest
  exact ⟨hname, hshort, Multiset.coe_eq_coe.1 hsections⟩

theorem Alike.symm {f f' : Format} (h : Alike f f') : Alike f' f :=
  ⟨h.name.symm, h.shortName.symm, h.sections.symm⟩

structure Distinct (f : Format) : Prop where
  sections : (f.sections.map Section.name).Nodup
  colors : (f.colorDecls.map (·.color.id)).Nodup
  fields : (f.fieldDecls.map (·.field.id)).Nodup
  blocks : (f.blockDecls.map (·.id)).Nodup

theorem Reads.outline {α : Type} {make : α → Section} {a₀ : α} {read : Format → α}
    (hr : Reads make a₀ read) {f f' : Format} (h : Alike f f') (hd' : f'.Distinct) :
    (make (read f)).outline = (make (read f')).outline := by
  have hfound {f f' : Format} (h : Alike f f') {a : α} (hs : make a ∈ f.sections) :
      ∃ b, make b ∈ f'.sections ∧ (make b).outline = (make a).outline := by
    obtain ⟨s, hs, hout⟩ := List.mem_map.1 (h.sections.mem_iff.1 (List.mem_map_of_mem hs))
    have hname : s.name = (make a).name := by
      rw [← Section.name_outline, ← Section.name_outline, hout]
    obtain ⟨b, rfl⟩ := hr.sort s a hname
    exact ⟨b, hs, hout⟩
  cases hr.mem_or_eq f with
  | inl hs =>
    obtain ⟨b, hb, hout⟩ := hfound h hs
    rw [hr.eq_of_mem hd'.sections hb]
    exact hout.symm
  | inr hnone =>
    cases hr.mem_or_eq f' with
    | inl hs =>
      obtain ⟨b, hb, -⟩ := hfound h.symm hs
      exact absurd hb (hnone.2 b)
    | inr hnone' => rw [hnone.1, hnone'.1]

namespace Alike
variable {f f' : Format} (h : Alike f f') (hd' : f'.Distinct)
include h hd'

theorem endianness : stripped.endianness f.endianness = stripped.endianness f'.endianness :=
  Outline.endianness.inj (reads_endianness.outline h hd')

theorem signatures : f.signatures.map stripped.signature = f'.signatures.map stripped.signature :=
  Outline.magic.inj (reads_signatures.outline h hd')

theorem program : stripped.program f.program = stripped.program f'.program :=
  Outline.run.inj (reads_program.outline h hd')

theorem colors : (f.colorDecls.map (·.color)).Perm (f'.colorDecls.map (·.color)) :=
  Multiset.coe_eq_coe.1 (Outline.colors.inj (reads_colors.outline h hd'))

theorem fields : (f.fieldDecls.map FieldDecl.bare).Perm (f'.fieldDecls.map FieldDecl.bare) :=
  Multiset.coe_eq_coe.1 (Outline.fields.inj (reads_fields.outline h hd'))

theorem blocks : (f.blockDecls.map BlockDecl.bare).Perm (f'.blockDecls.map BlockDecl.bare) :=
  Multiset.coe_eq_coe.1 (Outline.blocks.inj (reads_blocks.outline h hd'))

end Alike

def renumbering (f f' : Format) : Renaming Nat Nat where
  color := counterpart (f.firsts.colors.map (·.id)) (f'.firsts.colors.map (·.id))
  field := counterpart (f.firsts.fields.map (·.id)) (f'.firsts.fields.map (·.id))
  block := counterpart (f.firsts.blocks.map (·.id)) (f'.firsts.blocks.map (·.id))
  var := counterpart (f.firsts.vars.map (·.id)) (f'.firsts.vars.map (·.id))

namespace Alike
variable {f f' : Format} (h : Alike f f')
include h

theorem names : (f.sections.map Section.name).Perm (f'.sections.map Section.name) := by
  rw [map_key Section.name_outline, map_key Section.name_outline]
  exact h.sections.map _

theorem mentions (x : Mention) : f.mentions.Has x ↔ f'.mentions.Has x :=
  Mentions.has_gather_congr (fun _ _ => Section.has_congr) h.sections x

theorem firstColors : (f.firsts.colors.map (·.id)).Perm (f'.firsts.colors.map (·.id)) :=
  firstMentions_perm fun id => h.mentions (.color id)

theorem firstFields : (f.firsts.fields.map (·.id)).Perm (f'.firsts.fields.map (·.id)) := by
  apply firstMentions_perm
  intro id
  rw [fieldMentions, fieldMentions, List.map_append, List.map_append, List.mem_append,
    List.mem_append]
  exact or_congr (h.mentions (.field id)) Iff.rfl

theorem firstBlocks : (f.firsts.blocks.map (·.id)).Perm (f'.firsts.blocks.map (·.id)) :=
  firstMentions_perm fun id => h.mentions (.block id)

theorem firstVars : (f.firsts.vars.map (·.id)).Perm (f'.firsts.vars.map (·.id)) :=
  firstMentions_perm fun id => h.mentions (.var id)

theorem numbering_eq : (renumbering f f').comp f.firsts.numbering = f'.firsts.numbering := by
  have hnumber {rs rs' : List Reference} (hp : (rs.map (·.id)).Perm (rs'.map (·.id))) :
      counterpart (rs.map (·.id)) (rs'.map (·.id)) ∘ numberIn rs = numberIn rs' := by
    funext r
    rw [Function.comp, numberIn_eq, counterpart_idxOf hp, numberIn_eq]
  rw [Renaming.comp, Mentions.numbering, renumbering]
  simp only [hnumber h.firstColors, hnumber h.firstFields, hnumber h.firstBlocks,
    hnumber h.firstVars]
  rfl

/-- Whatever is the same without places is the same under the numbers of `f'`. -/
theorem renumber {F : Type → Type} (map : {ρ σ : Type} → Renaming ρ σ → F ρ → F σ)
    (hcomp : ∀ {ρ σ τ : Type} (q : Renaming σ τ) (r : Renaming ρ σ) (a : F ρ),
      map (q.comp r) a = map q (map r a)) {a b : F Reference}
    (hab : map stripped a = map stripped b) :
    map f'.firsts.numbering b = map (renumbering f f') (map f.firsts.numbering a) := by
  have hstripped : f'.firsts.numbering.comp stripped = f'.firsts.numbering := rfl
  calc map f'.firsts.numbering b = map f'.firsts.numbering (map stripped b) := by
        rw [← hcomp, hstripped]
    _ = map f'.firsts.numbering a := by rw [← hab, ← hcomp, hstripped]
    _ = map (renumbering f f') (map f.firsts.numbering a) := by rw [← hcomp, h.numbering_eq]

end Alike

/-! The tables of both formats. -/

theorem getElem?_resolved {α : Type} {meaning : String → Option α} {rs : List Reference}
    {entries : List α} (h : rs.map (meaning ·.id) = entries.map some) (i : Nat) :
    entries[i]? = ((rs.map (·.id))[i]?).bind meaning := by
  have hi : (rs.map (meaning ·.id))[i]? = (entries.map some)[i]? := by rw [h]
  rw [List.getElem?_map, List.getElem?_map] at hi
  rw [List.getElem?_map]
  cases hr : rs[i]? with
  | none =>
    cases he : entries[i]? with
    | none => rfl
    | some a => simp [hr, he] at hi
  | some r =>
    cases he : entries[i]? with
    | none => simp [hr, he] at hi
    | some a =>
      rw [hr, he] at hi
      exact (Option.some.inj hi).symm

namespace Alike
variable {f f' : Format} (h : Alike f f') (hd : f.Distinct) (hd' : f'.Distinct)
include h hd hd'

theorem color? (id : String) : f'.color? id = f.color? id := by
  have hkey (d : ColorDecl) : Color.id d.color = d.color.id := rfl
  exact (find?_perm hkey (h.colors hd') hd.colors id).symm

theorem field? (id : String) : f'.field? f'.firsts.numbering id =
    (f.field? f.firsts.numbering id).map (FieldDef.map (renumbering f f').color) := by
  have hcomp {ρ σ τ : Type} (q : Renaming σ τ) (r : Renaming ρ σ) (a : FieldDef ρ) :
      a.map (q.comp r).color = (a.map r.color).map q.color := by
    simp only [FieldDef.map, Option.map_map]
    rfl
  have hkey (d : FieldDecl) : FieldDef.id d.bare = d.field.id := rfl
  have hfind := find?_perm hkey (h.fields hd') hd.fields id
  rw [Format.field?, Format.field?]
  cases ha : f.fieldDecls.find? (·.field.id == id) with
  | none =>
    rw [ha] at hfind
    rw [Option.map_eq_none_iff.1 hfind.symm]
    by_cases hid : id = unusedId
    · simp only [hid, if_true]
      rfl
    · simp only [hid, if_false]
      rfl
  | some a =>
    rw [ha] at hfind
    obtain ⟨b, hb, hab⟩ := Option.map_eq_some_iff.1 hfind.symm
    rw [hb]
    exact congrArg some (h.renumber (fun r => FieldDef.map r.color) hcomp hab.symm)

theorem block? (id : String) : f'.block? f'.firsts.numbering id =
    (f.block? f.firsts.numbering id).map
      fun b => ⟨b.id, b.steps.map (renumbering f f').step⟩ := by
  have hkey (d : BlockDecl) : Prod.fst d.bare = d.id := rfl
  have hfind := find?_perm hkey (h.blocks hd') hd.blocks id
  rw [Format.block?, Format.block?]
  cases ha : f.blockDecls.find? (·.id == id) with
  | none =>
    rw [ha] at hfind
    rw [Option.map_eq_none_iff.1 hfind.symm]
    rfl
  | some a =>
    rw [ha] at hfind
    obtain ⟨b, hb, hab⟩ := Option.map_eq_some_iff.1 hfind.symm
    obtain ⟨hid, hprogram⟩ := Prod.mk.inj hab
    rw [hb, Option.map_some, Option.map_some, Option.map_some, hid,
      h.renumber Renaming.program Renaming.program_comp hprogram.symm, Renaming.flatten_program]

/-- Definitions of both formats are alike but for the numbers. -/
theorem renumbered {d d' : Definition} (hf : f.definition = .ok d) (hf' : f'.definition = .ok d') :
    Definition.Renumbered (renumbering f f') d d' := by
  obtain ⟨-, hcolors, hfields, hblocks, hdef⟩ := definition_eq_ok.1 hf
  obtain ⟨-, hcolors', hfields', hblocks', hdef'⟩ := definition_eq_ok.1 hf'
  have hmap {α : Type} {o : Option String} {meaning : String → Option α} {g : α → α} :
      o.bind (fun id => (meaning id).map g) = (o.bind meaning).map g := by
    cases o <;> rfl
  have hcolor (i : Nat) : d'.colors[(renumbering f f').color i]? = d.colors[i]? := by
    rw [getElem?_resolved hcolors', getElem?_resolved hcolors, renumbering,
      getElem?_counterpart h.firstColors, funext (h.color? hd hd')]
  have hfield (i : Nat) : d'.fields[(renumbering f f').field i]? =
      (d.fields[i]?).map (FieldDef.map (renumbering f f').color) := by
    rw [getElem?_resolved hfields', getElem?_resolved hfields, ← hmap,
      ← funext (h.field? hd hd')]
    exact congrArg (Option.bind · _) (getElem?_counterpart h.firstFields i)
  have hblock (i : Nat) : d'.blocks[(renumbering f f').block i]? =
      (d.blocks[i]?).map fun b => ⟨b.id, b.steps.map (renumbering f f').step⟩ := by
    rw [getElem?_resolved hblocks', getElem?_resolved hblocks, ← hmap,
      ← funext (h.block? hd hd')]
    exact congrArg (Option.bind · _) (getElem?_counterpart h.firstBlocks i)
  have hprogram := h.renumber Renaming.program Renaming.program_comp (h.program hd')
  have hcomp {ρ σ τ : Type} (q : Renaming σ τ) (r : Renaming ρ σ) (s : List (Signature ρ)) :
      s.map (q.comp r).signature = (s.map r.signature).map q.signature := by
    rw [List.map_map]
    exact List.map_congr_left fun a _ => Renaming.signature_comp q r a
  have hsignatures := h.renumber (fun r => List.map r.signature) hcomp (h.signatures hd')
  constructor
  case name => rw [hdef', hdef, h.name]
  case endianness =>
    rw [hdef', hdef]
    exact h.renumber Renaming.endianness Renaming.endianness_comp (h.endianness hd')
  case color => exact hcolor
  case field =>
    intro i
    rw [Definition.field, hfield, Definition.field]
    cases d.fields[i]? <;> rfl
  case signatures =>
    rw [hdef', hdef]
    exact hsignatures
  case block =>
    intro i
    rw [Definition.block, hblock, Definition.block]
    cases d.blocks[i]? <;> rfl
  case program =>
    rw [hdef', hdef]
    exact (congrArg Program.flatten hprogram).trans (Renaming.flatten_program _ _)
  case variableName =>
    intro i
    rw [Definition.variableName, Definition.variableName, hdef', hdef]
    exact congrArg (Option.getD · "") (getElem?_counterpart h.firstVars i)
  case unused =>
    rw [hdef', hdef]
    exact (congrFun (congrArg Renaming.field h.numbering_eq) ⟨unusedId, "", 0⟩).symm
  case blocks => exact counterpart_injective h.firstBlocks (firstMentions_nodup _)
  case vars => exact counterpart_injective h.firstVars (firstMentions_nodup _)

theorem exists_definition (hdef : ∃ d, f.definition = .ok d) : ∃ d', f'.definition = .ok d' := by
  have hcolor (id : String) : f.Declares .color id ↔ f'.Declares .color id := by
    rw [← color?_isSome hd.sections, ← color?_isSome hd'.sections, h.color? hd hd']
  have hfield (id : String) : f.Declares .field id ↔ f'.Declares .field id := by
    rw [← @field?_isSome f hd.sections f.firsts.numbering,
      ← @field?_isSome f' hd'.sections f'.firsts.numbering, h.field? hd hd', Option.isSome_map]
  have hblock (id : String) : f.Declares .block id ↔ f'.Declares .block id := by
    rw [← @block?_isSome f hd.sections f.firsts.numbering,
      ← @block?_isSome f' hd'.sections f'.firsts.numbering, h.block? hd hd', Option.isSome_map]
  obtain ⟨hmissing, hdeclared⟩ := (Format.exists_definition hd.sections).1 hdef
  refine (Format.exists_definition hd'.sections).2 ⟨?_, ?_⟩
  · rw [missingSection?_eq_none] at hmissing ⊢
    intro name hname
    exact h.names.mem_iff.1 (hmissing name hname)
  · intro table r hr
    cases table with
    | color =>
      obtain ⟨s, hs, hid⟩ := List.mem_map.1 ((h.mentions (.color r.id)).2 (List.mem_map_of_mem hr))
      have hs' : f.Declares .color s.id := hdeclared .color s hs
      exact (hcolor r.id).1 (hid ▸ hs')
    | field =>
      obtain ⟨s, hs, hid⟩ := List.mem_map.1 ((h.mentions (.field r.id)).2 (List.mem_map_of_mem hr))
      have hs' : f.Declares .field s.id := hdeclared .field s hs
      exact (hfield r.id).1 (hid ▸ hs')
    | block =>
      obtain ⟨s, hs, hid⟩ := List.mem_map.1 ((h.mentions (.block r.id)).2 (List.mem_map_of_mem hr))
      have hs' : f.Declares .block s.id := hdeclared .block s hs
      exact (hblock r.id).1 (hid ▸ hs')

end Alike

end Format

end Dissect.Document
