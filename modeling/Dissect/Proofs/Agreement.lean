import Dissect.Proofs.Numbering

/-! Numbers give back the identifiers they stand for. Two renamings that agree on everything a
program mentions make the same of it; looking a number up in the tables of a definition undoes the
numbering of its document, as far as the document mentions anything. -/
namespace Dissect.Document
variable {σ : Type}

/-! ## Renamings that agree -/

structure AgreeOn (r r' : Renaming Reference σ) (m : Mentions) : Prop where
  color : ∀ x ∈ m.colors, r.color x = r'.color x
  field : ∀ x ∈ m.fields, r.field x = r'.field x
  block : ∀ x ∈ m.blocks, r.block x = r'.block x
  var : ∀ x ∈ m.vars, r.var x = r'.var x

namespace AgreeOn
variable {r r' : Renaming Reference σ}

theorem append {a b : Mentions} : AgreeOn r r' (a ++ b) ↔ AgreeOn r r' a ∧ AgreeOn r r' b := by
  constructor
  · intro h
    exact ⟨⟨fun x hx => h.color x (List.mem_append_left _ hx),
      fun x hx => h.field x (List.mem_append_left _ hx),
      fun x hx => h.block x (List.mem_append_left _ hx),
      fun x hx => h.var x (List.mem_append_left _ hx)⟩,
      ⟨fun x hx => h.color x (List.mem_append_right _ hx),
      fun x hx => h.field x (List.mem_append_right _ hx),
      fun x hx => h.block x (List.mem_append_right _ hx),
      fun x hx => h.var x (List.mem_append_right _ hx)⟩⟩
  · intro ⟨ha, hb⟩
    exact ⟨List.forall_mem_append.2 ⟨ha.color, hb.color⟩,
      List.forall_mem_append.2 ⟨ha.field, hb.field⟩,
      List.forall_mem_append.2 ⟨ha.block, hb.block⟩, List.forall_mem_append.2 ⟨ha.var, hb.var⟩⟩

theorem of_gather {α : Type} {of : α → Mentions} {as : List α}
    (h : AgreeOn r r' (Mentions.gather of as)) {a : α} (ha : a ∈ as) : AgreeOn r r' (of a) := by
  induction as with
  | nil => cases ha
  | cons b as ih =>
    obtain ⟨hb, has⟩ := append.1 h
    rcases List.mem_cons.1 ha with rfl | ha
    · exact hb
    · exact ih has ha

end AgreeOn

section Congr
variable {r r' : Renaming Reference σ}

theorem operand_congr {o : Operand Reference} (h : ∀ x ∈ Operand.vars o, r.var x = r'.var x) :
    r.operand o = r'.operand o := by
  cases o with
  | literal value => rfl
  | var id => exact congrArg Operand.var (h id (List.mem_singleton_self id))

theorem optional_congr {o : Option (Operand Reference)}
    (h : ∀ x ∈ optionalVars o, r.var x = r'.var x) : o.map r.operand = o.map r'.operand := by
  cases o with
  | none => rfl
  | some o => exact congrArg some (operand_congr h)

theorem guard_congr {g : Guard Reference} (h : ∀ x ∈ guardVars g, r.var x = r'.var x) :
    r.guard g = r'.guard g := by
  cases g with
  | bytes pattern convert => rfl
  | var id test =>
    obtain ⟨hid, htest⟩ := List.forall_mem_cons.1 h
    cases test with
    | defined => simp only [Renaming.guard, Renaming.test, hid]
    | equals o => simp only [Renaming.guard, Renaming.test, hid, operand_congr htest]
    | greater o => simp only [Renaming.guard, Renaming.test, hid, operand_congr htest]
    | bit o => simp only [Renaming.guard, Renaming.test, hid, operand_congr htest]

theorem loopGuard_congr {g : LoopGuard Reference}
    (h : ∀ x ∈ conditionVars g.condition, r.var x = r'.var x) : r.loopGuard g = r'.loopGuard g := by
  obtain ⟨condition, count⟩ := g
  cases condition with
  | remaining => rfl
  | always => rfl
  | below id target =>
    obtain ⟨hid, htarget⟩ := List.forall_mem_cons.1 h
    simp only [Renaming.loopGuard, Renaming.condition, hid, operand_congr htarget]

theorem action_congr {a : Action Reference} (h : AgreeOn r r' (Mentions.ofAction a)) :
    r.action a = r'.action a := by
  cases a with
  | field s =>
    obtain ⟨hfirst, hlimit⟩ := List.forall_mem_append.1 h.var
    obtain ⟨hvar, hoffset⟩ := List.forall_mem_append.1 hfirst
    have hv : s.var.map r.var = s.var.map r'.var :=
      Option.map_congr fun x hx => hvar x (by simp [hx])
    simp only [Renaming.action, h.field s.field (List.mem_singleton_self _), hv,
      optional_congr hoffset, optional_congr hlimit]
  | block id => simp only [Renaming.action, h.block id (List.mem_singleton_self _)]
  | print s => simp only [Renaming.action, h.var s.var (List.mem_singleton_self _)]
  | exec s =>
    obtain ⟨hvar, hoperand⟩ := List.forall_mem_cons.1 h.var
    simp only [Renaming.action, hvar, operand_congr hoperand]
  | title text => rfl
  | insert tab => rfl

theorem program_congr {p : Program Reference} (h : AgreeOn r r' (Mentions.ofProgram p)) :
    r.program p = r'.program p := by
  induction p with
  | done => rfl
  | act a rest ih =>
    obtain ⟨ha, hrest⟩ := AgreeOn.append.1 h
    simp only [Renaming.program, action_congr ha, ih hrest]
  | guarded g body rest ihbody ihrest =>
    obtain ⟨hg, hrest⟩ := AgreeOn.append.1 h
    obtain ⟨hbody, hrest⟩ := AgreeOn.append.1 hrest
    simp only [Renaming.program, guard_congr hg.var, ihbody hbody, ihrest hrest]
  | loop g body rest ihbody ihrest =>
    obtain ⟨hg, hrest⟩ := AgreeOn.append.1 h
    obtain ⟨hbody, hrest⟩ := AgreeOn.append.1 hrest
    simp only [Renaming.program, loopGuard_congr hg.var, ihbody hbody, ihrest hrest]
  | selection body rest ihbody ihrest =>
    obtain ⟨hbody, hrest⟩ := AgreeOn.append.1 h
    simp only [Renaming.program, ihbody hbody, ihrest hrest]

theorem field_congr {d : FieldDecl} (h : AgreeOn r r' (Mentions.ofField d)) :
    d.field.map r.color = d.field.map r'.color := by
  obtain ⟨hcolor, haccent⟩ := List.forall_mem_append.1 h.color
  have hc : d.field.color.map r.color = d.field.color.map r'.color :=
    Option.map_congr fun x hx => hcolor x (by simp [hx])
  have ha : d.field.accent.map r.color = d.field.accent.map r'.color :=
    Option.map_congr fun x hx => haccent x (by simp [hx])
  simp only [FieldDef.map, hc, ha]

theorem magicStep_congr {m : MagicStep Reference} (h : AgreeOn r r' (Mentions.ofMagicStep m)) :
    r.magicStep m = r'.magicStep m := by
  cases m with
  | pattern bytes offset => simp only [Renaming.magicStep, optional_congr h.var]
  | capture var width offset =>
    obtain ⟨hvar, hoffset⟩ := List.forall_mem_cons.1 h.var
    simp only [Renaming.magicStep, hvar, optional_congr hoffset]

theorem signature_congr {s : Signature Reference}
    (h : AgreeOn r r' (Mentions.gather Mentions.ofMagicStep s)) : r.signature s = r'.signature s :=
  List.map_congr_left fun _ hm => magicStep_congr (h.of_gather hm)

theorem endianness_congr {p : Endianness Reference}
    (h : AgreeOn r r' (Mentions.ofSection (.endianness p))) : r.endianness p = r'.endianness p := by
  cases p with
  | big => rfl
  | little => rfl
  | captured id msbMark lsbMark =>
    simp only [Renaming.endianness, h.var id (List.mem_singleton_self _)]

end Congr

end Dissect.Document

namespace Dissect

/-- The texts that numbers stand for; a number out of range stands for none. -/
def Definition.lookup (d : Definition) : Renaming Nat (Option String) where
  color i := d.colors[i]?.map (·.id)
  field i := d.fields[i]?.map (·.id)
  block i := d.blocks[i]?.map (·.id)
  var i := d.vars[i]?

end Dissect

namespace Dissect.Document

def found : Renaming String (Option String) := ⟨some, some, some, some⟩

def texts : Renaming Reference String := ⟨(·.id), (·.id), (·.id), (·.id)⟩

theorem map_resolved {α : Type} {meaning : String → Option α} {key : α → String}
    (hkey : ∀ id a, meaning id = some a → key a = id) {rs : List Reference} {entries : List α}
    (h : rs.map (meaning ·.id) = entries.map some) : entries.map key = rs.map (·.id) := by
  induction rs generalizing entries with
  | nil =>
    cases entries with
    | nil => rfl
    | cons a entries => cases h
  | cons r rs ih =>
    cases entries with
    | nil => cases h
    | cons a entries =>
      obtain ⟨ha, hrest⟩ := List.cons.inj h
      rw [List.map_cons, List.map_cons, hkey _ _ ha, ih hrest]

theorem getElem?_numberIn {rs : List Reference} {r : Reference} (h : r ∈ rs) :
    ((firstMentions rs).map (·.id))[numberIn (firstMentions rs) r]? = some r.id := by
  have hid : r.id ∈ (firstMentions rs).map (·.id) :=
    mem_firstMentions.2 (List.mem_map_of_mem h)
  rw [numberIn_eq, List.getElem?_idxOf hid]

namespace Format

theorem color?_id {f : Format} {id : String} {c : Color} (h : f.color? id = some c) :
    c.id = id := by
  obtain ⟨decl, hdecl, rfl⟩ := Option.map_eq_some_iff.1 h
  simpa using List.find?_some hdecl

theorem field?_id {f : Format} {numbering : Renaming Reference Nat} {id : String} {a : FieldDef Nat}
    (h : f.field? numbering id = some a) : a.id = id := by
  rw [field?] at h
  split at h
  next decl hdecl =>
    cases h
    have hid : decl.field.id = id := by simpa using List.find?_some hdecl
    exact hid
  next =>
    split at h
    next hid =>
      cases h
      exact hid.symm
    next => cases h

theorem block?_id {f : Format} {numbering : Renaming Reference Nat} {id : String} {b : Block}
    (h : f.block? numbering id = some b) : b.id = id := by
  obtain ⟨decl, hdecl, rfl⟩ := Option.map_eq_some_iff.1 h
  simpa using List.find?_some hdecl

variable {f : Format} {d : Definition} (h : f.definition = .ok d)
include h

theorem color_ids_eq : d.colors.map (·.id) = f.firsts.colors.map (·.id) :=
  map_resolved (fun _ _ => color?_id) (definition_eq_ok.1 h).2.1

theorem field_ids_eq : d.fields.map (·.id) = f.firsts.fields.map (·.id) :=
  map_resolved (fun _ _ => field?_id) (definition_eq_ok.1 h).2.2.1

theorem block_ids_eq : d.blocks.map (·.id) = f.firsts.blocks.map (·.id) :=
  map_resolved (fun _ _ => block?_id) (definition_eq_ok.1 h).2.2.2.1

theorem vars_eq : d.vars = f.firsts.vars.map (·.id) := by
  obtain ⟨-, -, -, -, hdef⟩ := definition_eq_ok.1 h
  rw [hdef]

/-- What the tables say of a number is what the document mentions under it. -/
theorem lookup_agrees :
    AgreeOn (d.lookup.comp f.firsts.numbering) (found.comp texts) f.mentions := by
  constructor
  case color =>
    intro x hx
    change d.colors[numberIn f.firsts.colors x]?.map (·.id) = some x.id
    rw [← List.getElem?_map, color_ids_eq h]
    exact getElem?_numberIn hx
  case field =>
    intro x hx
    change d.fields[numberIn f.firsts.fields x]?.map (·.id) = some x.id
    rw [← List.getElem?_map, field_ids_eq h]
    exact getElem?_numberIn (List.mem_append_left _ hx)
  case block =>
    intro x hx
    change d.blocks[numberIn f.firsts.blocks x]?.map (·.id) = some x.id
    rw [← List.getElem?_map, block_ids_eq h]
    exact getElem?_numberIn hx
  case var =>
    intro x hx
    change d.vars[numberIn f.firsts.vars x]? = some x.id
    rw [vars_eq h]
    exact getElem?_numberIn hx

theorem lookup_section {s : Section} (hs : s ∈ f.sections) :
    AgreeOn (d.lookup.comp f.firsts.numbering) (found.comp texts) (Mentions.ofSection s) :=
  (lookup_agrees h).of_gather hs

end Format

end Dissect.Document
