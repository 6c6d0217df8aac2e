import Dissect.Proofs.Numbering
import Dissect.Proofs.Relocation

/-! The order of the independent parts of a document does not matter: neither for whether it
compiles nor for anything that a definition is used for. -/
namespace Dissect.Document

def unordered : List String := ["format", "colors", "field-defs", "block-defs"]

def Tag.agrees (t t' : Tag) : Bool :=
  match t.attributes, t'.attributes with
  | .ok attributes, .ok attributes' => t.name == t'.name && attributes == attributes'
  | _, _ => false

theorem Tag.eq_of_agrees {t t' : Tag} (h : t.agrees t' = true) :
    t.name = t'.name ∧ t.attributes = t'.attributes := by
  rw [agrees] at h
  split at h
  next attributes attributes' ha ha' =>
    rw [Bool.and_eq_true, beq_iff_eq, beq_iff_eq] at h
    exact ⟨h.1, by rw [ha, ha', h.2]⟩
  next => cases h

namespace Content

/-- The contents of an element before and after its parts are put in another order. Everything may
be moved to another place of the text. -/
inductive Rearranged : String → Content → Content → Prop where
  | done (parent : String) : Rearranged parent .done .done
  | blemish (parent : String) (offset offset' : Nat) (cause cause' : Cause) :
    Rearranged parent (.blemish offset cause) (.blemish offset' cause')
  | element {parent : String} {tag tag' : Tag} {inner inner' rest rest' : Content} :
    tag.name = tag'.name → tag.attributes = tag'.attributes → Rearranged tag.name inner inner' →
    Rearranged parent rest rest' →
    Rearranged parent (.element tag inner rest) (.element tag' inner' rest')
  | swap {parent : String} (tag tag' : Tag) (inner inner' rest : Content) : parent ∈ unordered →
    Rearranged parent (.element tag inner (.element tag' inner' rest))
      (.element tag' inner' (.element tag inner rest))
  | trans {parent : String} {c c' c'' : Content} :
    Rearranged parent c c' → Rearranged parent c' c'' → Rearranged parent c c''

theorem Rearranged.refl (parent : String) (c : Content) : Rearranged parent c c := by
  induction c generalizing parent with
  | done => exact .done parent
  | blemish offset cause => exact .blemish parent offset offset cause cause
  | element tag inner rest ihinner ihrest =>
    exact .element rfl rfl (ihinner tag.name) (ihrest parent)

theorem Rearranged.symm {parent : String} {c c' : Content} (h : Rearranged parent c c') :
    Rearranged parent c' c := by
  induction h with
  | done parent => exact .done parent
  | blemish parent offset offset' cause cause' => exact .blemish parent offset' offset cause' cause
  | element hname hattributes _ _ ihinner ihrest =>
    exact .element hname.symm hattributes.symm (hname ▸ ihinner) ihrest
  | swap tag tag' inner inner' rest hparent => exact .swap tag' tag inner' inner rest hparent
  | trans _ _ ih ih' => exact .trans ih' ih

theorem Rearranged.done_iff {parent : String} {c c' : Content} (h : Rearranged parent c c') :
    c = .done ↔ c' = .done := by
  induction h with
  | done parent => rfl
  | blemish parent offset offset' cause cause' => simp
  | element => simp
  | swap => simp
  | trans _ _ ih ih' => exact ih.trans ih'

/-- Stray text or broken markup is met somewhere. -/
def Broken : Content → Prop
  | .done => False
  | .blemish _ _ => True
  | .element _ inner rest => inner.Broken ∨ rest.Broken

/-- The first element of a row that is accepted, and the row without it. Others are skipped only
where the order is free. -/
def take? (parent : String) (accept : Tag → Content → Bool) :
    Content → Option (Tag × Content × Content)
  | .element tag inner rest =>
    if accept tag inner then some (tag, inner, rest)
    else if parent ∈ unordered then
      (rest.take? parent accept).map fun p => (p.1, p.2.1, .element tag inner p.2.2)
    else none
  | _ => none

def isRearranged : Content → String → Content → Bool
  | .done, _, .done => true
  | .element tag inner rest, parent, c' =>
    match c'.take? parent fun tag' inner' =>
      tag.agrees tag' && inner.isRearranged tag.name inner' with
    | some (_, _, rest') => rest.isRearranged parent rest'
    | none => false
  | _, _, _ => false

theorem take?_eq_some {parent : String} {accept : Tag → Content → Bool} {tag : Tag}
    {c inner rest : Content} (h : c.take? parent accept = some (tag, inner, rest)) :
    accept tag inner = true ∧ Rearranged parent (.element tag inner rest) c := by
  induction c generalizing rest with
  | done => cases h
  | blemish offset cause => cases h
  | element tag' inner' rest' _ ih =>
    rw [take?] at h
    by_cases haccept : accept tag' inner' = true
    · rw [if_pos haccept] at h
      cases h
      exact ⟨haccept, .refl _ _⟩
    · by_cases hparent : parent ∈ unordered
      · rw [if_neg haccept, if_pos hparent, Option.map_eq_some_iff] at h
        obtain ⟨⟨t, i, others⟩, htake, heq⟩ := h
        cases heq
        obtain ⟨haccept, hothers⟩ := ih htake
        exact ⟨haccept, .trans (.swap t tag' i inner' others hparent)
          (.element rfl rfl (.refl _ _) hothers)⟩
      · rw [if_neg haccept, if_neg hparent] at h
        cases h

theorem rearranged_of_isRearranged {c c' : Content} {parent : String}
    (h : c.isRearranged parent c' = true) : Rearranged parent c c' := by
  induction c generalizing parent c' with
  | done =>
    cases c' with
    | done => exact .done parent
    | _ => cases h
  | blemish offset cause => cases h
  | element tag inner rest ihinner ihrest =>
    rw [isRearranged] at h
    cases htake : c'.take? parent fun tag' inner' =>
        tag.agrees tag' && inner.isRearranged tag.name inner' with
    | none => simp [htake] at h
    | some found =>
      obtain ⟨tag', inner', rest'⟩ := found
      obtain ⟨haccept, hrearranged⟩ := take?_eq_some htake
      rw [Bool.and_eq_true] at haccept
      obtain ⟨hname, hattributes⟩ := Tag.eq_of_agrees haccept.1
      rw [htake] at h
      exact .trans (.element hname hattributes (ihinner haccept.2) (ihrest h)) hrearranged

theorem Conforms.not_broken {declared : Table → String → Prop} {context : Context} {depth : Nat}
    {c : Content} (h : c.Conforms declared context depth) : ¬c.Broken := by
  induction c generalizing context depth with
  | done => exact id
  | blemish offset cause => exact h.elim
  | element tag inner rest ihinner ihrest =>
    obtain ⟨⟨e, -, form, -, -, -, hinner⟩, hrest⟩ := conforms_element.1 h
    intro hbroken
    cases hbroken with
    | inl hbroken => exact ihinner hinner hbroken
    | inr hbroken => exact ihrest hrest hbroken

end Content

theorem enter_moved {tag tag' : Tag} {depth : Nat} {e : Element} (hname : tag.name = tag'.name)
    (hattributes : tag.attributes = tag'.attributes) (he : tag.enter depth = .ok e) :
    tag'.enter depth = .ok (e.moved tag'.offset) := by
  rw [enter_eq_ok] at he ⊢
  obtain ⟨hdepth, attributes, ha, rfl⟩ := he
  refine ⟨hdepth, attributes, hattributes ▸ ha, ?_⟩
  rw [← hname]
  rfl

section Rows
variable {α γ : Type} {one : Element → Content → α → Prop} {look : α → γ} {depth : Nat}

theorem Content.Each.rearranged
    (hone : ∀ e offset inner inner' x, Content.Rearranged e.name inner inner' → one e inner x →
      ∃ x', one (e.moved offset) inner' x' ∧ look x = look x')
    {parent : String} {c c' : Content} (h : Content.Rearranged parent c c') {xs : List α}
    (hxs : c.Each depth one xs) : ∃ xs', c'.Each depth one xs' ∧
      (xs.map look).Perm (xs'.map look) ∧ (parent ∉ unordered → xs.map look = xs'.map look) := by
  induction h generalizing xs with
  | done parent =>
    cases hxs
    exact ⟨[], rfl, .refl _, fun _ => rfl⟩
  | blemish parent offset offset' cause cause' => exact hxs.elim
  | @element parent tag tag' inner inner' rest rest' hname hattributes hinner _ _ ih =>
    cases xs with
    | nil => exact hxs.elim
    | cons x xs =>
      obtain ⟨⟨e, he, hx⟩, hxs⟩ := hxs
      obtain ⟨xs', hxs', hperm, heq⟩ := ih hxs
      have hinner' : Content.Rearranged e.name inner inner' := name_of_enter he ▸ hinner
      obtain ⟨x', hx', hlook⟩ := hone e tag'.offset inner inner' x hinner' hx
      refine ⟨x' :: xs', ⟨⟨_, enter_moved hname hattributes he, hx'⟩, hxs'⟩, ?_, ?_⟩
      · rw [List.map_cons, List.map_cons, hlook]
        exact hperm.cons _
      · intro hp
        rw [List.map_cons, List.map_cons, hlook, heq hp]
  | swap tag tag' inner inner' rest hparent =>
    cases xs with
    | nil => exact hxs.elim
    | cons x xs =>
      obtain ⟨hx, hxs⟩ := hxs
      cases xs with
      | nil => exact hxs.elim
      | cons y xs =>
        obtain ⟨hy, hxs⟩ := hxs
        exact ⟨y :: x :: xs, ⟨hy, hx, hxs⟩, .swap _ _ _, fun hp => absurd hparent hp⟩
  | trans _ _ ih ih' =>
    obtain ⟨ys, hys, hperm, heq⟩ := ih hxs
    obtain ⟨zs, hzs, hperm', heq'⟩ := ih' hys
    exact ⟨zs, hzs, hperm.trans hperm', fun hp => (heq hp).trans (heq' hp)⟩

theorem Content.Each.same
    (hone : ∀ e offset inner inner' x, Content.Rearranged e.name inner inner' →
      one e inner x → one (e.moved offset) inner' x)
    {parent : String} (hp : parent ∉ unordered) {c c' : Content}
    (h : Content.Rearranged parent c c') {xs : List α} (hxs : c.Each depth one xs) :
    c'.Each depth one xs := by
  have hone' (e : Element) (offset : Nat) (inner inner' : Content) (x : α)
      (h : Content.Rearranged e.name inner inner') (hx : one e inner x) :
      ∃ x', one (e.moved offset) inner' x' ∧ id x = id x' :=
    ⟨x, hone e offset inner inner' x h hx, rfl⟩
  obtain ⟨xs', hxs', -, heq⟩ := hxs.rearranged hone' h
  rw [List.map_id, List.map_id] at heq
  rw [heq hp]
  exact hxs'

end Rows

section Moved
variable {e : Element} {offset : Nat} {inner inner' : Content}
variable (h : Content.Rearranged e.name inner inner')
include h

theorem OptionEntry.read_moved {x : OptionEntry} (hx : OptionEntry.Read e inner x) :
    OptionEntry.Read (e.moved offset) inner' x := by
  obtain ⟨hn, hname, hvalue, honly, hinner⟩ := hx
  exact ⟨hn, Element.required_moved.2 hname, Element.hex_moved.2 hvalue,
    Element.only_moved.2 honly, h.done_iff.1 hinner⟩

theorem FlagEntry.read_moved {x : FlagEntry} (hx : FlagEntry.Read e inner x) :
    FlagEntry.Read (e.moved offset) inner' x := by
  obtain ⟨hn, hname, ⟨bytes, hbytes, hword⟩, hmask, honly, hinner, hmeaning⟩ := hx
  exact ⟨hn, Element.required_moved.2 hname, ⟨bytes, Element.hex_moved.2 hbytes, hword⟩, hmask,
    Element.only_moved.2 honly, h.done_iff.1 hinner, hmeaning⟩

theorem Part.read_moved {x : Part} (hx : x.Read e inner) : x.Read (e.moved offset) inner' := by
  cases x with
  | size rule =>
    exact ⟨hx.1, Element.size_moved hx.2.1, Element.only_moved.2 hx.2.2.1, h.done_iff.1 hx.2.2.2⟩
  | mask bytes =>
    exact ⟨hx.1, Element.mask_moved hx.2.1, Element.only_moved.2 hx.2.2.1, h.done_iff.1 hx.2.2.2⟩
  | shift bits =>
    exact ⟨hx.1, Element.shift_moved hx.2.1, Element.only_moved.2 hx.2.2.1, h.done_iff.1 hx.2.2.2⟩
  | encoding form =>
    exact ⟨hx.1, Element.encoding_moved hx.2.1, Element.only_moved.2 hx.2.2.1,
      h.done_iff.1 hx.2.2.2⟩
  | print mode =>
    exact ⟨hx.1, Element.printMode_moved hx.2.1, Element.only_moved.2 hx.2.2.1,
      h.done_iff.1 hx.2.2.2⟩
  | options entries =>
    obtain ⟨hn, honly, hentries, hne⟩ := hx
    have hp : e.name ∉ unordered := by simp [hn, unordered]
    refine ⟨hn, Element.only_moved.2 honly, hentries.same ?_ hp h, hne⟩
    intro _ _ _ _ _ h hx
    exact OptionEntry.read_moved h hx
  | flags entries =>
    obtain ⟨hn, honly, hentries, hne⟩ := hx
    have hp : e.name ∉ unordered := by simp [hn, unordered]
    refine ⟨hn, Element.only_moved.2 honly, hentries.same ?_ hp h, hne⟩
    intro _ _ _ _ _ h hx
    exact FlagEntry.read_moved h hx

/-! Entries with references keep what they say without their places. -/

theorem ColorDecl.read_moved {x : ColorDecl} (hx : ColorDecl.Read e inner x) :
    ∃ x', ColorDecl.Read (e.moved offset) inner' x' ∧ x.color = x'.color := by
  obtain ⟨hn, hid, hindex, hbackground, honly, hinner, hname, -⟩ := hx
  exact ⟨⟨x.color, offset⟩, ⟨hn, Element.required_moved.2 hid, Element.natural?_moved.2 hindex,
    Element.flag_moved.2 hbackground, Element.only_moved.2 honly, h.done_iff.1 hinner, hname, rfl⟩,
    rfl⟩

theorem MagicStep.read_moved {x : MagicStep Reference} (hx : MagicStep.Read e inner x) :
    ∃ x', MagicStep.Read (e.moved offset) inner' x' ∧
      stripped.magicStep x = stripped.magicStep x' := by
  refine ⟨(relocation offset).magicStep x, ?_,
    Renaming.magicStep_comp stripped (relocation offset) x⟩
  cases x with
  | pattern bytes position =>
    obtain ⟨hn, hvalue, hposition, honly, hinner⟩ := hx
    exact ⟨hn, Element.hex_moved.2 hvalue, Element.operand?_moved hposition,
      Element.only_moved.2 honly, h.done_iff.1 hinner⟩
  | capture var width position =>
    obtain ⟨hn, hvar, hwidth, hposition, honly, hinner⟩ := hx
    exact ⟨hn, Element.var_moved hvar, Element.width?_moved.2 hwidth,
      Element.operand?_moved hposition, Element.only_moved.2 honly, h.done_iff.1 hinner⟩

theorem Signature.read_moved {x : Signature Reference} (hx : Signature.Read e inner x) :
    ∃ x', Signature.Read (e.moved offset) inner' x' ∧
      stripped.signature x = stripped.signature x' := by
  obtain ⟨hn, honly, hsteps, hne⟩ := hx
  have hp : e.name ∉ unordered := by simp [hn, unordered]
  obtain ⟨x', hsteps', hperm, heq⟩ := hsteps.rearranged
    (fun _ _ _ _ _ h hx => MagicStep.read_moved h hx) h
  refine ⟨x', ⟨hn, Element.only_moved.2 honly, hsteps', ?_⟩, heq hp⟩
  intro hnil
  rw [hnil] at hperm
  exact hne (List.map_eq_nil_iff.1 hperm.eq_nil)

theorem FieldDecl.read_moved {x : FieldDecl} (hx : FieldDecl.Read e inner x) :
    ∃ x', FieldDecl.Read (e.moved offset) inner' x' ∧ x.bare = x'.bare := by
  obtain ⟨hn, hid, honly, ⟨xs, parts, ⟨heach, hputs⟩, hf⟩, -⟩ := hx
  have hp : e.name ∉ unordered := by simp [hn, unordered]
  have heach' : inner'.Each 4 (fun e inner part => Part.Read e inner part) xs :=
    heach.same (fun _ _ _ _ _ h hx => Part.read_moved h hx) hp h
  refine ⟨⟨x.field.map (Reference.moved offset), offset⟩, ⟨hn, Element.required_moved.2 hid,
    Element.only_moved.2 honly, ⟨xs, parts, ⟨heach', hputs⟩, ?_⟩, rfl⟩, ?_⟩
  · exact FieldParts.field_moved hf
  · simp only [FieldDecl.bare, FieldDef.map, Option.map_map]
    rfl

end Moved

theorem head_ordered {e : Element} {head : Head} (h : e.head = .ok head) : e.name ∉ unordered := by
  have hn := head_eq_ok.1 h
  cases head with
  | act a => cases a <;> simp [hn.1, unordered]
  | _ => simp [hn.1, unordered]

theorem program_moved {parent parent' : String} {depth : Nat} {c c' : Content}
    (h : Content.Rearranged parent c c') (hp : parent ∉ unordered) {p : Program Reference}
    (hc : c.program parent' depth = .ok p) :
    ∃ p', c'.program parent' depth = .ok p' ∧ stripped.program p = stripped.program p' := by
  induction h generalizing parent' depth p with
  | done parent => exact ⟨p, hc, rfl⟩
  | blemish parent offset offset' cause cause' => cases hc
  | @element parent tag tag' inner inner' rest rest' hname hattributes _ _ ihinner ihrest =>
    obtain ⟨e, head, body, after, he, hhead, hbody, hleaf, hafter, rfl⟩ := program_element.1 hc
    have hstep : tag.name ∉ unordered := name_of_enter he ▸ head_ordered hhead
    obtain ⟨body', hbody', hinside⟩ := ihinner hstep hbody
    obtain ⟨after', hafter', hbehind⟩ := ihrest hp hafter
    have hleaf' : (head.renamed (relocation tag'.offset)).inner = .leaf → body' = .done := by
      intro hl
      rw [hleaf (head.inner_renamed _ ▸ hl)] at hinside
      cases body' with
      | done => rfl
      | _ => cases hinside
    have hstripped : stripped.comp (relocation tag'.offset) = stripped := rfl
    refine ⟨_, program_element.2 ⟨_, _, body', after', enter_moved hname hattributes he,
      Element.head_moved hhead, hbody', hleaf', hafter', rfl⟩, ?_⟩
    rw [← Head.before_renamed, ← Head.before_renamed, ← Head.renamed_comp, hstripped, hinside,
      hbehind]
  | swap tag tag' inner inner' rest hparent => exact absurd hparent hp
  | trans _ _ ih ih' =>
    obtain ⟨p', hc', heq⟩ := ih hp hc
    obtain ⟨p'', hc'', heq'⟩ := ih' hp hc'
    exact ⟨p'', hc'', heq.trans heq'⟩

section Moved
variable {e : Element} {offset : Nat} {inner inner' : Content}
variable (h : Content.Rearranged e.name inner inner')
include h

theorem BlockDecl.read_moved {x : BlockDecl} (hx : BlockDecl.Read e inner x) :
    ∃ x', BlockDecl.Read (e.moved offset) inner' x' ∧ x.bare = x'.bare := by
  obtain ⟨hn, hid, honly, hprogram, -⟩ := hx
  have hp : e.name ∉ unordered := by simp [hn, unordered]
  obtain ⟨program, hprogram', heq⟩ := program_moved h hp hprogram
  exact ⟨⟨x.id, program, offset⟩, ⟨hn, Element.required_moved.2 hid, Element.only_moved.2 honly,
    hprogram', rfl⟩, congrArg (Prod.mk x.id) heq⟩

theorem Section.read_moved {s : Section} (hs : s.Read e inner) :
    ∃ s' : Section, s'.Read (e.moved offset) inner' ∧ s.outline = s'.outline := by
  cases s with
  | endianness policy =>
    obtain ⟨hn, hpolicy, hinner⟩ := hs
    exact ⟨.endianness ((relocation offset).endianness policy),
      ⟨hn, Element.endianness_moved hpolicy, h.done_iff.1 hinner⟩,
      congrArg Outline.endianness (stripped.endianness_comp (relocation offset) policy)⟩
  | magic signatures =>
    obtain ⟨hn, honly, hsignatures, hne⟩ := hs
    have hp : e.name ∉ unordered := by simp [hn, unordered]
    obtain ⟨signatures', hsignatures', hperm, heq⟩ := hsignatures.rearranged
      (fun _ _ _ _ _ h hx => Signature.read_moved h hx) h
    refine ⟨.magic signatures', ⟨hn, Element.only_moved.2 honly, hsignatures', ?_⟩,
      congrArg Outline.magic (heq hp)⟩
    intro hnil
    rw [hnil] at hperm
    exact hne (List.map_eq_nil_iff.1 hperm.eq_nil)
  | colors decls =>
    obtain ⟨hn, honly, hdecls, hnodup⟩ := hs
    obtain ⟨decls', hdecls', hperm, -⟩ := hdecls.rearranged
      (fun _ _ _ _ _ h hx => ColorDecl.read_moved h hx) h
    have hkey (d : ColorDecl) : Color.id d.color = d.color.id := rfl
    have hnodup' := nodup_of_perm hkey hperm hnodup
    exact ⟨.colors decls', ⟨hn, Element.only_moved.2 honly, hdecls', hnodup'⟩,
      congrArg Outline.colors (Multiset.coe_eq_coe.2 hperm)⟩
  | fields decls =>
    obtain ⟨hn, honly, hdecls, hnodup⟩ := hs
    obtain ⟨decls', hdecls', hperm, -⟩ := hdecls.rearranged
      (fun _ _ _ _ _ h hx => FieldDecl.read_moved h hx) h
    have hkey (d : FieldDecl) : FieldDef.id d.bare = d.field.id := rfl
    have hnodup' := nodup_of_perm hkey hperm hnodup
    exact ⟨.fields decls', ⟨hn, Element.only_moved.2 honly, hdecls', hnodup'⟩,
      congrArg Outline.fields (Multiset.coe_eq_coe.2 hperm)⟩
  | blocks decls =>
    obtain ⟨hn, honly, hdecls, hnodup⟩ := hs
    obtain ⟨decls', hdecls', hperm, -⟩ := hdecls.rearranged
      (fun _ _ _ _ _ h hx => BlockDecl.read_moved h hx) h
    have hkey (d : BlockDecl) : Prod.fst d.bare = d.id := rfl
    have hnodup' := nodup_of_perm hkey hperm hnodup
    exact ⟨.blocks decls', ⟨hn, Element.only_moved.2 honly, hdecls', hnodup'⟩,
      congrArg Outline.blocks (Multiset.coe_eq_coe.2 hperm)⟩
  | run program =>
    obtain ⟨hn, honly, hprogram⟩ := hs
    have hp : e.name ∉ unordered := by simp [hn, unordered]
    obtain ⟨program', hprogram', heq⟩ := program_moved h hp hprogram
    exact ⟨.run program', ⟨hn, Element.only_moved.2 honly, hprogram'⟩, congrArg Outline.run heq⟩

theorem Format.read_moved {f : Format} (hf : Format.Read e inner f) :
    ∃ f' : Format, Format.Read (e.moved offset) inner' f' ∧ f.outline = f'.outline := by
  obtain ⟨hn, hname, hshort, honly, hsections, hnodup, -⟩ := hf
  obtain ⟨sections, hsections', hperm, -⟩ := hsections.rearranged
    (fun _ _ _ _ _ h hx => Section.read_moved h hx) h
  refine ⟨⟨f.name, f.shortName, offset, sections⟩, ⟨hn, Element.required_moved.2 hname,
    Element.required_moved.2 hshort, Element.only_moved.2 honly, hsections', ?_, rfl⟩,
    congrArg (fun sections => (f.name, f.shortName, sections)) (Multiset.coe_eq_coe.2 hperm)⟩
  exact nodup_of_perm Section.name_outline hperm hnodup

end Moved

theorem Format.Read.distinct {e : Element} {inner : Content} {f : Format} (h : f.Read e inner) :
    f.Distinct := by
  obtain ⟨-, -, -, -, hsections, hnodup, -⟩ := h
  have hread (s : Section) (hs : s ∈ f.sections) : ∃ e inner, s.Read e inner := by
    obtain ⟨t, -, e, -, hs⟩ := hsections.exists_of_mem hs
    exact ⟨e, t.2, hs⟩
  constructor
  case sections => exact hnodup
  case colors =>
    cases Format.reads_colors.mem_or_eq f with
    | inl hs =>
      obtain ⟨e, inner, -, -, -, hn⟩ := hread _ hs
      exact hn
    | inr hnone => simp [hnone.1]
  case fields =>
    cases Format.reads_fields.mem_or_eq f with
    | inl hs =>
      obtain ⟨e, inner, -, -, -, hn⟩ := hread _ hs
      exact hn
    | inr hnone => simp [hnone.1]
  case blocks =>
    cases Format.reads_blocks.mem_or_eq f with
    | inl hs =>
      obtain ⟨e, inner, -, -, -, hn⟩ := hread _ hs
      exact hn
    | inr hnone => simp [hnone.1]

/-- A document with its parts in another order gives the same format in another order. -/
theorem ofContent?_rearranged {c c' : Content} (h : c.Rearranged "" c') {f : Format}
    (hf : Format.ofContent? c = .ok (some f)) :
    ∃ f', Format.ofContent? c' = .ok (some f') ∧ f.Alike f' ∧ f.Distinct ∧ f'.Distinct := by
  have hp : "" ∉ unordered := by simp [unordered]
  have hread {c : Content} {f : Format} (hf : c.Each 1 Format.Read [f]) : f.Distinct := by
    obtain ⟨_, _, _, _, _, hf⟩ := each_singleton.1 hf
    exact hf.distinct
  rw [ofContent?_eq_ok] at hf
  obtain ⟨fs, hfs, -, heq⟩ := hf.rearranged (fun _ _ _ _ _ h hf => Format.read_moved h hf) h
  obtain ⟨f', rfl, hout⟩ := List.map_eq_singleton_iff.1 (heq hp).symm
  exact ⟨f', ofContent?_eq_ok.2 hfs, Format.alike_of_outline hout.symm, hread hf, hread hfs⟩

theorem not_broken_of_compile {source : List Char} {d : Definition} (hd : compile source = .ok d) :
    ¬(Content.ofSource source).Broken := by
  obtain ⟨tag, inner, e, f, hc, he, hf, hmissing, hdeclared⟩ := exists_compile.1 ⟨d, hd⟩
  have hroot : Allowed f.Declares .document 1 e inner :=
    (root_allowed e inner).1 ⟨f, hf, hmissing, Format.mentions_declared.1 hdeclared⟩
  have hconforms : (Content.ofSource source).Conforms f.Declares .document 1 := by
    rw [hc, conforms_element]
    exact ⟨⟨e, he, hroot⟩, trivial⟩
  exact hconforms.not_broken

/-- Two documents that differ in the order of their sections and of the declarations in them. Where
a document is broken, the order in which its parts are met says nothing about them. -/
def Permuted (source source' : List Char) : Prop :=
  (Content.ofSource source).Rearranged "" (Content.ofSource source') ∨
    (Content.ofSource source).Broken ∧ (Content.ofSource source').Broken

theorem Permuted.symm {source source' : List Char} (h : Permuted source source') :
    Permuted source' source := by
  cases h with
  | inl h => exact .inl h.symm
  | inr h => exact .inr ⟨h.2, h.1⟩

theorem Permuted.exists_compile {source source' : List Char} (h : Permuted source source')
    {d : Definition} (hd : compile source = .ok d) :
    ∃ τ d', compile source' = .ok d' ∧ Definition.Renumbered τ d d' := by
  cases h with
  | inr h => exact absurd h.1 (not_broken_of_compile hd)
  | inl h =>
    obtain ⟨f, hf, hfd⟩ := compile_eq_ok.1 hd
    obtain ⟨f', hf', halike, hdistinct, hdistinct'⟩ := ofContent?_rearranged h hf
    obtain ⟨d', hfd'⟩ := halike.exists_definition hdistinct hdistinct' ⟨d, hfd⟩
    exact ⟨Format.renumbering f f', d', compile_eq_ok.2 ⟨f', hf', hfd'⟩,
      halike.renumbered hdistinct hdistinct' hfd hfd'⟩

/-- Neither whether a document compiles nor anything that its definition does depends on the order
of its sections, colors, fields and blocks. -/
theorem compile_permuted {source source' : List Char} (h : Permuted source source') :
    ((∃ d, compile source = .ok d) ↔ ∃ d, compile source' = .ok d) ∧
      ∀ d d', compile source = .ok d → compile source' = .ok d' → d.Indistinguishable d' := by
  have hcompile {source source' : List Char} (h : Permuted source source') :
      (∃ d, compile source = .ok d) → ∃ d, compile source' = .ok d := by
    intro hd
    obtain ⟨d, hd⟩ := hd
    obtain ⟨_, d', hd', -⟩ := h.exists_compile hd
    exact ⟨d', hd'⟩
  refine ⟨⟨hcompile h, hcompile h.symm⟩, ?_⟩
  intro d d' hd hd'
  obtain ⟨τ, d'', hd'', hrenumbered⟩ := h.exists_compile hd
  obtain rfl : d'' = d' := Except.ok.inj (hd''.symm.trans hd')
  exact hrenumbered.indistinguishable

def forwardSample : String :=
  "<format name='n' short='s'><run><block ref='a'/></run>
   <block-defs><block-def id='a'><field ref='f'/><block ref='b'/></block-def>
   <block-def id='b'><field ref='g'/></block-def></block-defs>
   <field-defs><field id='f' color='red'><size fixed='1'/></field>
   <field id='g' color='blue'><size fixed='2'/></field></field-defs>
   <colors><color id='red' index='1'/><color id='blue' index='2'/></colors>
   <magic><signature><match value='00'/></signature></magic><endianness order='big'/></format>"

@[inherit_doc forwardSample]
def backwardSample : String :=
  "<format name='n' short='s'><endianness order='big'/>
   <magic><signature><match value='00'/></signature></magic>
   <colors><color id='blue' index='2'/><color id='red' index='1'/></colors>
   <field-defs><field id='g' color='blue'><size fixed='2'/></field>
   <field id='f' color='red'><size fixed='1'/></field></field-defs>
   <block-defs><block-def id='b'><field ref='g'/></block-def>
   <block-def id='a'><field ref='f'/><block ref='b'/></block-def></block-defs>
   <run><block ref='a'/></run></format>"

set_option maxRecDepth 4000 in
theorem compile_permuted_samples :
    Permuted forwardSample.toList backwardSample.toList ∧
      ∃ d d', compile forwardSample.toList = .ok d ∧ compile backwardSample.toList = .ok d' ∧
        d.Indistinguishable d' := by
  have hpermuted : Permuted forwardSample.toList backwardSample.toList := by
    refine .inl (Content.rearranged_of_isRearranged ?_)
    rw [show forwardSample.toList = _ from String.toList_ofList,
      show backwardSample.toList = _ from String.toList_ofList]
    decide +kernel
  have hforward : (compile forwardSample.toList).isOk = true := by
    rw [show forwardSample.toList = _ from String.toList_ofList]
    decide +kernel
  obtain ⟨d, hd⟩ := exists_ok hforward
  obtain ⟨hcompiles, hsame⟩ := compile_permuted hpermuted
  obtain ⟨d', hd'⟩ := hcompiles.1 ⟨d, hd⟩
  exact ⟨hpermuted, d, d', hd, hd', hsame d d' hd hd'⟩

end Dissect.Document
