import Dissect.Proofs.Blame

/-! Where references come from. Whatever a document mentions in a table, some tag in it has the
identifier as an attribute, and the reference remembers the name of this tag and its place. -/
namespace Dissect.Document
variable {tag : Tag} {inner : Content} {depth : Nat} {e : Element} {parent : String}

structure Tag.Makes (t : Tag) (r : Reference) : Prop where
  offset : r.offset = t.offset
  element : r.element = t.name
  said : ∃ key, t.get? key = some r.id

def Content.Makes (c : Content) (r : Reference) : Prop := ∃ t ∈ c.tags, t.Makes r

theorem makes_of_get? (he : tag.enter depth = .ok e) {name key id : String} (hn : e.name = name)
    (h : e.get? key = some id) : tag.Makes ⟨id, name, e.offset⟩ := by
  have hget : tag.get? key = some id := by rw [get?_of_enter he, h]
  subst hn
  obtain ⟨-, attributes, -, rfl⟩ := enter_eq_ok.1 he
  exact ⟨rfl, rfl, key, hget⟩

theorem makes_mention (he : tag.enter depth = .ok e) {key id : String} (h : e.get? key = some id) :
    tag.Makes (e.mention id) := makes_of_get? he rfl h

theorem makes_optional (he : tag.enter depth = .ok e) {key : String} {r : Reference}
    (hr : r ∈ ((e.get? key).map e.mention).toList) : tag.Makes r := by
  simp only [Option.mem_toList, Option.map_eq_some_iff] at hr
  obtain ⟨id, hid, rfl⟩ := hr
  exact makes_mention he hid

namespace Mentions
variable {P Q : Reference → Prop}

structure Every (P : Reference → Prop) (m : Mentions) : Prop where
  colors : ∀ r ∈ m.colors, P r
  fields : ∀ r ∈ m.fields, P r
  blocks : ∀ r ∈ m.blocks, P r

theorem Every.mono {m : Mentions} (h : m.Every P) (hpq : ∀ r, P r → Q r) : m.Every Q :=
  ⟨fun r hr => hpq r (h.colors r hr), fun r hr => hpq r (h.fields r hr),
    fun r hr => hpq r (h.blocks r hr)⟩

theorem every_vars {vars : List Reference} : Every P { vars := vars } := ⟨nofun, nofun, nofun⟩

theorem Every.append {a b : Mentions} (ha : a.Every P) (hb : b.Every P) : (a ++ b).Every P :=
  ⟨List.forall_mem_append.2 ⟨ha.colors, hb.colors⟩, List.forall_mem_append.2 ⟨ha.fields, hb.fields⟩,
    List.forall_mem_append.2 ⟨ha.blocks, hb.blocks⟩⟩

theorem every_gather {α : Type} {of : α → Mentions} {as : List α}
    (h : ∀ a ∈ as, (of a).Every P) : (gather of as).Every P := by
  induction as with
  | nil => exact every_vars
  | cons a as ih =>
    rw [List.forall_mem_cons] at h
    exact h.1.append (ih h.2)

end Mentions

/-! ### Rows -/

namespace Content
variable {c rest : Content} {r : Reference}

theorem Makes.of_inner (h : inner.Makes r) : (element tag inner rest).Makes r := by
  obtain ⟨t, ht, hr⟩ := h
  exact ⟨t, mem_tags_inner ht, hr⟩

theorem Makes.of_rest (h : rest.Makes r) : (element tag inner rest).Makes r := by
  obtain ⟨t, ht, hr⟩ := h
  exact ⟨t, mem_tags_rest ht, hr⟩

theorem Makes.of_tag (h : tag.Makes r) : (element tag inner rest).Makes r :=
  ⟨tag, mem_tags_self, h⟩

theorem Makes.of_row {t : Tag × Content} (ht : t ∈ c.row) (h : t.1.Makes r ∨ t.2.Makes r) :
    c.Makes r := by
  induction c with
  | done => cases ht
  | blemish offset cause => cases ht
  | element tag inner rest _ ih =>
    rcases List.mem_cons.1 ht with rfl | ht
    · exact h.elim .of_tag .of_inner
    · exact .of_rest (ih ht)

theorem Each.makes {α : Type} {one : Element → Content → α → Prop} {of : α → Mentions}
    {xs : List α} (hxs : c.Each depth one xs)
    (h : ∀ (tag : Tag) (inner : Content) (e : Element) (x : α), tag.enter depth = .ok e →
      one e inner x → (of x).Every fun r => tag.Makes r ∨ inner.Makes r) :
    (Mentions.gather of xs).Every c.Makes := by
  refine Mentions.every_gather fun x hx => ?_
  obtain ⟨t, ht, e, he, hone⟩ := hxs.exists_of_mem hx
  exact (h _ _ e x he hone).mono fun r => .of_row ht

end Content

/-! ### Programs -/

theorem fieldStep_makes (he : tag.enter depth = .ok e) {s : FieldStep Reference}
    (h : e.fieldStep = .ok s) : tag.Makes s.field := by
  simp only [Element.fieldStep, bind_eq_ok, pure_eq_ok] at h
  obtain ⟨id, hid, var, -, offset, -, limit, -, _, -, rfl⟩ := h
  exact makes_mention he (Element.required_eq_ok.1 hid)

theorem action_makes (he : tag.enter depth = .ok e) {a : Action Reference}
    (h : e.head = .ok (.act a)) : (Mentions.ofAction a).Every tag.Makes := by
  have hh := head_eq_ok.1 h
  cases a with
  | field s =>
    have hs : tag.Makes s.field := fieldStep_makes he hh.2
    exact ⟨nofun, fun r hr => List.mem_singleton.1 hr ▸ hs, nofun⟩
  | block r =>
    obtain ⟨-, -, id, hid, rfl⟩ := hh
    have hr : tag.Makes (e.mention id) := makes_mention he (Element.required_eq_ok.1 hid)
    exact ⟨nofun, nofun, fun r hr' => List.mem_singleton.1 hr' ▸ hr⟩
  | _ => exact Mentions.every_vars

theorem head_makes (he : tag.enter depth = .ok e) {head : Head} (h : e.head = .ok head) :
    head.mentions.Every tag.Makes := by
  cases head with
  | act a => exact action_makes he h
  | _ => exact Mentions.every_vars

theorem every_before {P : Reference → Prop} {head : Head} {body rest : Program Reference}
    (hh : head.mentions.Every P) (hb : (Mentions.ofProgram body).Every P)
    (hr : (Mentions.ofProgram rest).Every P) :
    (Mentions.ofProgram (head.before body rest)).Every P := by
  cases head with
  | act a => exact hh.append hr
  | guarded g => exact hh.append (hb.append hr)
  | loop g => exact hh.append (hb.append hr)
  | selection => exact hb.append hr

theorem program_makes {c : Content} {p : Program Reference} (h : c.program parent depth = .ok p) :
    (Mentions.ofProgram p).Every c.Makes := by
  induction c generalizing parent depth p with
  | done =>
    cases h
    exact Mentions.every_vars
  | blemish offset cause => cases h
  | element tag inner rest ihinner ihrest =>
    obtain ⟨e, head, body, after, he, hhead, hbody, -, hafter, rfl⟩ := program_element.1 h
    refine every_before ?_ ?_ ?_
    · exact (head_makes he hhead).mono fun r => .of_tag
    · exact (ihinner hbody).mono fun r => .of_inner
    · exact (ihrest hafter).mono fun r => .of_rest

/-! ### Declarations -/

theorem color_makes {x : ColorDecl} (he : tag.enter depth = .ok e) (h : x.Read e inner) :
    (Mentions.ofColor x).Every fun r => tag.Makes r ∨ inner.Makes r := by
  obtain ⟨hn, hid, -, -, -, -, -, ho⟩ := h
  have hid := makes_of_get? he hn (Element.required_eq_ok.1 hid)
  refine ⟨fun r hr => .inl ?_, nofun, nofun⟩
  rw [List.mem_singleton.1 hr, ho]
  exact hid

theorem field_makes {x : FieldDecl} (he : tag.enter depth = .ok e) (h : x.Read e inner) :
    (Mentions.ofField x).Every fun r => tag.Makes r ∨ inner.Makes r := by
  obtain ⟨hn, hid, -, ⟨xs, parts, -, hfield⟩, ho⟩ := h
  have hid := makes_of_get? he hn (Element.required_eq_ok.1 hid)
  obtain ⟨-, hcolor, haccent⟩ := FieldParts.field_refs hfield
  refine ⟨fun r hr => .inl ?_, fun r hr => .inl ?_, nofun⟩
  · rcases List.mem_append.1 hr with hr | hr
    · exact makes_optional he (hcolor ▸ hr)
    · exact makes_optional he (haccent ▸ hr)
  · rw [List.mem_singleton.1 hr, ho]
    exact hid

theorem block_makes {x : BlockDecl} (he : tag.enter depth = .ok e) (h : x.Read e inner) :
    (Mentions.ofBlock x).Every fun r => tag.Makes r ∨ inner.Makes r := by
  obtain ⟨hn, hid, -, hprogram, ho⟩ := h
  have hid := makes_of_get? he hn (Element.required_eq_ok.1 hid)
  refine .append ⟨nofun, nofun, fun r hr => .inl ?_⟩ ((program_makes hprogram).mono fun r => .inr)
  rw [List.mem_singleton.1 hr, ho]
  exact hid

theorem section_makes {x : Section} (h : x.Read e inner) :
    (Mentions.ofSection x).Every inner.Makes := by
  cases x with
  | endianness policy => cases policy <;> exact Mentions.every_vars
  | magic signatures =>
    refine Mentions.every_gather fun signature _ => Mentions.every_gather fun step _ => ?_
    cases step <;> exact Mentions.every_vars
  | colors decls => exact h.2.2.1.makes fun _ _ _ _ => color_makes
  | fields decls => exact h.2.2.1.makes fun _ _ _ _ => field_makes
  | blocks decls => exact h.2.2.1.makes fun _ _ _ _ => block_makes
  | run program => exact program_makes h.2.2

theorem format_makes {f : Format} (h : f.Read e inner) : f.mentions.Every inner.Makes :=
  h.2.2.2.2.1.makes fun _ _ _ _ _ hs => (section_makes hs).mono fun _ => .inr

end Dissect.Document
