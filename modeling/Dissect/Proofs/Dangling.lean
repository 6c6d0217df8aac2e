import Dissect.Proofs.Acceptance

/-! References without a definition. What a document mentions stands in its elements, and is read
off them in the order of the document; the tables of a definition go by this order, so that what has
no definition is reported where it comes first. -/
namespace Dissect.Document
variable {tag : Tag} {inner : Content} {depth : Nat} {e : Element} {parent : String}

/-! ### Mentions in document order -/

def Kind.refersTo (table : Table) : Kind → Bool
  | .reference other => other = table
  | _ => false

namespace Context

/-- How the elements of a name are written; where there are several ways, in the first of them. -/
def form (context : Context) (name : String) : Form :=
  ((context.elements.find? (·.1 == name)).map (·.2)).getD { rules := [] }

def declares : Context → Table → Bool
  | .colors, .color | .fields, .field | .blocks, .block => true
  | _, _ => false

/-- The attributes by which the elements of a name mention identifiers of a table: the identifier
that they declare, and those they refer to. -/
def keys (context : Context) (table : Table) (name : String) : List String :=
  (if context.declares table then ["id"] else []) ++
    ((context.form name).rules.filter (·.kind.refersTo table)).map (·.key)

end Context

def Tag.mentions (t : Tag) (keys : List String) : List Reference :=
  keys.filterMap fun key => (t.get? key).map fun id => ⟨id, t.name, t.offset⟩

/-- What the elements of a row mention, and those inside them, in the order in which they start. -/
def Content.mentions (table : Table) : Context → Content → List Reference
  | _, .done => []
  | _, .blemish _ _ => []
  | context, .element tag inner rest =>
    tag.mentions (context.keys table tag.name) ++
      (inner.mentions table (context.form tag.name).inner ++ rest.mentions table context)

theorem Tag.mentions_cons (t : Tag) (key : String) (keys : List String) :
    t.mentions (key :: keys) =
      ((t.get? key).map fun id => ⟨id, t.name, t.offset⟩).toList ++ t.mentions keys := by
  rw [mentions, List.filterMap_cons]
  cases t.get? key <;> rfl

theorem mention_of_enter (he : tag.enter depth = .ok e) (id : String) :
    e.mention id = ⟨id, tag.name, tag.offset⟩ := by
  obtain ⟨-, attributes, -, rfl⟩ := enter_eq_ok.1 he
  rfl

theorem mentions_optional (he : tag.enter depth = .ok e) (key : String) (keys : List String) :
    tag.mentions (key :: keys) = ((e.get? key).map e.mention).toList ++ tag.mentions keys := by
  have hmention : e.mention = fun id => ⟨id, tag.name, tag.offset⟩ := funext (mention_of_enter he)
  rw [Tag.mentions_cons, hmention, get?_of_enter he]

theorem mentions_required (he : tag.enter depth = .ok e) {key id : String}
    (h : e.required key = .ok id) : tag.mentions [key] = [e.mention id] := by
  rw [mentions_optional he, Element.required_eq_ok.1 h]
  rfl

/-! ### Contexts without mentions -/

namespace Context

/-- Neither the elements of a row nor those inside them have anything to do with tables. -/
def Silent : Context → Prop
  | .magic | .signature | .field | .options | .flags | .leaf => True
  | _ => False

theorem Silent.form {context : Context} (h : context.Silent) (table : Table) (name : String) :
    context.keys table name = [] ∧ (context.form name).inner.Silent := by
  have hforms : ∀ p ∈ context.elements,
      p.2.rules.filter (·.kind.refersTo table) = [] ∧ p.2.inner.Silent := by
    cases context <;>
      first | exact h.elim | simp [elements, needs, takes, Kind.refersTo, Kind.width, Silent]
  have hdeclares : context.declares table = false := by
    cases context <;> first | exact h.elim | rfl
  rw [keys, hdeclares, Context.form]
  cases hfind : context.elements.find? (·.1 == name) with
  | none => exact ⟨rfl, trivial⟩
  | some p =>
    obtain ⟨hrules, hinner⟩ := hforms p (List.mem_of_find?_eq_some hfind)
    exact ⟨by simp [hrules], hinner⟩

end Context

theorem Content.mentions_of_silent {context : Context} (h : context.Silent) (table : Table)
    (c : Content) : c.mentions table context = [] := by
  induction c generalizing context with
  | done => rfl
  | blemish offset cause => rfl
  | element tag inner rest ihinner ihrest =>
    obtain ⟨hkeys, hinner⟩ := h.form table tag.name
    rw [mentions, hkeys, ihinner hinner, ihrest h]
    rfl

/-! ### Programs -/

theorem head_mentions (he : tag.enter depth = .ok e) {head : Head} (h : e.head = .ok head)
    (table : Table) :
    head.mentions.ofTable table = tag.mentions (Context.program.keys table tag.name) := by
  have hname := name_of_enter he
  have hh := head_eq_ok.1 h
  cases head with
  | act a =>
    cases a with
    | field s =>
      obtain ⟨hn, hs⟩ := hh
      simp only [Element.fieldStep, bind_eq_ok, pure_eq_ok] at hs
      obtain ⟨id, hid, var, -, offset, -, limit, -, _, -, rfl⟩ := hs
      rw [hname, hn]
      cases table with
      | field => exact (mentions_required he hid).symm
      | _ => rfl
    | block r =>
      obtain ⟨hn, -, id, hid, rfl⟩ := hh
      rw [hname, hn]
      cases table with
      | block => exact (mentions_required he hid).symm
      | _ => rfl
    | _ =>
      rw [hname, hh.1]
      cases table <;> rfl
  | _ =>
    rw [hname, hh.1]
    cases table <;> rfl

theorem mentions_before {head : Head} {body rest : Program Reference}
    (hbody : head.inner = .leaf → body = .done) (table : Table) :
    (Mentions.ofProgram (head.before body rest)).ofTable table = head.mentions.ofTable table ++
      ((Mentions.ofProgram body).ofTable table ++ (Mentions.ofProgram rest).ofTable table) := by
  cases head with
  | act a =>
    rw [hbody rfl]
    cases table <;> rfl
  | _ => cases table <;> rfl

theorem head_inner (he : tag.enter depth = .ok e) {head : Head} (h : e.head = .ok head) :
    (Context.program.form tag.name).inner = head.inner := by
  have hh := head_eq_ok.1 h
  rw [name_of_enter he]
  cases head with
  | act a => cases a <;> rw [hh.1] <;> rfl
  | _ => rw [hh.1]; rfl

theorem program_mentions {c : Content} {p : Program Reference}
    (h : c.program parent depth = .ok p) (table : Table) :
    (Mentions.ofProgram p).ofTable table = c.mentions table .program := by
  induction c generalizing parent depth p with
  | done =>
    cases h
    cases table <;> rfl
  | blemish offset cause => cases h
  | element tag inner rest ihinner ihrest =>
    obtain ⟨e, head, body, after, he, hhead, hbody, hleaf, hafter, rfl⟩ := program_element.1 h
    have hleaf' : Context.leaf.Silent := trivial
    have hinside : inner.mentions table head.inner = (Mentions.ofProgram body).ofTable table := by
      cases head with
      | act a =>
        rw [hleaf rfl, Head.inner_act, Content.mentions_of_silent hleaf']
        cases table <;> rfl
      | _ => exact (ihinner hbody).symm
    rw [mentions_before hleaf, Content.mentions, head_mentions he hhead, ihrest hafter,
      head_inner he hhead, hinside]

/-! ### Declarations -/

theorem Content.Each.mentions {α : Type} {one : Element → Content → α → Prop} {of : α → Mentions}
    {context : Context} {table : Table} {c : Content} {xs : List α} (hxs : c.Each depth one xs)
    (h : ∀ (tag : Tag) (inner : Content) (e : Element) (x : α), tag.enter depth = .ok e →
      one e inner x → (of x).ofTable table = tag.mentions (context.keys table tag.name) ++
        inner.mentions table (context.form tag.name).inner) :
    (Mentions.gather of xs).ofTable table = c.mentions table context := by
  induction c generalizing xs with
  | done =>
    rw [show xs = [] from hxs]
    cases table <;> rfl
  | blemish offset cause => exact hxs.elim
  | element tag inner rest _ ih =>
    cases xs with
    | nil => exact hxs.elim
    | cons x xs =>
      obtain ⟨⟨e, he, hone⟩, hrest⟩ := hxs
      rw [Mentions.gather, Mentions.ofTable_append, ih hrest, h tag inner e x he hone,
        Content.mentions, List.append_assoc]

theorem color_mentions {x : ColorDecl} (he : tag.enter depth = .ok e) (h : x.Read e inner)
    (table : Table) : (Mentions.ofColor x).ofTable table =
      tag.mentions (Context.colors.keys table tag.name) ++
        inner.mentions table (Context.colors.form tag.name).inner := by
  obtain ⟨hn, hid, -, -, -, hinner, -, ho⟩ := h
  have hmention : (⟨x.color.id, "color", x.offset⟩ : Reference) = e.mention x.color.id := by
    rw [Element.mention, hn, ho]
  rw [hinner, name_of_enter he, hn, Mentions.ofColor, hmention, Content.mentions, List.append_nil]
  cases table with
  | color => exact (mentions_required he hid).symm
  | _ => rfl

theorem field_mentions {x : FieldDecl} (he : tag.enter depth = .ok e) (h : x.Read e inner)
    (table : Table) : (Mentions.ofField x).ofTable table =
      tag.mentions (Context.fields.keys table tag.name) ++
        inner.mentions table (Context.fields.form tag.name).inner := by
  obtain ⟨hn, hid, -, ⟨xs, parts, -, hfield⟩, ho⟩ := h
  obtain ⟨-, hcolor, haccent⟩ := FieldParts.field_refs hfield
  have hmention : (⟨x.field.id, "field", x.offset⟩ : Reference) = e.mention x.field.id := by
    rw [Element.mention, hn, ho]
  have hparts : (Context.fields.form "field").inner.Silent := trivial
  rw [name_of_enter he, hn, Mentions.ofField, hmention, hcolor, haccent,
    Content.mentions_of_silent hparts, List.append_nil]
  cases table with
  | color =>
    have hrefs : tag.mentions ["color", "accent"] = ((e.get? "color").map e.mention).toList ++
        (((e.get? "accent").map e.mention).toList ++ []) := by
      rw [mentions_optional he, mentions_optional he]
      rfl
    rw [List.append_nil] at hrefs
    exact hrefs.symm
  | field => exact (mentions_required he hid).symm
  | block => rfl

theorem block_mentions {x : BlockDecl} (he : tag.enter depth = .ok e) (h : x.Read e inner)
    (table : Table) : (Mentions.ofBlock x).ofTable table =
      tag.mentions (Context.blocks.keys table tag.name) ++
        inner.mentions table (Context.blocks.form tag.name).inner := by
  obtain ⟨hn, hid, -, hprogram, ho⟩ := h
  have hmention : (⟨x.id, "block-def", x.offset⟩ : Reference) = e.mention x.id := by
    rw [Element.mention, hn, ho]
  rw [name_of_enter he, hn, Mentions.ofBlock, hmention, Mentions.ofTable_append,
    program_mentions hprogram]
  cases table with
  | block => exact congrArg (· ++ _) (mentions_required he hid).symm
  | _ => rfl

theorem Mentions.ofTable_gather {α : Type} {of : α → Mentions} {as : List α} {table : Table}
    (h : ∀ a ∈ as, (of a).ofTable table = []) : (gather of as).ofTable table = [] := by
  induction as with
  | nil => cases table <;> rfl
  | cons a as ih =>
    rw [List.forall_mem_cons] at h
    rw [gather, ofTable_append, h.1, ih h.2, List.append_nil]

theorem section_mentions {x : Section} (he : tag.enter depth = .ok e) (h : x.Read e inner)
    (table : Table) : (Mentions.ofSection x).ofTable table =
      tag.mentions (Context.format.keys table tag.name) ++
        inner.mentions table (Context.format.form tag.name).inner := by
  rw [name_of_enter he, Section.name_of_read h]
  cases x with
  | endianness policy =>
    rw [h.2.2]
    cases policy <;> cases table <;> rfl
  | magic signatures =>
    have hsilent : Context.magic.Silent := trivial
    have hinner : inner.mentions table (Context.format.form "magic").inner = [] :=
      inner.mentions_of_silent hsilent table
    rw [Mentions.ofSection, Mentions.ofTable_gather, Section.name, hinner]
    · cases table <;> rfl
    · intro signature _
      refine Mentions.ofTable_gather fun step _ => ?_
      cases step <;> cases table <;> rfl
  | colors decls =>
    have hrow := h.2.2.1.mentions fun _ _ _ _ he' hread => color_mentions he' hread table
    cases table <;> exact hrow
  | fields decls =>
    have hrow := h.2.2.1.mentions fun _ _ _ _ he' hread => field_mentions he' hread table
    cases table <;> exact hrow
  | blocks decls =>
    have hrow := h.2.2.1.mentions fun _ _ _ _ he' hread => block_mentions he' hread table
    cases table <;> exact hrow
  | run program =>
    have hrow := program_mentions h.2.2 table
    cases table <;> exact hrow

theorem format_mentions {f : Format} (he : tag.enter depth = .ok e) (h : f.Read e inner)
    (table : Table) :
    f.mentions.ofTable table = (Content.element tag inner .done).mentions table .document := by
  obtain ⟨hn, -, -, -, hs, -⟩ := h
  have hrow : f.mentions.ofTable table = inner.mentions table .format :=
    hs.mentions fun _ _ _ _ he' hread => section_mentions he' hread table
  rw [Content.mentions, Content.mentions, name_of_enter he, hn, hrow, List.append_nil]
  cases table <;> rfl

/-! ### The first reference without a definition -/

def Table.earlier : Table → List Table
  | .color => []
  | .field => [.color]
  | .block => [.color, .field]

/-- The reference is the first to this table that has no definition, and there are none to the
tables before. -/
structure FirstUndefined (mentions : Table → List Reference) (declared : Table → String → Prop)
    (table : Table) (r : Reference) : Prop where
  earlier : ∀ other ∈ table.earlier, ∀ s ∈ mentions other, declared other s.id
  undefined : ¬declared table r.id
  first : ∃ before after, mentions table = before ++ r :: after ∧
    ∀ s ∈ before, declared table s.id ∧ s.id ≠ r.id

theorem bind_eq_error {ε α β : Type} {x : Except ε α} {g : α → Except ε β} {fault : ε} :
    (x >>= g) = .error fault ↔ x = .error fault ∨ ∃ a, x = .ok a ∧ g a = .error fault := by
  cases x <;> simp

theorem mapError_eq_error {ε ε' α : Type} {x : Except ε α} {g : ε → ε'} {fault' : ε'} :
    x.mapError g = .error fault' ↔ ∃ fault, x = .error fault ∧ g fault = fault' := by
  cases x <;> simp [Except.mapError]

theorem find?_firstMentions (p : String → Bool) (rs : List Reference) :
    (firstMentions rs).find? (fun r => p r.id) = rs.find? fun r => p r.id := by
  induction rs with
  | nil => rfl
  | cons r rs ih =>
    rw [firstMentions, List.find?_cons, List.find?_cons, ← ih, List.find?_filter]
    cases hp : p r.id with
    | true => rfl
    | false =>
      -- what is left out has the identifier of `r`, and that does not satisfy `p`
      refine congrArg (List.find? · _) (funext fun s => ?_)
      by_cases hid : s.id = r.id
      · simp [hid, hp]
      · simp [hid]

theorem resolve_eq_error {α : Type} {table : Table} {meaning : String → Option α}
    {rs : List Reference} {fault : Fault} : resolve table meaning rs = .error fault ↔
      ∃ r, rs.find? (fun r => (meaning r.id).isNone) = some r ∧
        fault = ⟨r.offset, r.element, .undefined table r.id⟩ := by
  induction rs with
  | nil => simp [resolve]
  | cons r rs ih =>
    rw [resolve, List.find?_cons]
    cases hm : meaning r.id with
    | none => simp [eq_comm]
    | some a =>
      cases hrs : resolve table meaning rs with
      | error fault' =>
        rw [hrs] at ih
        simpa [Except.map] using ih
      | ok entries =>
        rw [hrs] at ih
        simpa [Except.map] using ih

theorem find?_of_resolve {α : Type} {table : Table} {meaning : String → Option α}
    {rs : List Reference} {fault : Fault}
    (h : resolve table meaning (firstMentions rs) = .error fault) :
    ∃ r, rs.find? (fun r => (meaning r.id).isNone) = some r ∧
      fault = ⟨r.offset, r.element, .undefined table r.id⟩ := by
  obtain ⟨r, hr, hfault⟩ := resolve_eq_error.1 h
  rw [find?_firstMentions fun id => (meaning id).isNone] at hr
  exact ⟨r, hr, hfault⟩

section Meanings
variable {α : Type} {declared : Table → String → Prop} {table : Table}
  {meaning : String → Option α} (hd : ∀ id, (meaning id).isSome ↔ declared table id)
  {rs : List Reference}
include hd

theorem declared_of_resolve {entries : List α}
    (h : resolve table meaning (firstMentions rs) = .ok entries) :
    ∀ r ∈ rs, declared table r.id := by
  have hsome := exists_resolved.1 ⟨entries, resolve_eq_ok.1 h⟩
  simp only [hd] at hsome
  exact (@forall_firstMentions (declared table) rs).1 hsome

theorem undefined_of_find? {r : Reference}
    (h : rs.find? (fun r => (meaning r.id).isNone) = some r) :
    ¬declared table r.id ∧ ∃ before after, rs = before ++ r :: after ∧
      ∀ s ∈ before, declared table s.id ∧ s.id ≠ r.id := by
  obtain ⟨hr, before, after, hrs, hbefore⟩ := List.find?_eq_some_iff_append.1 h
  have hundefined : ¬declared table r.id := by
    rw [← hd]
    simpa using hr
  refine ⟨hundefined, before, after, hrs, fun s hs => ?_⟩
  have hdeclared : declared table s.id := by
    rw [← hd]
    simpa [Option.isSome_iff_ne_none] using hbefore s hs
  exact ⟨hdeclared, fun hid => hundefined (hid ▸ hdeclared)⟩

end Meanings

theorem Format.find?_unused {f : Format} {numbering : Renaming Reference Nat} {offset : Nat} :
    [(⟨unusedId, "field-defs", offset⟩ : Reference)].find?
      (fun r => (f.field? numbering r.id).isNone) = none := by
  have hsome :=
    Option.isNone_eq_false_iff.2 (Option.isSome_iff_ne_none.2 (field?_unused f numbering))
  rw [List.find?_cons, hsome, List.find?_nil]

theorem Format.undefined_of_definition {f : Format} (hn : (f.sections.map Section.name).Nodup)
    (hmissing : f.missingSection? = none) {fault : Fault} (h : f.definition = .error fault) :
    ∃ table r, FirstUndefined f.mentions.ofTable f.Declares table r ∧
      fault = ⟨r.offset, r.element, .undefined table r.id⟩ := by
  have hcolor (id : String) : (f.color? id).isSome ↔ f.Declares .color id := color?_isSome hn
  have hfield (id : String) : (f.field? f.firsts.numbering id).isSome ↔ f.Declares .field id :=
    field?_isSome hn
  have hblock (id : String) : (f.block? f.firsts.numbering id).isSome ↔ f.Declares .block id :=
    block?_isSome hn
  simp only [definition, hmissing, bind_eq_error] at h
  obtain h | ⟨colors, hcolors, h | ⟨fields, hfields, h | ⟨blocks, -, h⟩⟩⟩ := h
  · obtain ⟨r, hr, hfault⟩ := find?_of_resolve h
    obtain ⟨hundefined, hfirst⟩ := undefined_of_find? hcolor hr
    exact ⟨.color, r, ⟨List.forall_mem_nil _, hundefined, hfirst⟩, hfault⟩
  · have hcolors := declared_of_resolve hcolor hcolors
    obtain ⟨r, hr, hfault⟩ := find?_of_resolve h
    rw [fieldMentions, List.find?_append, find?_unused, Option.or_none] at hr
    obtain ⟨hundefined, hfirst⟩ := undefined_of_find? hfield hr
    exact ⟨.field, r, ⟨List.forall_mem_singleton.2 hcolors, hundefined, hfirst⟩, hfault⟩
  · have hcolors := declared_of_resolve hcolor hcolors
    have hfields := (List.forall_mem_append.1 (declared_of_resolve hfield hfields)).1
    obtain ⟨r, hr, hfault⟩ := find?_of_resolve h
    obtain ⟨hundefined, hfirst⟩ := undefined_of_find? hblock hr
    have hearlier : ∀ other ∈ Table.block.earlier, ∀ s ∈ f.mentions.ofTable other,
        f.Declares other s.id :=
      List.forall_mem_cons.2 ⟨hcolors, List.forall_mem_singleton.2 hfields⟩
    exact ⟨.block, r, ⟨hearlier, hundefined, hfirst⟩, hfault⟩
  · cases h

theorem Format.missing_of_definition {f : Format} {name : String}
    (hmissing : f.missingSection? = some name) :
    f.definition = .error ⟨f.offset, "format", .missingElement name⟩ := by
  rw [definition, hmissing]

theorem Format.first_of_undefined {f : Format} (hn : (f.sections.map Section.name).Nodup)
    {fault : Fault} {table : Table} {id : String} (h : f.definition = .error fault)
    (hcause : fault.cause = .undefined table id) : f.missingSection? = none ∧
      ∃ r, FirstUndefined f.mentions.ofTable f.Declares table r ∧ r.id = id ∧
        fault.element = r.element ∧ fault.offset = r.offset := by
  cases hmissing : f.missingSection? with
  | some name =>
    rw [missing_of_definition hmissing] at h
    cases h
    cases hcause
  | none =>
    obtain ⟨table', r, hr, rfl⟩ := undefined_of_definition hn hmissing h
    cases hcause
    exact ⟨rfl, r, hr, rfl, rfl, rfl⟩

theorem Format.exists_undefined {f : Format} (hn : (f.sections.map Section.name).Nodup) :
    (∃ fault table id, f.definition = .error fault ∧ fault.cause = .undefined table id) ↔
      f.missingSection? = none ∧
        ∃ table, ∃ r ∈ f.mentions.ofTable table, ¬f.Declares table r.id := by
  constructor
  · intro h
    obtain ⟨fault, table, id, hfault, hcause⟩ := h
    obtain ⟨hmissing, r, hr, -⟩ := first_of_undefined hn hfault hcause
    obtain ⟨before, after, hmentions, -⟩ := hr.first
    have hmem : r ∈ f.mentions.ofTable table := hmentions ▸ List.mem_append_cons_self
    exact ⟨hmissing, table, r, hmem, hr.undefined⟩
  · intro h
    obtain ⟨hmissing, table, r, hr, hundefined⟩ := h
    cases hdefinition : f.definition with
    | ok d =>
      obtain ⟨-, hall⟩ := (exists_definition hn).1 ⟨d, hdefinition⟩
      exact absurd (hall table r hr) hundefined
    | error fault =>
      obtain ⟨table', r', -, rfl⟩ := undefined_of_definition hn hmissing hdefinition
      exact ⟨_, table', r'.id, rfl, rfl⟩

/-! ### Documents -/

theorem ofContent?_eq_none {c : Content} : Format.ofContent? c = .ok none ↔ c = .done := by
  cases c with
  | done => simp [Format.ofContent?, Content.fold]
  | blemish offset cause => simp [Format.ofContent?, Content.fold]
  | element tag inner rest =>
    simp only [Format.ofContent?, Content.fold, bind_eq_ok, readRoot_eq_ok, reduceCtorEq, iff_false]
    rintro ⟨e, -, _, ⟨f, -, -, rfl⟩, hrest⟩
    cases rest with
    | done => cases hrest
    | blemish offset cause => cases hrest
    | element tag' inner' rest' =>
      simp only [Content.fold, bind_eq_ok, readRoot_eq_ok] at hrest
      obtain ⟨e', -, _, ⟨f', -, hnone, -⟩, -⟩ := hrest
      cases hnone

instance (doc : Content) (table : Table) (id : String) : Decidable (doc.Declares table id) :=
  inferInstanceAs (Decidable (_ ∨ _))

/-- The sections that a document has to have. -/
def Content.Complete (doc : Content) : Prop :=
  ∀ name ∈ Format.requiredSections, name ∈ (doc.row.inside "format").names

theorem complete_iff {f : Format} (he : tag.enter depth = .ok e) (hf : f.Read e inner) :
    (Content.element tag inner .done).Complete ↔ f.missingSection? = none := by
  obtain ⟨hn, -, -, -, hs, -⟩ := hf
  rw [Content.Complete, inside_root he hn, section_names hs, Format.missingSection?_eq_none]

structure Format.Reflects (f : Format) (doc : Content) : Prop where
  distinct : (f.sections.map Section.name).Nodup
  mentions : (fun table => doc.mentions table .document) = f.mentions.ofTable
  declares : doc.Declares = f.Declares
  complete : doc.Complete ↔ f.missingSection? = none

theorem reflects_of_ofContent? {doc : Content} {f : Format}
    (h : Format.ofContent? doc = .ok (some f)) : f.Reflects doc := by
  obtain ⟨tag, inner, e, rfl, he, hf⟩ := each_singleton.1 (ofContent?_eq_ok.1 h)
  constructor
  case distinct => exact hf.2.2.2.2.2.1
  case mentions =>
    funext table
    exact (format_mentions he hf table).symm
  case declares =>
    funext table id
    exact propext (declares_iff he hf table id)
  case complete => exact complete_iff he hf

theorem compile_of_done {source : List Char} (h : Content.ofSource source = .done) :
    compile source =
      .error ⟨Markup.Position.ofOffset source 0, "format", .missingElement "format"⟩ := by
  rw [compile, h]
  rfl

theorem not_complete_done : ¬Content.done.Complete :=
  fun h => absurd (h "run" (by decide)) List.not_mem_nil

theorem compile_eq_error {source : List Char} {f : Format}
    (h : Format.ofContent? (Content.ofSource source) = .ok (some f)) {e : Error} :
    compile source = .error e ↔ ∃ fault, f.definition = .error fault ∧ fault.locate source = e := by
  rw [compile, h]
  exact mapError_eq_error

/-- Of a document that can be read, the first reference without a definition is reported, if there
is one and no section is missing: the first in its table, of the first table with any. It is
reported at the element that makes it. -/
theorem compile_undefined {source : List Char}
    (h : (Format.ofContent? (Content.ofSource source)).isOk = true) :
    let doc := Content.ofSource source
    let mentions := fun table => doc.mentions table .document
    ((∃ e table id, compile source = .error e ∧ e.cause = .undefined table id) ↔
      doc.Complete ∧ ∃ table, ∃ r ∈ mentions table, ¬doc.Declares table r.id) ∧
      ∀ e table id, compile source = .error e → e.cause = .undefined table id →
        ∃ r, FirstUndefined mentions doc.Declares table r ∧ r.id = id ∧
          e.element = r.element ∧ e.position = Markup.Position.ofStart source r.offset := by
  intro doc mentions
  obtain ⟨found, hfound⟩ := exists_ok h
  cases found with
  | none =>
    have hdoc : doc = .done := ofContent?_eq_none.1 hfound
    have hcompile : ∀ e table id, compile source = .error e → e.cause ≠ .undefined table id := by
      intro e table id he
      rw [compile_of_done hdoc] at he
      cases he
      nofun
    refine ⟨⟨?_, fun hr => absurd (hdoc ▸ hr.1) not_complete_done⟩, ?_⟩
    · rintro ⟨e, table, id, he, hcause⟩
      exact absurd hcause (hcompile e table id he)
    · intro e table id he hcause
      exact absurd hcause (hcompile e table id he)
  | some f =>
    obtain ⟨hn, hmentions, hdeclares, hcomplete⟩ := reflects_of_ofContent? hfound
    rw [show mentions = _ from hmentions, show doc.Declares = _ from hdeclares,
      show doc.Complete ↔ _ from hcomplete, ← f.exists_undefined hn]
    refine ⟨⟨?_, ?_⟩, ?_⟩
    · rintro ⟨e, table, id, he, hcause⟩
      obtain ⟨fault, hfault, rfl⟩ := (compile_eq_error hfound).1 he
      exact ⟨fault, table, id, hfault, hcause⟩
    · rintro ⟨fault, table, id, hfault, hcause⟩
      have he := (compile_eq_error hfound).2 ⟨fault, hfault, rfl⟩
      exact ⟨fault.locate source, table, id, he, hcause⟩
    · intro e table id he hcause
      obtain ⟨fault, hfault, rfl⟩ := (compile_eq_error hfound).1 he
      obtain ⟨-, r, hr, hid, helement, hoffset⟩ := f.first_of_undefined hn hfault hcause
      exact ⟨r, hr, hid, helement, congrArg (Markup.Position.ofStart source) hoffset⟩

/-- A block and a field without a definition, and after them two references to such a color. -/
def danglingSample : String :=
  "<format name='n' short='s'><endianness order='big'/>
   <magic><signature><match value='00'/></signature></magic>
   <run><block ref='d'/><field ref='z'/></run><colors><color id='a' index='1'/></colors>
   <field-defs><field id='x' color='a' accent='b'><size fixed='1'/></field>
   <field id='y' color='b'><size fixed='1'/></field></field-defs></format>"

set_option maxRecDepth 4000 in
theorem compile_undefined_danglingSample :
    let doc := Content.ofSource danglingSample.toList
    (Format.ofContent? doc).isOk = true ∧
      compile danglingSample.toList = .error ⟨⟨4, 16, 218⟩, "field", .undefined .color "b"⟩ ∧
      ∃ r, FirstUndefined (fun table => doc.mentions table .document) doc.Declares .color r ∧
        r.id = "b" ∧ "field" = r.element ∧
        ⟨4, 16, 218⟩ = Markup.Position.ofStart danglingSample.toList r.offset := by
  intro doc
  have hchars : danglingSample.toList = _ := String.toList_ofList
  have hread : (Format.ofContent? doc).isOk = true := by
    unfold doc
    rw [hchars]
    decide +kernel
  have herror : compile danglingSample.toList =
      .error ⟨⟨4, 16, 218⟩, "field", .undefined .color "b"⟩ := by
    rw [hchars]
    decide +kernel
  exact ⟨hread, herror, (compile_undefined hread).2 _ _ _ herror rfl⟩

def runlessSample : String :=
  "<format name='n' short='s'><endianness order='big'/>
   <magic><signature><match value='00'/></signature></magic><colors/>
   <field-defs><field id='x' color='b'><size fixed='1'/></field></field-defs></format>"

set_option maxRecDepth 4000 in
/-- The missing section comes before any reference. -/
theorem not_undefined_runlessSample :
    let doc := Content.ofSource runlessSample.toList
    (Format.ofContent? doc).isOk = true ∧
      ¬((∃ e table id, compile runlessSample.toList = .error e ∧ e.cause = .undefined table id) ↔
        ∃ table, ∃ r ∈ doc.mentions table .document, ¬doc.Declares table r.id) := by
  intro doc
  have hchars : runlessSample.toList = _ := String.toList_ofList
  have hread : (Format.ofContent? doc).isOk = true := by
    unfold doc
    rw [hchars]
    decide +kernel
  have herror : compile runlessSample.toList =
      .error ⟨⟨1, 1, 0⟩, "format", .missingElement "run"⟩ := by
    rw [hchars]
    decide +kernel
  have hundefined : ∃ r ∈ doc.mentions .color .document, ¬doc.Declares .color r.id := by
    unfold doc
    rw [hchars]
    decide +kernel
  refine ⟨hread, fun hiff => ?_⟩
  obtain ⟨e, table, id, he, hcause⟩ := hiff.2 ⟨.color, hundefined⟩
  rw [herror] at he
  cases he
  cases hcause

end Dissect.Document
