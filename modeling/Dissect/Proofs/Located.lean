import Dissect.Proofs.Positions
import Dissect.Proofs.References

/-! Where the errors of a document are reported. What is wrong with an element is reported at the
bracket of its tag, whether it is noticed when the element is read, when its content has been read,
or only when the whole document has been: and every place is given by the line and the column that
a reader would count. -/
namespace Dissect.Document
open Markup Text

/-! ### Faults of a whole document -/

theorem Tag.Makes.blames {t : Tag} {r : Reference} (h : t.Makes r) (table : Table) :
    t.Blames ⟨r.offset, r.element, .undefined table r.id⟩ := ⟨h.offset, h.element, h.said⟩

theorem mem_of_mem_firstMentions {rs : List Reference} {r : Reference} (h : r ∈ firstMentions rs) :
    r ∈ rs := by
  induction rs with
  | nil => cases h
  | cons s rs ih =>
    rcases List.mem_cons.1 h with rfl | h
    · exact List.mem_cons_self
    · exact List.mem_cons_of_mem s (ih (List.mem_filter.1 h).1)

theorem faults_resolve {α : Type} {P : Fault → Prop} {table : Table} {meaning : String → Option α}
    {rs : List Reference}
    (h : ∀ r ∈ rs, meaning r.id = none → P ⟨r.offset, r.element, .undefined table r.id⟩) :
    Faults P (resolve table meaning rs) := by
  induction rs with
  | nil => exact faults_ok _
  | cons r rs ih =>
    rw [List.forall_mem_cons] at h
    rw [resolve]
    split
    · next hm => exact faults_error.2 (h.1 hm)
    · exact faults_map.2 (ih h.2)

section Root
variable {tag : Tag} {inner : Content} {depth : Nat} {e : Element} {f : Format}

theorem faults_definition (he : tag.enter depth = .ok e) (hf : f.Read e inner) :
    Faults (Content.element tag inner .done).Blames f.definition := by
  have hroot (name : String) : tag.Blames ⟨f.offset, "format", .missingElement name⟩ := by
    obtain ⟨hn, -, -, -, -, -, ho⟩ := hf
    rw [ho, ← hn]
    exact Element.Blames.tag he ⟨rfl, rfl, trivial⟩
  have hmakes : f.mentions.Every inner.Makes := format_makes hf
  have hblames {r : Reference} (h : inner.Makes r) (table : Table) :
      (Content.element tag inner .done).Blames ⟨r.offset, r.element, .undefined table r.id⟩ := by
    obtain ⟨t, ht, hr⟩ := h
    exact .inr ⟨t, Content.mem_tags_inner ht, hr.blames table⟩
  rw [Format.definition]
  split
  · exact faults_error.2 (.of_tag (hroot _))
  · simp only [faults_bind, faults_pure, implies_true, and_true]
    refine ⟨faults_resolve ?_, fun _ _ => ⟨faults_resolve ?_, fun _ _ => faults_resolve ?_⟩⟩
    · intro r hr _
      exact hblames (hmakes.colors r (mem_of_mem_firstMentions hr)) .color
    · intro r hr hnone
      rcases List.mem_append.1 (mem_of_mem_firstMentions hr) with hr | hr
      · exact hblames (hmakes.fields r hr) .field
      · -- the stand-in for uncovered bytes has a meaning in every document
        rw [List.mem_singleton.1 hr] at hnone
        exact absurd hnone (field?_unused f _)
    · intro r hr _
      exact hblames (hmakes.blocks r (mem_of_mem_firstMentions hr)) .block

end Root

/-- A document that does not compile has no root, or one of its elements is at fault, or its
markup. -/
theorem blames_of_compile {source : List Char} {e : Error} (h : compile source = .error e) :
    e = ⟨Position.ofOffset source 0, "format", .missingElement "format"⟩ ∨
      ∃ f, e = f.locate source ∧ (Content.ofSource source).Blames f := by
  unfold compile at h
  split at h
  · next fault hc =>
    cases h
    exact .inr ⟨fault, rfl, faults_ofContent? _ fault hc⟩
  · next hc =>
    cases h
    exact .inl rfl
  · next f hc =>
    obtain ⟨tag, inner, e', hc, he, hf⟩ := each_singleton.1 (ofContent?_eq_ok.1 hc)
    cases hd : f.definition with
    | ok d =>
      rw [hd] at h
      cases h
    | error fault =>
      rw [hd] at h
      cases h
      exact .inr ⟨fault, rfl, hc ▸ faults_definition he hf fault hd⟩

/-! ### Places in the source -/

/-- An error is reported where this tag starts, under its name, and says only what is so of its
attributes. -/
structure Error.At (source : List Char) (e : Error) (t : Tag) : Prop where
  element : e.element = t.name
  shows : e.cause.Shows t.get?
  position : e.position = Position.ofStart source t.offset
  starts : ∃ before rest, source = before ++ '<' :: (e.element.toList ++ rest) ∧
    utf8Length before = e.position.offset

structure Error.Placed (source : List Char) (e : Error) : Prop where
  /-- Where the markup is sound and there is a root, some element is at fault. -/
  tag : ¬e.cause.OfMarkup → e.cause ≠ .missingElement "format" →
    ∃ t ∈ (Content.ofSource source).tags, e.At source t
  place : ∀ before rest, source = before ++ rest → utf8Length before = e.position.offset →
    e.position.line = 1 + before.count '\n' ∧ e.position.column = 1 + (lastLine before).length

theorem ofOffset_place {source before rest : List Char} {p : Position} {offset : Nat}
    (hp : p = Position.ofOffset source offset) (hs : source = before ++ rest)
    (ho : utf8Length before = p.offset) :
    p.line = 1 + before.count '\n' ∧ p.column = 1 + (lastLine before).length := by
  rw [hp, ← ofOffset_offset, ← hp, ← ho, hs, ofOffset_append]
  exact ⟨rfl, rfl⟩

/-- Every error of a document without a byte order mark is reported at the tag of the element at
fault, and at the line and the column of that place. -/
theorem compile_error_placed {source : List Char} {e : Error}
    (hbom : source.head? ≠ some '\ufeff') (h : compile source = .error e) : e.Placed source := by
  have hevery := Content.every_ofSource hbom
  obtain rfl | ⟨f, rfl, hf⟩ := blames_of_compile h
  · exact ⟨fun _ hne => absurd rfl hne, fun before rest => ofOffset_place rfl⟩
  · refine ⟨fun hmarkup _ => ?_, fun before rest => ofOffset_place rfl⟩
    obtain hf | ⟨t, ht, hf⟩ := hf
    · exact absurd (hevery.blemishes _ hf) hmarkup
    · have hstands : Stands source f.offset f.element.toList := by
        rw [hf.offset, hf.element]
        exact hevery.tags t ht
      have hposition : (f.locate source).position = Position.ofStart source t.offset :=
        congrArg (Position.ofStart source) hf.offset
      exact ⟨t, ht, hf.element, hf.shows, hposition, hstands.ofStart⟩

def namelessSample : List Char := "<!--\n é --> <format name=\"a\"/>".toList

theorem compile_error_placed_namelessSample :
    Error.Placed namelessSample ⟨⟨2, 8, 13⟩, "format", .missingAttribute "short"⟩ :=
  compile_error_placed (by decide) (by decide +kernel)

end Dissect.Document
