import Dissect.Document.Content

/-! Where the tags of a document stand in its source. The reader remembers for each tag where the
token before it ended; from there on come blanks, and then the tag with its bracket and its name. -/
namespace Dissect

namespace Text

@[simp] theorem utf8Length_append (as bs : List Char) :
    utf8Length (as ++ bs) = utf8Length as + utf8Length bs := by
  induction as with
  | nil => simp [utf8Length]
  | cons a as ih => simp only [List.cons_append, utf8Length, ih, Nat.add_assoc]

theorem utf8Length_concat (as : List Char) (c : Char) :
    utf8Length (as ++ [c]) = utf8Length as + c.utf8Size := by
  simp [utf8Length]

end Text

namespace Markup
open Text

/-- After `offset` bytes of the source come blanks and then markup that begins with `text`. -/
def Stands (source : List Char) (offset : Nat) (text : List Char) : Prop :=
  ∃ before blanks rest, source = before ++ (blanks ++ '<' :: (text ++ rest)) ∧
    utf8Length before = offset ∧ ∀ c ∈ blanks, isMarkupBlank c

theorem Stands.isPrefix {source text text' : List Char} {offset : Nat}
    (h : Stands source offset text) (hp : text' <+: text) : Stands source offset text' := by
  obtain ⟨before, blanks, rest, hs, ho, hb⟩ := h
  obtain ⟨more, rfl⟩ := hp
  refine ⟨before, blanks, more ++ rest, ?_, ho, hb⟩
  rw [hs, List.append_assoc text' more rest]

/-! ### Tokens -/

/-- What can have been read since the last token, in each mode. Only what leads to a tag matters. -/
def Mode.Read (since : List Char) : Mode → Prop
  | .between => ∀ c ∈ since, isMarkupBlank c
  | .opened => ∃ blanks, since = blanks ++ ['<'] ∧ ∀ c ∈ blanks, isMarkupBlank c
  | .tag _ kept => ∃ blanks, since = blanks ++ '<' :: kept.reverse ∧ ∀ c ∈ blanks, isMarkupBlank c
  | _ => True

def Feed.Read (since : List Char) (c : Char) : Feed → Prop
  | .more mode => mode.Read (since ++ [c])
  | .textEnds _ => c = '<'
  | .pieceEnds (.tag content) => ∃ blanks, since ++ [c] = blanks ++ '<' :: (content ++ ['>']) ∧
      ∀ b ∈ blanks, isMarkupBlank b
  | _ => True

theorem tagFeed_read {since kept : List Char} {quote : Option Char}
    (h : (Mode.tag quote kept).Read since) (c : Char) : (tagFeed quote kept c).Read since c := by
  obtain ⟨blanks, rfl, hb⟩ := h
  have hread (q : Option Char) :
      (Mode.tag q (c :: kept)).Read (blanks ++ '<' :: kept.reverse ++ [c]) :=
    ⟨blanks, by simp, hb⟩
  cases quote with
  | some q => exact hread (if c = q then none else some q)
  | none =>
    simp only [tagFeed]
    split
    · next hc => exact ⟨blanks, by simp [hc], hb⟩
    · exact hread (if c = '"' ∨ c = '\'' then some c else none)

theorem Declared.piece_read (what : Declared) (content since : List Char) (c : Char) :
    (Feed.pieceEnds (what.piece content)).Read since c := by
  cases what <;> simp only [Declared.piece] <;> split
  all_goals first
    | trivial
    | split <;> trivial

theorem feed_read {since : List Char} {mode : Mode} (h : mode.Read since) (c : Char) :
    (mode.feed c).Read since c := by
  cases mode with
  | between =>
    simp only [Mode.feed]
    split
    · next hc => exact ⟨since, by rw [hc], h⟩
    · split
      · next hc =>
        intro b hb
        rcases List.mem_append.1 hb with hb | hb
        · exact h b hb
        · exact List.mem_singleton.1 hb ▸ hc
      · trivial
  | opened =>
    have htag : (Mode.tag none []).Read since := h
    simp only [Mode.feed]
    split
    · trivial
    · split
      · trivial
      · exact tagFeed_read htag c
  | tag quote kept => exact tagFeed_read h c
  | text kept =>
    simp only [Mode.feed]
    split
    · assumption
    · trivial
  | exclaimed =>
    simp only [Mode.feed]
    repeat' split
    all_goals trivial
  | declared what kept =>
    simp only [Mode.feed]
    split
    · exact what.piece_read _ _ _
    · trivial
  | instruction kept =>
    simp only [Mode.feed]
    repeat' split
    all_goals trivial

theorem read_between_nil : Mode.between.Read [] := by
  intro c hc
  cases hc

theorem read_opened : Mode.opened.Read ['<'] := by
  refine ⟨[], rfl, ?_⟩
  intro c hc
  cases hc

theorem stands_of_mem_scanFrom {cs : List Char} {t : Token} {content : List Char}
    (hp : t.piece = .tag content) (before since : List Char) {mode : Mode} (hm : mode.Read since)
    (ht : t ∈ scanFrom (utf8Length before) (utf8Length (before ++ since)) mode cs) :
    Stands (before ++ since ++ cs) t.start content := by
  induction cs generalizing before since mode with
  | nil =>
    -- what is left at the end is text or broken
    cases mode <;> simp only [scanFrom, Mode.atEnd, List.mem_singleton, List.not_mem_nil] at ht
    all_goals
      subst ht
      cases hp
  | cons c cs ih =>
    have hread := feed_read hm c
    have happend (xs : List Char) : xs ++ c :: cs = xs ++ [c] ++ cs := by simp
    rw [scanFrom] at ht
    split at ht
    · next mode' hf =>
      rw [hf] at hread
      rw [happend, List.append_assoc before]
      rw [← utf8Length_concat, List.append_assoc before] at ht
      exact ih before (since ++ [c]) hread ht
    · next text hf =>
      rw [hf] at hread
      rw [happend]
      rw [← utf8Length_concat] at ht
      rcases List.mem_cons.1 ht with rfl | ht
      · cases hp
      · obtain rfl : c = '<' := hread
        exact ih (before ++ since) ['<'] read_opened ht
    · next fault hf =>
      rw [List.mem_singleton.1 ht] at hp
      cases hp
    · next piece hnot hf =>
      rw [hf] at hread
      rw [← utf8Length_concat] at ht
      rcases List.mem_cons.1 ht with rfl | ht
      · cases hp
        obtain ⟨blanks, hs, hb⟩ := hread
        refine ⟨before, blanks, '>' :: cs, ?_, rfl, hb⟩
        rw [happend, List.append_assoc before, hs]
        simp
      · have hrest : Stands (before ++ since ++ [c] ++ [] ++ cs) t.start content :=
          ih (before ++ since ++ [c]) [] read_between_nil (by rwa [List.append_nil])
        rwa [List.append_nil, ← happend] at hrest
    · next hf =>
      rw [List.mem_singleton.1 ht] at hp
      cases hp

theorem scan_eq {source : List Char} (hbom : source.head? ≠ some '\ufeff') :
    scan source = scanFrom 0 0 .between source := by
  unfold scan
  split
  · exact absurd rfl hbom
  · rfl

/-- In a source without a byte order mark every tag stands where its token says. -/
theorem stands_of_mem_scan {source : List Char} (hbom : source.head? ≠ some '\ufeff') {t : Token}
    {content : List Char} (ht : t ∈ scan source) (hp : t.piece = .tag content) :
    Stands source t.start content := by
  rw [scan_eq hbom] at ht
  exact stands_of_mem_scanFrom hp [] [] read_between_nil ht

end Markup

namespace Document
open Markup Text

/-! ### Elements -/

/-- Whether the text or the markup is at fault, and not what an element means. -/
def Cause.OfMarkup : Cause → Prop
  | .malformed _ => True
  | .unexpectedText _ => True
  | _ => False

namespace Content

def tags : Content → List Tag
  | .done => []
  | .blemish _ _ => []
  | .element tag inner rest => tag :: (inner.tags ++ rest.tags)

section Tags
variable {tag t : Tag} {inner rest : Content}

theorem mem_tags_self : tag ∈ (element tag inner rest).tags := List.mem_cons_self

theorem mem_tags_inner (h : t ∈ inner.tags) : t ∈ (element tag inner rest).tags :=
  List.mem_cons_of_mem _ (List.mem_append_left _ h)

theorem mem_tags_rest (h : t ∈ rest.tags) : t ∈ (element tag inner rest).tags :=
  List.mem_cons_of_mem _ (List.mem_append_right _ h)

end Tags

def blemishes : Content → List Cause
  | .done => []
  | .blemish _ cause => [cause]
  | .element _ inner rest => inner.blemishes ++ rest.blemishes

/-- All tags are as said, and where anything else stands it is the markup that is at fault. -/
structure Every (P : Tag → Prop) (c : Content) : Prop where
  tags : ∀ t ∈ c.tags, P t
  blemishes : ∀ cause ∈ c.blemishes, cause.OfMarkup

section Every
variable {P : Tag → Prop}

theorem every_done : Content.done.Every P := ⟨nofun, nofun⟩

theorem every_blemish {offset : Nat} {cause : Cause} (h : cause.OfMarkup) :
    (Content.blemish offset cause).Every P :=
  ⟨nofun, fun _ hc => List.mem_singleton.1 hc ▸ h⟩

theorem every_element {tag : Tag} {inner rest : Content} (ht : P tag) (hi : inner.Every P)
    (hr : rest.Every P) : (Content.element tag inner rest).Every P := by
  constructor
  · simp only [Content.tags, List.forall_mem_cons, List.forall_mem_append]
    exact ⟨ht, hi.tags, hr.tags⟩
  · simp only [Content.blemishes, List.forall_mem_append]
    exact ⟨hi.blemishes, hr.blemishes⟩

theorem every_prepend {before : List (Tag × Content)} {tail : Content}
    (hb : ∀ x ∈ before, P x.1 ∧ x.2.Every P) (ht : tail.Every P) :
    (prepend before tail).Every P := by
  induction before generalizing tail with
  | nil => exact ht
  | cons x before ih =>
    rw [List.forall_mem_cons] at hb
    exact ih hb.2 (every_element hb.1.1 hb.1.2 ht)

structure OpenEvery (P : Tag → Prop) (o : Open) : Prop where
  tag : P o.tag
  before : ∀ x ∈ o.before, P x.1 ∧ x.2.Every P

theorem OpenEvery.close {o : Open} {inner : Content} (ho : OpenEvery P o) (hi : inner.Every P) :
    ∀ x ∈ (o.tag, inner) :: o.before, P x.1 ∧ x.2.Every P :=
  List.forall_mem_cons.2 ⟨⟨ho.tag, hi⟩, ho.before⟩

theorem every_enclose {opens : List Open} {before : List (Tag × Content)} {tail : Content}
    (ho : ∀ o ∈ opens, OpenEvery P o) (hb : ∀ x ∈ before, P x.1 ∧ x.2.Every P)
    (ht : tail.Every P) : (enclose opens before tail).Every P := by
  induction opens generalizing before tail with
  | nil => exact every_prepend hb ht
  | cons o opens ih =>
    rw [List.forall_mem_cons] at ho
    exact ih ho.2 (ho.1.close (every_prepend hb ht)) every_done

def TokenGives (P : Tag → Prop) (t : Token) : Prop :=
  ∀ content, t.piece = .tag content →
    P (Tag.ofContent t.start content) ∧ P (Tag.ofContent t.start content.dropLast)

theorem every_ofTokensFrom {ts : List Token} (hts : ∀ t ∈ ts, TokenGives P t) {opens : List Open}
    {before : List (Tag × Content)} (ho : ∀ o ∈ opens, OpenEvery P o)
    (hb : ∀ x ∈ before, P x.1 ∧ x.2.Every P) : (ofTokensFrom opens before ts).Every P := by
  fun_induction ofTokensFrom opens before ts with
  | case1 before => exact every_prepend hb every_done
  | case2 | case4 | case5 | case7 | case8 | case10 =>
    exact every_enclose ho hb (every_blemish trivial)
  | case3 opens before t ts _ ih | case6 opens before t ts _ _ _ ih =>
    exact ih (List.forall_mem_cons.1 hts).2 ho hb
  | case9 before t ts content _ o opens _ ih =>
    rw [List.forall_mem_cons] at ho
    exact ih (List.forall_mem_cons.1 hts).2 ho.2 (ho.1.close (every_prepend hb every_done))
  | case11 opens before t ts content _ hp _ ih =>
    rw [List.forall_mem_cons] at hts
    exact ih hts.2 ho (List.forall_mem_cons.2 ⟨⟨(hts.1 content hp).2, every_done⟩, hb⟩)
  | case12 opens before t ts content _ hp _ ih =>
    rw [List.forall_mem_cons] at hts
    exact ih hts.2 (List.forall_mem_cons.2 ⟨⟨(hts.1 content hp).1, hb⟩, ho⟩) nofun

end Every

theorem stands_ofContent {source content text : List Char} {offset : Nat}
    (h : Stands source offset content) (hp : text <+: content) :
    Stands source offset (Tag.ofContent offset text).name.toList := by
  rw [Tag.ofContent, String.toList_ofList]
  exact h.isPrefix ((List.takeWhile_prefix _).trans hp)

theorem every_ofSource {source : List Char} (hbom : source.head? ≠ some '\ufeff') :
    (ofSource source).Every fun t => Stands source t.offset t.name.toList := by
  have hgives : ∀ t ∈ scan source,
      TokenGives (fun t => Stands source t.offset t.name.toList) t := by
    intro t ht content hp
    have hs : Stands source t.start content := stands_of_mem_scan hbom ht hp
    exact ⟨stands_ofContent hs List.prefix_rfl, stands_ofContent hs (List.dropLast_prefix content)⟩
  exact every_ofTokensFrom hgives nofun nofun

end Content
end Document
end Dissect
