import Dissect.Proofs.Attributes

/-! Rows of elements, read one after the other: a row can be read if every element of it can, and
what is read agrees with the row element by element. -/
namespace Dissect.Document
variable {declared : Table → String → Prop} {context : Context} {parent : String} {depth : Nat}

def Allowed (declared : Table → String → Prop) (context : Context) (depth : Nat) (e : Element)
    (inner : Content) : Prop :=
  ∃ form, (e.name, form) ∈ context.elements ∧ e.Obeys declared form.rules ∧
    form.demands e inner ∧ inner.Conforms declared form.inner (depth + 1)

theorem allowed_iff {e : Element} {inner : Content} : Allowed declared context depth e inner ↔
    ∃ p ∈ context.elements, e.name = p.1 ∧ e.only (p.2.rules.map (·.key)) = .ok () ∧
      e.Keeps declared p.2.rules ∧ p.2.demands e inner ∧
        inner.Conforms declared p.2.inner (depth + 1) := by
  simp only [Allowed, Element.obeys_iff, and_assoc]
  constructor
  · rintro ⟨form, hmem, h⟩
    exact ⟨_, hmem, rfl, h⟩
  · rintro ⟨⟨name, form⟩, hmem, rfl, h⟩
    exact ⟨form, hmem, h⟩

theorem enter_eq_ok {tag : Tag} {e : Element} : tag.enter depth = .ok e ↔ depth ≤ maxNesting ∧
    ∃ attributes, tag.attributes = .ok attributes ∧ ⟨tag.name, tag.offset, attributes⟩ = e := by
  rw [Tag.enter]
  cases tag.attributes with
  | error fault => simp
  | ok attributes => simp

theorem get?_of_enter {tag : Tag} {e : Element} (h : tag.enter depth = .ok e) (key : String) :
    tag.get? key = e.get? key := by
  obtain ⟨-, attributes, ha, rfl⟩ := enter_eq_ok.1 h
  rw [Tag.get?, ha]
  rfl

theorem name_of_enter {tag : Tag} {e : Element} (h : tag.enter depth = .ok e) :
    tag.name = e.name := by
  obtain ⟨-, attributes, ha, rfl⟩ := enter_eq_ok.1 h
  rfl

theorem conforms_element {tag : Tag} {inner rest : Content} :
    (Content.element tag inner rest).Conforms declared context depth ↔
      (∃ e, tag.enter depth = .ok e ∧ Allowed declared context depth e inner) ∧
        rest.Conforms declared context depth := by
  simp only [Content.Conforms, enter_eq_ok, Allowed]
  constructor
  · rintro ⟨hd, ⟨attributes, form, ha, hform⟩, hrest⟩
    exact ⟨⟨_, ⟨hd, attributes, ha, rfl⟩, form, hform⟩, hrest⟩
  · rintro ⟨⟨_, ⟨hd, attributes, ha, rfl⟩, form, hform⟩, hrest⟩
    exact ⟨hd, ⟨attributes, form, ha, hform⟩, hrest⟩

@[simp] theorem conforms_leaf {c : Content} : c.Conforms declared .leaf depth ↔ c = .done := by
  cases c with
  | done => simp [Content.Conforms]
  | blemish offset cause => simp [Content.Conforms]
  | element tag inner rest => simp [conforms_element, Allowed, Context.elements]

@[simp] theorem nothing_eq_ok {c : Content} {u : Unit} :
    c.nothing parent depth = .ok u ↔ c = .done := by
  cases c with
  | done => simp [Content.nothing, Content.fold]
  | blemish offset cause => simp [Content.nothing, Content.fold]
  | element tag inner rest => simp [Content.nothing, Content.fold]

theorem any_key_iff {α : Type} {key : α → String} {xs : List α} {id : String} :
    (xs.any fun x => key x == id) = true ↔ id ∈ xs.map key := by
  simp

namespace Content
variable {α β : Type} {one : Element → Content → α → Prop}

/-- The elements of a row are one for one what the list says. -/
def Each (depth : Nat) (one : Element → Content → α → Prop) : Content → List α → Prop
  | .done, xs => xs = []
  | .blemish _ _, _ => False
  | .element _ _ _, [] => False
  | .element tag inner rest, x :: xs =>
    (∃ e, tag.enter depth = .ok e ∧ one e inner x) ∧ rest.Each depth one xs

/-- Puts one after the other, as long as each is admitted. -/
def Puts (admits : β → α → Prop) (put : β → α → β) : β → List α → β → Prop
  | acc, [], acc' => acc = acc'
  | acc, x :: xs, acc' => admits acc x ∧ Puts admits put (put acc x) xs acc'

theorem fold_eq_ok {admits : β → α → Prop} {put : β → α → β}
    {read : β → Element → Content → Except Fault β}
    (h : ∀ acc e inner acc', read acc e inner = .ok acc' ↔
      ∃ x, one e inner x ∧ admits acc x ∧ put acc x = acc')
    {c : Content} {acc acc' : β} : c.fold parent depth read acc = .ok acc' ↔
      ∃ xs, c.Each depth one xs ∧ Puts admits put acc xs acc' := by
  induction c generalizing acc with
  | done => simp [fold, Each, Puts]
  | blemish offset cause => simp [fold, Each]
  | element tag inner rest _ ih =>
    simp only [fold, bind_eq_ok, h, ih]
    constructor
    · rintro ⟨e, he, _, ⟨x, hx, ha, rfl⟩, xs, hxs, hp⟩
      exact ⟨x :: xs, ⟨⟨e, he, hx⟩, hxs⟩, ha, hp⟩
    · rintro ⟨xs, hxs, hp⟩
      cases xs with
      | nil => exact hxs.elim
      | cons x xs =>
        obtain ⟨⟨e, he, hx⟩, hxs⟩ := hxs
        exact ⟨e, he, _, ⟨x, hx, hp.1, rfl⟩, xs, hxs, hp.2⟩

theorem puts_append {acc acc' xs : List α} :
    Puts (fun _ _ => True) (fun acc x => acc ++ [x]) acc xs acc' ↔ acc ++ xs = acc' := by
  induction xs generalizing acc with
  | nil => simp [Puts]
  | cons x xs ih => simp [Puts, ih]

theorem puts_distinct {key : α → String} {acc acc' xs : List α} (hacc : (acc.map key).Nodup) :
    Puts (fun acc x => key x ∉ acc.map key) (fun acc x => acc ++ [x]) acc xs acc' ↔
      ((acc ++ xs).map key).Nodup ∧ acc ++ xs = acc' := by
  induction xs generalizing acc with
  | nil => simp [Puts, hacc]
  | cons x xs ih =>
    rw [Puts]
    by_cases hx : key x ∈ acc.map key
    · simp only [hx, not_true_eq_false, false_and, false_iff, not_and]
      intro hn
      rw [List.map_append, List.map_cons, List.nodup_append] at hn
      exact absurd rfl (hn.2.2 _ hx _ List.mem_cons_self)
    · have hacc' : ((acc ++ [x]).map key).Nodup := by
        rw [List.map_append, List.map_singleton, List.nodup_append]
        refine ⟨hacc, by simp, ?_⟩
        intro a ha b hb
        rw [List.mem_singleton] at hb
        rintro rfl
        exact hx (hb ▸ ha)
      rw [ih hacc']
      simp [hx]

theorem each_iff {bound : α → Prop} (h : ∀ e inner, (∃ x, one e inner x ∧ bound x) ↔
    Allowed declared context depth e inner) {c : Content} :
    (∃ xs, c.Each depth one xs ∧ ∀ x ∈ xs, bound x) ↔ c.Conforms declared context depth := by
  induction c with
  | done => simp [Each, Conforms]
  | blemish offset cause => simp [Each, Conforms]
  | element tag inner rest _ ih =>
    rw [conforms_element, ← ih]
    constructor
    · rintro ⟨xs, hxs, hb⟩
      cases xs with
      | nil => exact hxs.elim
      | cons x xs =>
        obtain ⟨⟨e, he, hx⟩, hxs⟩ := hxs
        rw [List.forall_mem_cons] at hb
        exact ⟨⟨e, he, (h e inner).1 ⟨x, hx, hb.1⟩⟩, xs, hxs, hb.2⟩
    · rintro ⟨⟨e, he, ha⟩, xs, hxs, hb⟩
      obtain ⟨x, hx, hbx⟩ := (h e inner).2 ha
      exact ⟨x :: xs, ⟨⟨e, he, hx⟩, hxs⟩, List.forall_mem_cons.2 ⟨hbx, hb⟩⟩

theorem each_iff_of_exists (h : ∀ e inner, (∃ x, one e inner x) ↔
    Allowed declared context depth e inner) {c : Content} :
    (∃ xs, c.Each depth one xs) ↔ c.Conforms declared context depth := by
  have h' (e : Element) (inner : Content) : (∃ x, one e inner x ∧ True) ↔
      Allowed declared context depth e inner := by
    simp only [and_true, h]
  simpa using each_iff h'

/-- Reading entries one after the other is reading each of them. -/
theorem fold_append_eq_ok {add : List α → Element → Content → Except Fault (List α)}
    (h : ∀ acc e inner acc', add acc e inner = .ok acc' ↔ ∃ x, one e inner x ∧ acc ++ [x] = acc')
    {c : Content} {xs : List α} : c.fold parent depth add [] = .ok xs ↔ c.Each depth one xs := by
  have hadd (acc : List α) (e : Element) (inner : Content) (acc' : List α) :
      add acc e inner = .ok acc' ↔ ∃ x, one e inner x ∧ True ∧ acc ++ [x] = acc' := by
    simp only [h, true_and]
  rw [fold_eq_ok hadd]
  simp only [puts_append, List.nil_append, exists_eq_right]

theorem fold_distinct_eq_ok {key : α → String}
    {add : List α → Element → Content → Except Fault (List α)}
    (h : ∀ acc e inner acc', add acc e inner = .ok acc' ↔
      ∃ x, one e inner x ∧ key x ∉ acc.map key ∧ acc ++ [x] = acc')
    {c : Content} {xs : List α} : c.fold parent depth add [] = .ok xs ↔
      c.Each depth one xs ∧ (xs.map key).Nodup := by
  have hnil : (([] : List α).map key).Nodup := List.nodup_nil
  rw [fold_eq_ok h]
  simp only [puts_distinct hnil, List.nil_append]
  constructor
  · intro h
    obtain ⟨_, hxs, hn, rfl⟩ := h
    exact ⟨hxs, hn⟩
  · intro h
    exact ⟨xs, h.1, h.2, rfl⟩

theorem Each.forall₂ {c : Content} {xs : List α} (hxs : c.Each depth one xs) :
    List.Forall₂ (fun t x => ∃ e, t.1.enter depth = .ok e ∧ one e t.2 x) c.row xs := by
  induction c generalizing xs with
  | done =>
    cases hxs
    exact .nil
  | blemish offset cause => exact hxs.elim
  | element tag inner rest _ ih =>
    cases xs with
    | nil => exact hxs.elim
    | cons x xs => exact .cons hxs.1 (ih hxs.2)

theorem Each.map_eq {f : Tag × Content → β} {g : α → β}
    (h : ∀ t e x, t.1.enter depth = .ok e → one e t.2 x → f t = g x) {c : Content} {xs : List α}
    (hxs : c.Each depth one xs) : c.row.map f = xs.map g := by
  rw [← List.forall₂_eq_eq_eq, List.forall₂_map_left_iff, List.forall₂_map_right_iff]
  refine hxs.forall₂.imp ?_
  rintro t x ⟨e, he, hx⟩
  exact h t e x he hx

theorem Each.names {f : α → String} (h : ∀ e inner x, one e inner x → e.name = f x) {c : Content}
    {xs : List α} (hxs : c.Each depth one xs) : c.row.names = xs.map f :=
  hxs.map_eq fun t e x he hx => (name_of_enter he).trans (h e t.2 x hx)

theorem Each.values {key : String} {f : α → String}
    (h : ∀ e inner x, one e inner x → e.get? key = some (f x)) {c : Content} {xs : List α}
    (hxs : c.Each depth one xs) : c.row.values key = xs.map f := by
  have hmap : c.row.map (·.1.get? key) = xs.map fun x => some (f x) :=
    hxs.map_eq fun t e x he hx => (get?_of_enter he key).trans (h e t.2 x hx)
  calc c.row.values key = (c.row.map (·.1.get? key)).filterMap id := by
        rw [List.filterMap_map]
        rfl
    _ = xs.map f := by
        rw [hmap, List.filterMap_map, ← List.filterMap_eq_map]
        rfl

theorem Each.row_eq_nil {c : Content} {xs : List α} (hxs : c.Each depth one xs) :
    c.row = [] ↔ xs = [] := by
  rw [← List.length_eq_zero_iff, hxs.forall₂.length_eq, List.length_eq_zero_iff]

theorem exists_of_forall₂ {R : α → β → Prop} {xs : List α} {ys : List β} (h : List.Forall₂ R xs ys)
    {x : α} (hx : x ∈ xs) : ∃ y ∈ ys, R x y := by
  induction h with
  | nil => cases hx
  | cons hy _ ih =>
    rcases List.mem_cons.1 hx with rfl | hx
    · exact ⟨_, List.mem_cons_self, hy⟩
    · obtain ⟨y, hmem, hxy⟩ := ih hx
      exact ⟨y, List.mem_cons_of_mem _ hmem, hxy⟩

theorem Each.exists_of_mem {c : Content} {xs : List α} (hxs : c.Each depth one xs) {x : α}
    (hx : x ∈ xs) : ∃ t ∈ c.row, ∃ e, t.1.enter depth = .ok e ∧ one e t.2 x :=
  exists_of_forall₂ hxs.forall₂.flip hx

theorem Each.exists_of_mem_row {c : Content} {xs : List α} (hxs : c.Each depth one xs)
    {t : Tag × Content} (ht : t ∈ c.row) :
    ∃ x ∈ xs, ∃ e, t.1.enter depth = .ok e ∧ one e t.2 x :=
  exists_of_forall₂ hxs.forall₂ ht

end Content

end Dissect.Document
