import Dissect.Proofs.Entries

/-! Fields, whose parts have to fit together. -/
namespace Dissect.Document
open Text
variable {declared : Table → String → Prop} {parent : String} {depth : Nat}

namespace Row

theorem mem_values_named {r : Row} {name key v : String} : v ∈ (r.named name).values key ↔
    ∃ t ∈ r, t.1.name = name ∧ t.1.get? key = some v := by
  simp [values, named, and_assoc]

theorem exists_values_named {r : Row} {name key : String} {p : String → Prop} :
    (∃ v ∈ (r.named name).values key, p v) ↔
      ∃ t ∈ r, t.1.name = name ∧ ∃ v, t.1.get? key = some v ∧ p v := by
  simp only [mem_values_named]
  constructor
  · intro h
    obtain ⟨v, ⟨t, ht, hn, hv⟩, hp⟩ := h
    exact ⟨t, ht, hn, v, hv, hp⟩
  · intro h
    obtain ⟨t, ht, hn, v, hv, hp⟩ := h
    exact ⟨v, ⟨t, ht, hn, hv⟩, hp⟩

theorem mem_values_inside {r : Row} {name key v : String} : v ∈ (r.inside name).values key ↔
    ∃ t ∈ r, t.1.name = name ∧ ∃ u ∈ t.2.row, u.1.get? key = some v := by
  simp only [values, inside, named, List.mem_filterMap, List.mem_flatMap, List.mem_filter,
    beq_iff_eq]
  constructor
  · intro h
    obtain ⟨u, ⟨t, ⟨ht, hn⟩, hu⟩, hv⟩ := h
    exact ⟨t, ht, hn, u, hu, hv⟩
  · intro h
    obtain ⟨t, ht, hn, u, hu, hv⟩ := h
    exact ⟨u, ⟨t, ⟨ht, hn⟩, hu⟩, hv⟩

end Row

namespace FieldParts

def Has (parts : FieldParts) : Part → Prop
  | .size rule => parts.size = some rule
  | .mask bytes => parts.mask = some bytes
  | .shift bits => parts.shift = some bits
  | .encoding form => parts.encoding = some form
  | .print mode => parts.print = some mode
  | .options entries => parts.options = some entries
  | .flags entries => parts.flags = some entries

theorem put_lacks (parts : FieldParts) (p q : Part) :
    (parts.put p).Lacks q ↔ parts.Lacks q ∧ p.name ≠ q.name := by
  cases p <;> cases q <;> simp [put, Lacks, Part.name]

theorem put_has {parts : FieldParts} {p : Part} (hp : parts.Lacks p) (q : Part) :
    (parts.put p).Has q ↔ parts.Has q ∨ q = p := by
  cases p <;> cases q <;> simp_all [put, Has, Lacks, eq_comm]

theorem puts_iff {parts parts' : FieldParts} {xs : List Part} :
    Content.Puts Lacks put parts xs parts' ↔
      (xs.map Part.name).Nodup ∧ (∀ x ∈ xs, parts.Lacks x) ∧ xs.foldl put parts = parts' := by
  induction xs generalizing parts with
  | nil => simp [Content.Puts]
  | cons x xs ih =>
    simp only [Content.Puts, ih, put_lacks, List.map_cons, List.nodup_cons, List.mem_map,
      not_exists,
      not_and, List.forall_mem_cons, List.foldl_cons]
    constructor
    · intro h
      obtain ⟨hx, hn, hl, he⟩ := h
      exact ⟨⟨fun y hy h => (hl y hy).2 h.symm, hn⟩, ⟨hx, fun y hy => (hl y hy).1⟩, he⟩
    · intro h
      obtain ⟨⟨hx, hn⟩, ⟨hlx, hl⟩, he⟩ := h
      exact ⟨hlx, hn, fun y hy => ⟨hl y hy, fun h => hx y hy h.symm⟩, he⟩

theorem foldl_has {parts parts' : FieldParts} {xs : List Part}
    (h : Content.Puts Lacks put parts xs parts') (p : Part) :
    parts'.Has p ↔ parts.Has p ∨ p ∈ xs := by
  induction xs generalizing parts with
  | nil =>
    cases h
    simp
  | cons x xs ih =>
    obtain ⟨hx, h⟩ := h
    rw [ih h, put_has hx, List.mem_cons, or_assoc]

end FieldParts

/-- What the elements inside a field say, all together. -/
theorem parts_eq_ok {c : Content} {parts : FieldParts} :
    c.fold parent depth addPart {} = .ok parts ↔
      ∃ xs, c.Each depth (fun e inner part => Part.Read e inner part) xs ∧
        Content.Puts FieldParts.Lacks FieldParts.put {} xs parts := by
  apply Content.fold_eq_ok
  intro _ _ _ _
  exact addPart_eq_ok

/-! The parts of a field in its row. -/

namespace Part
variable {e : Element} {inner : Content} {p : Part}

theorem exists_iff {P : Part → Prop} : (∃ p, P p) ↔ (∃ rule, P (.size rule)) ∨
    (∃ bytes, P (.mask bytes)) ∨ (∃ bits, P (.shift bits)) ∨ (∃ form, P (.encoding form)) ∨
    (∃ mode, P (.print mode)) ∨ (∃ entries, P (.options entries)) ∨
    ∃ entries, P (.flags entries) := by
  constructor
  · intro h
    obtain ⟨p, hp⟩ := h
    cases p with
    | size rule => exact .inl ⟨rule, hp⟩
    | mask bytes => exact .inr (.inl ⟨bytes, hp⟩)
    | shift bits => exact .inr (.inr (.inl ⟨bits, hp⟩))
    | encoding form => exact .inr (.inr (.inr (.inl ⟨form, hp⟩)))
    | print mode => exact .inr (.inr (.inr (.inr (.inl ⟨mode, hp⟩))))
    | options entries => exact .inr (.inr (.inr (.inr (.inr (.inl ⟨entries, hp⟩)))))
    | flags entries => exact .inr (.inr (.inr (.inr (.inr (.inr ⟨entries, hp⟩)))))
  · intro h
    obtain ⟨_, h⟩ | ⟨_, h⟩ | ⟨_, h⟩ | ⟨_, h⟩ | ⟨_, h⟩ | ⟨_, h⟩ | ⟨_, h⟩ := h <;> exact ⟨_, h⟩

theorem size_iff (h : p.Read e inner) (n : Nat) : p = .size (.fixed n) ↔
    e.name = "size" ∧ ∃ text, e.get? "fixed" = some text ∧ Numeral 10 (trim text.toList) n := by
  constructor
  · intro hp
    subst hp
    obtain ⟨hn, hsize, -⟩ := h
    obtain ⟨-, hfixed, -⟩ := size_eq_ok.1 hsize
    obtain ⟨text, htext, hnum, -⟩ := Element.natural?_eq_ok.1 hfixed
    exact ⟨hn, text, htext, hnum⟩
  · intro hp
    obtain ⟨hn, text, htext, hnum⟩ := hp
    cases p with
    | size rule =>
      obtain ⟨-, hsize, -⟩ := h
      have hrule := size_eq_ok.1 hsize
      cases rule with
      | fixed m =>
        obtain ⟨v, hv, hm, -⟩ := Element.natural?_eq_ok.1 hrule.2.1
        rw [htext] at hv
        cases hv
        rw [hnum.unique hm]
      | remaining => simp [htext] at hrule
      | terminated byte => simp [htext] at hrule
    | _ => exact absurd (hn.symm.trans (name_of_read h)) (by simp [name])

theorem mask_iff (h : p.Read e inner) (bytes : List UInt8) : p = .mask bytes ↔
    e.name = "mask" ∧ ∃ text, e.get? "value" = some text ∧ HexText text bytes := by
  constructor
  · intro hp
    subst hp
    obtain ⟨hn, hmask, -⟩ := h
    obtain ⟨text, htext, hbytes⟩ := Element.hex_eq_ok.1 (mask_eq_ok.1 hmask).1
    exact ⟨hn, text, htext, hbytes⟩
  · intro hp
    obtain ⟨hn, text, htext, hbytes⟩ := hp
    cases p with
    | mask bytes' =>
      obtain ⟨-, hmask, -⟩ := h
      obtain ⟨v, hv, hb⟩ := Element.hex_eq_ok.1 (mask_eq_ok.1 hmask).1
      rw [htext] at hv
      cases hv
      rw [hbytes.unique hb]
    | _ => exact absurd (hn.symm.trans (name_of_read h)) (by simp [name])

theorem ofName?_injective {mode : PrintMode} {v w : String} (hv : PrintMode.ofName? v = some mode)
    (hw : PrintMode.ofName? w = some mode) : v = w := by
  unfold PrintMode.ofName? at hv hw
  split at hv <;> cases hv <;> split at hw <;> first | rfl | cases hw

theorem print_iff (h : p.Read e inner) {mode : PrintMode} {v : String}
    (hv : PrintMode.ofName? v = some mode) :
    p = .print mode ↔ e.name = "print" ∧ e.get? "mode" = some v := by
  constructor
  · intro hp
    subst hp
    obtain ⟨hn, hmode, -⟩ := h
    obtain ⟨w, hw, hmode⟩ := printMode_eq_ok.1 hmode
    exact ⟨hn, ofName?_injective hmode hv ▸ hw⟩
  · intro hp
    obtain ⟨hn, hw⟩ := hp
    cases p with
    | print mode' =>
      obtain ⟨-, hmode, -⟩ := h
      obtain ⟨w, hw', hmode⟩ := printMode_eq_ok.1 hmode
      rw [hw] at hw'
      cases hw'
      rw [hv] at hmode
      cases hmode
      rfl
    | _ => exact absurd (hn.symm.trans (name_of_read h)) (by simp [name])

theorem options_iff (h : p.Read e inner) (bytes : List UInt8) :
    (∃ entries, p = .options entries ∧ ∃ o ∈ entries, o.pattern = bytes) ↔
      e.name = "options" ∧
        ∃ t ∈ inner.row, ∃ text, t.1.get? "value" = some text ∧ HexText text bytes := by
  constructor
  · intro hp
    obtain ⟨entries, rfl, o, ho, rfl⟩ := hp
    obtain ⟨hn, -, hentries, -⟩ := h
    obtain ⟨t, ht, e', he', hread⟩ := hentries.exists_of_mem ho
    obtain ⟨text, htext, hbytes⟩ := Element.hex_eq_ok.1 hread.2.2.1
    exact ⟨hn, t, ht, text, (get?_of_enter he' _).trans htext, hbytes⟩
  · intro hp
    obtain ⟨hn, t, ht, text, htext, hbytes⟩ := hp
    cases p with
    | options entries =>
      obtain ⟨-, -, hentries, -⟩ := h
      obtain ⟨o, ho, e', he', hread⟩ := hentries.exists_of_mem_row ht
      obtain ⟨text', htext', hpattern⟩ := Element.hex_eq_ok.1 hread.2.2.1
      rw [← get?_of_enter he', htext] at htext'
      cases htext'
      exact ⟨entries, rfl, o, ho, hpattern.unique hbytes⟩
    | _ => exact absurd (hn.symm.trans (name_of_read h)) (by simp [name])

end Part

structure FieldParts.Sound (parts : FieldParts) : Prop where
  sized : ∃ size, parts.size = some size
  cut : parts.mask ≠ none ∨ parts.shift ≠ none → ∃ n, parts.size = some (.fixed n) ∧ n ≤ 8 ∧
    ∀ mask, parts.mask = some mask → mask.length ≤ n
  options : parts.print = some .options → parts.options.getD [] ≠ []
  flags : parts.print = some .flags → parts.flags.getD [] ≠ []
  patterns : parts.mask = none → parts.shift = none → ∀ n, parts.size = some (.fixed n) →
    ∀ o ∈ parts.options.getD [], o.pattern.length = n

namespace FieldParts
variable {parts : FieldParts}

theorem bits_eq_ok {size : SizeRule} {b : Option BitField} (h : parts.bits size = .ok b) :
    b = none ↔ parts.mask = none ∧ parts.shift = none := by
  unfold bits at h
  split at h
  · next hc =>
    cases h
    simpa using hc
  · next hc =>
    have hb : b ≠ none := by
      split at h
      · split at h
        · cases h
        · dsimp only at h
          split at h
          · cases h
            simp
          · split at h <;> cases h
            simp
      · cases h
    simp only [hb, false_iff]
    simpa using hc

/-- Only a field of a small fixed size can have a mask or a shift. -/
theorem exists_bits (size : SizeRule) : (∃ b, parts.bits size = .ok b) ↔
    (parts.mask ≠ none ∨ parts.shift ≠ none → ∃ n, size = .fixed n ∧ n ≤ 8 ∧
      ∀ mask, parts.mask = some mask → mask.length ≤ n) := by
  by_cases h : parts.mask = none ∧ parts.shift = none
  · simp [bits, h.1, h.2]
  · have hc : (parts.mask.isNone && parts.shift.isNone) = false := by
      rw [Bool.eq_false_iff]
      simpa using h
    have hcut : parts.mask ≠ none ∨ parts.shift ≠ none := by
      simpa only [ne_eq, Decidable.not_and_iff_or_not] using h
    simp only [bits, hc, Bool.false_eq_true, if_false, hcut, true_implies]
    cases size with
    | remaining => simp
    | terminated byte => simp
    | fixed n =>
      cases hm : parts.mask with
      | none => simp
      | some mask => simp

theorem checkOptions_eq_ok {size : SizeRule} {bits : Option BitField} {options : List OptionEntry}
    {u : Unit} : checkOptions size bits options = .ok u ↔
      ∀ n, size = .fixed n → bits = none → ∀ o ∈ options, o.pattern.length = n := by
  cases size with
  | remaining => simp [checkOptions]
  | terminated byte => simp [checkOptions]
  | fixed n =>
    cases bits with
    | some b => simp [checkOptions]
    | none =>
      simp only [checkOptions]
      cases h : options.find? (·.pattern.length != n) with
      | none => simpa using h
      | some o =>
        have ho : o.pattern.length ≠ n := by simpa using List.find?_some h
        simp only [reduceCtorEq, false_iff]
        intro hall
        exact ho (hall n rfl trivial o (List.mem_of_find?_eq_some h))

theorem print_eq_iff {mode : PrintMode} (htext : mode ≠ .text) (hraw : mode ≠ .raw) :
    parts.print.getD (if parts.encoding.isSome then .text else .raw) = mode ↔
      parts.print = some mode := by
  cases parts.print with
  | some print => simp
  | none => by_cases he : parts.encoding.isSome <;> simp [he, htext.symm, hraw.symm]

theorem field_eq_ok {id : String} {e : Element} {f : FieldDef Reference} :
    parts.field id e = .ok f ↔ ∃ size bits, parts.size = some size ∧ parts.bits size = .ok bits ∧
      ¬(parts.print = some .options ∧ parts.options.getD [] = []) ∧
      ¬(parts.print = some .flags ∧ parts.flags.getD [] = []) ∧
      checkOptions size bits (parts.options.getD []) = .ok () ∧
      { id := id
        name := (e.get? "name").getD id
        tag := e.get? "tag"
        color := (e.get? "color").map e.mention
        accent := (e.get? "accent").map e.mention
        tooltip := e.get? "tooltip"
        size := size
        bits := bits
        encoding := parts.encoding.getD .ascii
        print := parts.print.getD (if parts.encoding.isSome then .text else .raw)
        options := parts.options.getD []
        flags := parts.flags.getD [] } = f := by
  have hoptions := @print_eq_iff parts .options (by simp) (by simp)
  have hflags := @print_eq_iff parts .flags (by simp) (by simp)
  cases hsize : parts.size with
  | none => simp [field, hsize]
  | some size =>
    simp only [field, hsize, pure_bind, bind_eq_ok, check_eq_ok, pure_eq_ok, hoptions, hflags]
    constructor
    · intro h
      obtain ⟨bits, hbits, ho, hf, _, hcheck, rfl⟩ := h
      exact ⟨size, bits, rfl, hbits, ho, hf, hcheck, rfl⟩
    · intro h
      obtain ⟨_, bits, hs, hbits, ho, hf, hcheck, rfl⟩ := h
      cases hs
      exact ⟨bits, hbits, ho, hf, (), hcheck, rfl⟩

theorem exists_field {id : String} {e : Element} :
    (∃ f, parts.field id e = .ok f) ↔ parts.Sound := by
  simp only [field_eq_ok, checkOptions_eq_ok]
  constructor
  · intro h
    obtain ⟨_, size, bits, hsize, hbits, hoptions, hflags, hpatterns, -⟩ := h
    constructor
    case sized => exact ⟨size, hsize⟩
    case cut => simpa [hsize] using (exists_bits size).1 ⟨bits, hbits⟩
    case options => exact fun hp ho => hoptions ⟨hp, ho⟩
    case flags => exact fun hp ho => hflags ⟨hp, ho⟩
    case patterns =>
      intro hm hs n hn
      rw [hsize] at hn
      exact hpatterns n (Option.some.inj hn) ((bits_eq_ok hbits).2 ⟨hm, hs⟩)
  · intro h
    obtain ⟨size, hsize⟩ := h.sized
    have hcut : ∃ bits, parts.bits size = .ok bits :=
      (exists_bits size).2 (by simpa [hsize] using h.cut)
    obtain ⟨bits, hbits⟩ := hcut
    refine ⟨_, size, bits, hsize, hbits, fun hp => h.options hp.1 hp.2,
      fun hp => h.flags hp.1 hp.2, ?_, rfl⟩
    intro n hn hnone
    obtain ⟨hm, hs⟩ := (bits_eq_ok hbits).1 hnone
    exact h.patterns hm hs n (by rw [hsize, hn])

theorem field_refs {id : String} {e : Element} {f : FieldDef Reference}
    (h : parts.field id e = .ok f) : f.id = id ∧ f.color = (e.get? "color").map e.mention ∧
      f.accent = (e.get? "accent").map e.mention := by
  obtain ⟨size, bits, -, -, -, -, -, rfl⟩ := field_eq_ok.1 h
  exact ⟨rfl, rfl, rfl⟩

end FieldParts

structure Gathered (c : Content) (xs : List Part) (parts : FieldParts) : Prop where
  each : c.Each 4 (fun e inner part => Part.Read e inner part) xs
  puts : Content.Puts FieldParts.Lacks FieldParts.put {} xs parts

namespace Gathered
variable {c : Content} {xs : List Part} {parts : FieldParts} (h : Gathered c xs parts)
include h

theorem names : c.row.names = xs.map Part.name := by
  apply h.each.names
  intro _ _ _
  exact Part.name_of_read

theorem nodup : c.row.names.Nodup := by
  rw [h.names]
  exact (FieldParts.puts_iff.1 h.puts).1

theorem has_iff (p : Part) : parts.Has p ↔ p ∈ xs := by
  have hnone : ¬({} : FieldParts).Has p := by cases p <;> simp [FieldParts.Has]
  rw [FieldParts.foldl_has h.puts, or_iff_right hnone]

theorem exists_iff {P : Part → Prop} {Q : Tag × Content → Prop}
    (hpq : ∀ t e p, t.1.enter 4 = .ok e → Part.Read e t.2 p → (P p ↔ Q t)) :
    (∃ p ∈ xs, P p) ↔ ∃ t ∈ c.row, Q t := by
  constructor
  · intro hp
    obtain ⟨p, hmem, hp⟩ := hp
    obtain ⟨t, ht, e, he, hread⟩ := h.each.exists_of_mem hmem
    exact ⟨t, ht, (hpq t e p he hread).1 hp⟩
  · intro ht
    obtain ⟨t, hmem, ht⟩ := ht
    obtain ⟨p, hp, e, he, hread⟩ := h.each.exists_of_mem_row hmem
    exact ⟨p, hp, (hpq t e p he hread).2 ht⟩

theorem mem_names (name : String) :
    name ∈ c.row.names ↔ ∃ p : Part, parts.Has p ∧ p.name = name := by
  rw [h.names, List.mem_map]
  simp only [h.has_iff]

theorem mem_size : "size" ∈ c.row.names ↔ ∃ size, parts.size = some size := by
  simp [h.mem_names, Part.exists_iff, Part.name, FieldParts.Has]

theorem mem_mask : "mask" ∈ c.row.names ↔ parts.mask ≠ none := by
  simp [h.mem_names, Part.exists_iff, Part.name, FieldParts.Has, Option.ne_none_iff_exists']

theorem mem_shift : "shift" ∈ c.row.names ↔ parts.shift ≠ none := by
  simp [h.mem_names, Part.exists_iff, Part.name, FieldParts.Has, Option.ne_none_iff_exists']

theorem mem_options : "options" ∈ c.row.names ↔ parts.options.getD [] ≠ [] := by
  have hmem : "options" ∈ c.row.names ↔ ∃ entries, parts.options = some entries := by
    simp [h.mem_names, Part.exists_iff, Part.name, FieldParts.Has]
  rw [hmem]
  cases ho : parts.options with
  | none => simp
  | some entries =>
    obtain ⟨t, ht, e, he, hread⟩ := h.each.exists_of_mem ((h.has_iff (.options entries)).1 ho)
    simpa using hread.2.2.2

theorem mem_flags : "flags" ∈ c.row.names ↔ parts.flags.getD [] ≠ [] := by
  have hmem : "flags" ∈ c.row.names ↔ ∃ entries, parts.flags = some entries := by
    simp [h.mem_names, Part.exists_iff, Part.name, FieldParts.Has]
  rw [hmem]
  cases ho : parts.flags with
  | none => simp
  | some entries =>
    obtain ⟨t, ht, e, he, hread⟩ := h.each.exists_of_mem ((h.has_iff (.flags entries)).1 ho)
    simpa using hread.2.2.2

/-- What the parts of a row are is what the attributes of its elements say. -/
theorem said_iff {part : Part} {name key : String} {means : String → Prop}
    (hpart : ∀ {e : Element} {inner : Content} {p : Part}, Part.Read e inner p →
      (p = part ↔ e.name = name ∧ ∃ text, e.get? key = some text ∧ means text)) :
    (∃ text ∈ (c.row.named name).values key, means text) ↔ parts.Has part := by
  have hread : ∀ (t : Tag × Content) (e : Element) (p : Part), t.1.enter 4 = .ok e →
      Part.Read e t.2 p →
      (p = part ↔ t.1.name = name ∧ ∃ text, t.1.get? key = some text ∧ means text) := by
    intro t e p he hread
    rw [name_of_enter he, get?_of_enter he]
    exact hpart hread
  have hrow := h.exists_iff hread
  rw [exists_eq_right, ← h.has_iff] at hrow
  rw [Row.exists_values_named]
  exact hrow.symm

theorem fixed_iff (n : Nat) : (∃ text ∈ (c.row.named "size").values "fixed",
    Numeral 10 (trim text.toList) n) ↔ parts.size = some (.fixed n) :=
  h.said_iff fun hread => Part.size_iff hread n

theorem mask_iff (bytes : List UInt8) : (∃ text ∈ (c.row.named "mask").values "value",
    HexText text bytes) ↔ parts.mask = some bytes :=
  h.said_iff fun hread => Part.mask_iff hread bytes

theorem print_iff {mode : PrintMode} {v : String} (hv : PrintMode.ofName? v = some mode) :
    v ∈ (c.row.named "print").values "mode" ↔ parts.print = some mode := by
  have hsaid : (∃ text ∈ (c.row.named "print").values "mode", text = v) ↔
      parts.Has (.print mode) := by
    apply h.said_iff
    intro e inner p hread
    rw [Part.print_iff hread hv, exists_eq_right]
  rwa [exists_eq_right] at hsaid

theorem pattern_iff (bytes : List UInt8) : (∃ text ∈ (c.row.inside "options").values "value",
    HexText text bytes) ↔ ∃ o ∈ parts.options.getD [], o.pattern = bytes := by
  have hread : ∀ (t : Tag × Content) (e : Element) (p : Part), t.1.enter 4 = .ok e →
      Part.Read e t.2 p →
      ((∃ entries, p = .options entries ∧ ∃ o ∈ entries, o.pattern = bytes) ↔
        t.1.name = "options" ∧
          ∃ u ∈ t.2.row, ∃ text, u.1.get? "value" = some text ∧ HexText text bytes) := by
    intro t e p he hread
    rw [name_of_enter he]
    exact Part.options_iff hread bytes
  have hrow := h.exists_iff hread
  have hparts : (∃ o ∈ parts.options.getD [], o.pattern = bytes) ↔
      ∃ p ∈ xs, ∃ entries, p = .options entries ∧ ∃ o ∈ entries, o.pattern = bytes := by
    constructor
    · intro ho
      cases hopt : parts.options with
      | none => simp [hopt] at ho
      | some entries =>
        rw [hopt] at ho
        exact ⟨.options entries, (h.has_iff (.options entries)).1 hopt, entries, rfl, ho⟩
    · intro hp
      obtain ⟨p, hp, entries, rfl, ho⟩ := hp
      have hopt : parts.options = some entries := (h.has_iff (.options entries)).2 hp
      rw [hopt]
      exact ho
  rw [hparts, hrow]
  simp only [Row.mem_values_inside]
  constructor
  · intro hv
    obtain ⟨text, ⟨t, ht, hn, u, hu, hv⟩, hbytes⟩ := hv
    exact ⟨t, ht, hn, u, hu, text, hv, hbytes⟩
  · intro hv
    obtain ⟨t, ht, hn, u, hu, text, hv, hbytes⟩ := hv
    exact ⟨text, ⟨t, ht, hn, u, hu, hv⟩, hbytes⟩

/-- The rules for the elements of a field are those for its parts. -/
theorem rules_iff : FieldRules c.row ↔ parts.Sound := by
  have hoptions : "options" ∈ (c.row.named "print").values "mode" ↔ parts.print = some .options :=
    h.print_iff rfl
  have hflags : "flags" ∈ (c.row.named "print").values "mode" ↔ parts.print = some .flags :=
    h.print_iff rfl
  constructor
  · intro hr
    constructor
    case sized => exact h.mem_size.1 hr.sized
    case cut =>
      intro hcut
      obtain ⟨text, htext, n, hn, hle, hmask⟩ := hr.cut (hcut.imp h.mem_mask.2 h.mem_shift.2)
      refine ⟨n, (h.fixed_iff n).1 ⟨text, htext, hn⟩, hle, fun bytes hbytes => ?_⟩
      obtain ⟨mask, hm, hhex⟩ := (h.mask_iff bytes).2 hbytes
      exact hmask mask hm bytes hhex
    case options => exact fun hp => h.mem_options.1 (hr.options (hoptions.2 hp))
    case flags => exact fun hp => h.mem_flags.1 (hr.flags (hflags.2 hp))
    case patterns =>
      intro hm hs n hn o ho
      obtain ⟨text, htext, hnum⟩ := (h.fixed_iff n).2 hn
      obtain ⟨pattern, hpattern, hbytes⟩ := (h.pattern_iff o.pattern).2 ⟨o, ho, rfl⟩
      exact hr.patterns (fun hc => h.mem_mask.1 hc hm) (fun hc => h.mem_shift.1 hc hs) text htext
        n hnum pattern hpattern o.pattern hbytes
  · intro hs
    constructor
    case once => exact h.nodup
    case sized => exact h.mem_size.2 hs.sized
    case cut =>
      intro hcut
      obtain ⟨n, hn, hle, hmask⟩ := hs.cut (hcut.imp h.mem_mask.1 h.mem_shift.1)
      obtain ⟨text, htext, hnum⟩ := (h.fixed_iff n).2 hn
      refine ⟨text, htext, n, hnum, hle, fun mask hm bytes hhex => ?_⟩
      exact hmask bytes ((h.mask_iff bytes).1 ⟨mask, hm, hhex⟩)
    case options => exact fun hp => h.mem_options.2 (hs.options (hoptions.1 hp))
    case flags => exact fun hp => h.mem_flags.2 (hs.flags (hflags.1 hp))
    case patterns =>
      intro hm hsh text htext n hnum pattern hpattern bytes hbytes
      obtain ⟨o, ho, rfl⟩ := (h.pattern_iff bytes).1 ⟨pattern, hpattern, hbytes⟩
      have hmask : parts.mask = none := Decidable.not_not.1 fun hc => hm (h.mem_mask.2 hc)
      have hshift : parts.shift = none := Decidable.not_not.1 fun hc => hsh (h.mem_shift.2 hc)
      exact hs.patterns hmask hshift n ((h.fixed_iff n).1 ⟨text, htext, hnum⟩) o ho

end Gathered

/-! Fields as a whole. -/

def FieldDecl.Read (e : Element) (inner : Content) (x : FieldDecl) : Prop :=
  e.name = "field" ∧ e.required "id" = .ok x.field.id ∧
    e.only ["id", "color", "accent", "name", "tag", "tooltip"] = .ok () ∧
    (∃ xs parts, Gathered inner xs parts ∧ parts.field x.field.id e = .ok x.field) ∧
    x.offset = e.offset

theorem gathered_iff {c : Content} {parts : FieldParts} :
    c.fold parent 4 addPart {} = .ok parts ↔ ∃ xs, Gathered c xs parts := by
  rw [parts_eq_ok]
  constructor
  · intro h
    obtain ⟨xs, hxs, hputs⟩ := h
    exact ⟨xs, hxs, hputs⟩
  · intro h
    obtain ⟨xs, hxs, hputs⟩ := h
    exact ⟨xs, hxs, hputs⟩

theorem addField_eq_ok {decls decls' : List FieldDecl} {e : Element} {inner : Content} :
    addField decls e inner = .ok decls' ↔ ∃ x, FieldDecl.Read e inner x ∧
      x.field.id ∉ decls.map (·.field.id) ∧ decls ++ [x] = decls' := by
  simp only [addField, check_eq_ok, bind_eq_ok, pure_eq_ok, mapError_eq_ok, any_key_iff,
    gathered_iff, Decidable.not_not]
  constructor
  · intro h
    obtain ⟨hn, id, hid, hnew, _, honly, parts, ⟨xs, hg⟩, f, hf, rfl⟩ := h
    obtain ⟨rfl, -, -⟩ := FieldParts.field_refs hf
    exact ⟨⟨f, e.offset⟩, ⟨hn, hid, honly, ⟨xs, parts, hg, hf⟩, rfl⟩, hnew, rfl⟩
  · intro h
    obtain ⟨x, ⟨hn, hid, honly, ⟨xs, parts, hg, hf⟩, hoffset⟩, hnew, rfl⟩ := h
    refine ⟨hn, _, hid, hnew, (), honly, parts, ⟨xs, hg⟩, _, hf, ?_⟩
    rw [← hoffset]

theorem field_allowed (e : Element) (inner : Content) :
    (∃ x, FieldDecl.Read e inner x ∧
      ∀ r ∈ x.field.color.toList ++ x.field.accent.toList, declared .color r.id) ↔
      Allowed declared .fields 3 e inner := by
  have hallowed : Allowed declared .fields 3 e inner ↔ e.name = "field" ∧
      e.only ["id", "color", "accent", "name", "tag", "tooltip"] = .ok () ∧
      (∃ id, e.required "id" = .ok id) ∧
      (∀ v, e.get? "color" = some v → declared .color v) ∧
      (∀ v, e.get? "accent" = some v → declared .color v) ∧ FieldRules inner.row ∧
      inner.Conforms declared .field 4 := by
    simp [allowed_iff, Context.elements, and_assoc]
  rw [hallowed]
  constructor
  · intro h
    obtain ⟨x, ⟨hn, hid, honly, ⟨xs, parts, hg, hf⟩, hoffset⟩, hrefs⟩ := h
    obtain ⟨-, hcolor, haccent⟩ := FieldParts.field_refs hf
    rw [hcolor, haccent] at hrefs
    refine ⟨hn, honly, ⟨_, hid⟩, fun v hv => ?_, fun v hv => ?_, ?_, ?_⟩
    · exact hrefs (e.mention v) (by simp [hv])
    · exact hrefs (e.mention v) (by simp [hv])
    · exact hg.rules_iff.2 (FieldParts.exists_field.1 ⟨_, hf⟩)
    · exact (Content.each_iff_of_exists part_allowed).1 ⟨xs, hg.each⟩
  · intro h
    obtain ⟨hn, honly, ⟨id, hid⟩, hcolor, haccent, hrules, hinner⟩ := h
    obtain ⟨xs, hxs⟩ := (Content.each_iff_of_exists part_allowed).2 hinner
    have hnames : inner.row.names = xs.map Part.name := by
      apply hxs.names
      intro _ _ _
      exact Part.name_of_read
    have hputs :
        Content.Puts FieldParts.Lacks FieldParts.put {} xs (xs.foldl FieldParts.put {}) := by
      refine FieldParts.puts_iff.2 ⟨hnames ▸ hrules.once, fun part _ => ?_, rfl⟩
      cases part <;> rfl
    have hg : Gathered inner xs (xs.foldl FieldParts.put {}) := ⟨hxs, hputs⟩
    have hfield : ∃ f, (xs.foldl FieldParts.put {}).field id e = .ok f :=
      FieldParts.exists_field.2 (hg.rules_iff.1 hrules)
    obtain ⟨f, hf⟩ := hfield
    obtain ⟨rfl, hc, ha⟩ := FieldParts.field_refs hf
    refine ⟨⟨f, e.offset⟩, ⟨hn, hid, honly, ⟨xs, _, hg, hf⟩, rfl⟩, ?_⟩
    intro r hr
    rw [hc, ha, List.mem_append, Option.mem_toList, Option.mem_toList, Option.map_eq_some_iff,
      Option.map_eq_some_iff] at hr
    obtain ⟨v, hv, rfl⟩ | ⟨v, hv, rfl⟩ := hr
    · exact hcolor v hv
    · exact haccent v hv

theorem fields_eq_ok {c : Content} {decls : List FieldDecl} :
    c.fold parent depth addField [] = .ok decls ↔
      c.Each depth FieldDecl.Read decls ∧ (decls.map (·.field.id)).Nodup := by
  apply Content.fold_distinct_eq_ok
  intro _ _ _ _
  exact addField_eq_ok

end Dissect.Document
