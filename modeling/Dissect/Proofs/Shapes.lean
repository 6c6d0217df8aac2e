import Dissect.Proofs.Written
import Mathlib.Algebra.Ring.Nat

/-! What the elements inside a field write of its shape. Every element says one part of it, and the
parts that are not said have their defaults. -/
namespace Dissect.Document
open Text

def WordText (text : String) (word : UInt64) : Prop :=
  ∃ bytes, HexText text bytes ∧ bytes.length ≤ 8 ∧ word.toNat = Bytes.number bytes

namespace Tag
variable (t : Tag)

def WritesSize : SizeRule → Prop
  | .fixed n => t.Says "fixed" NumberText (some n)
  | .remaining => t.get? "fixed" = none ∧ t.get? "remaining" = some "true"
  | .terminated byte => t.get? "fixed" = none ∧ t.get? "remaining" ≠ some "true" ∧
      t.Says "terminator" HexText (some [byte])

def WritesOption (entry : OptionEntry) : Prop :=
  t.name = "option" ∧ t.get? "name" = some entry.name ∧ t.Says "value" HexText (some entry.pattern)

def WritesFlag (entry : FlagEntry) : Prop :=
  t.name = "flag" ∧ t.get? "name" = some entry.name ∧ t.Says "mask" WordText (some entry.mask) ∧
    (t.get? "meaning").getD "" = entry.meaning

def WritesPart (inner : Content) : Part → Prop
  | .size rule => t.name = "size" ∧ t.WritesSize rule
  | .mask bytes => t.name = "mask" ∧ t.Says "value" HexText (some bytes)
  | .shift bits => t.name = "shift" ∧ t.Says "bits" NumberText (some bits)
  | .encoding form => t.name = "encoding" ∧
      t.Says "value" (Encoding.ofName? · = some ·) (some form)
  | .print mode => t.name = "print" ∧ t.Says "mode" (PrintMode.ofName? · = some ·) (some mode)
  | .options entries => t.name = "options" ∧
      List.Forall₂ (fun u entry => u.1.WritesOption entry) inner.row entries
  | .flags entries => t.name = "flags" ∧
      List.Forall₂ (fun u entry => u.1.WritesFlag entry) inner.row entries

end Tag

structure Content.WritesParts (c : Content) (parts : FieldParts) : Prop where
  once : c.row.names.Nodup
  said : ∀ t ∈ c.row, ∃ p, parts.Has p ∧ t.1.WritesPart t.2 p
  written : ∀ p, parts.Has p → ∃ t ∈ c.row, t.1.WritesPart t.2 p

/-- A field is whole without a mask and a shift. A shift alone keeps all bits of the field. -/
def FieldParts.Cuts (parts : FieldParts) : SizeRule → Option BitField → Prop
  | _, none => parts.mask = none ∧ parts.shift = none
  | .fixed n, some b => (parts.mask ≠ none ∨ parts.shift ≠ none) ∧ n ≤ 8 ∧
      b.shift = parts.shift.getD 0 ∧ b.mask.toNat = parts.mask.elim (2 ^ (8 * n) - 1) Bytes.number
  | _, some _ => False

/-- A field with an encoding is shown as text where nothing else is said. -/
structure FieldParts.Shapes {ρ : Type} (parts : FieldParts) (f : FieldDef ρ) : Prop where
  size : parts.size = some f.size
  bits : parts.Cuts f.size f.bits
  encoding : f.encoding = parts.encoding.getD .ascii
  print : f.print = parts.print.getD (if parts.encoding.isSome then .text else .raw)
  options : f.options = parts.options.getD []
  flags : f.flags = parts.flags.getD []

def Content.WritesShape {ρ : Type} (c : Content) (f : FieldDef ρ) : Prop :=
  ∃ parts, c.WritesParts parts ∧ parts.Shapes f

/-! ## Words of a few bytes -/

theorem toNat_of_word? {bytes : List UInt8} {word : UInt64} (h : Bytes.word? bytes = some word) :
    bytes.length ≤ 8 ∧ word.toNat = Bytes.number bytes := by
  obtain ⟨hlen, hword⟩ := Option.ite_none_right_eq_some.1 h
  refine ⟨hlen, ?_⟩
  rw [← Option.some.inj hword, UInt64.toNat_ofNat', Nat.mod_eq_of_lt (number_lt_size hlen)]

theorem toNat_fullMask {n : Nat} (h : n ≤ 8) : (fullMask n).toNat = 2 ^ (8 * n) - 1 := by
  have hle : 2 ^ (8 * n) ≤ 2 ^ 64 := Nat.pow_le_pow_right (by decide) (by omega)
  have hpos : 0 < 2 ^ (8 * n) := Nat.two_pow_pos _
  rw [fullMask, UInt64.toNat_ofNat', Nat.shiftLeft_eq, Nat.one_mul, Nat.mod_eq_of_lt (by omega)]

/-! ## Readers find what is written -/

section Reading
variable {tag : Tag} {depth : Nat} {e : Element} (he : tag.enter depth = .ok e) {inner : Content}
include he

theorem writes_size {rule : SizeRule} (h : e.size = .ok rule) : tag.WritesSize rule := by
  have hrule := size_eq_ok.1 h
  cases rule with
  | fixed n => exact says_of_natural? he hrule.2.1
  | remaining =>
    obtain ⟨hfixed, hremaining, -⟩ := hrule
    exact ⟨says_of_natural? he hfixed, (sets_of_flag he hremaining).1 rfl⟩
  | terminated byte =>
    obtain ⟨hfixed, hremaining, hterminator⟩ := hrule
    refine ⟨says_of_natural? he hfixed, fun hv => ?_, says_of_hex he ?_⟩
    · exact Bool.noConfusion ((sets_of_flag he hremaining).2 hv)
    · exact Element.hex_eq_ok.2 (Element.hex?_eq_ok.1 hterminator)

theorem writes_option {entry : OptionEntry} (h : OptionEntry.Read e inner entry) :
    tag.WritesOption entry := by
  obtain ⟨hn, hname, hpattern, -⟩ := h
  exact ⟨(name_of_enter he).trans hn, get?_of_required he hname, says_of_hex he hpattern⟩

theorem writes_flag {entry : FlagEntry} (h : FlagEntry.Read e inner entry) :
    tag.WritesFlag entry := by
  obtain ⟨hn, hname, ⟨bytes, hbytes, hword⟩, -, -, -, hmeaning⟩ := h
  obtain ⟨text, htext, hhex⟩ := says_of_hex he hbytes
  refine ⟨(name_of_enter he).trans hn, get?_of_required he hname,
    ⟨text, htext, bytes, hhex, toNat_of_word? hword⟩, ?_⟩
  rw [get?_of_enter he, hmeaning]

theorem writes_part {p : Part} (h : p.Read e inner) : tag.WritesPart inner p := by
  have hname := name_of_enter he
  cases p with
  | size rule => exact ⟨hname.trans h.1, writes_size he h.2.1⟩
  | mask bytes => exact ⟨hname.trans h.1, says_of_hex he (mask_eq_ok.1 h.2.1).1⟩
  | shift bits => exact ⟨hname.trans h.1, says_of_natural? he (shift_eq_ok.1 h.2.1)⟩
  | encoding form =>
    obtain ⟨v, hv, hform⟩ := encoding_eq_ok.1 h.2.1
    exact ⟨hname.trans h.1, v, (get?_of_enter he _).trans hv, hform⟩
  | print mode =>
    obtain ⟨v, hv, hmode⟩ := printMode_eq_ok.1 h.2.1
    exact ⟨hname.trans h.1, v, (get?_of_enter he _).trans hv, hmode⟩
  | options entries =>
    refine ⟨hname.trans h.1, h.2.2.1.forall₂.imp ?_⟩
    rintro u entry ⟨e', he', hread⟩
    exact writes_option he' hread
  | flags entries =>
    refine ⟨hname.trans h.1, h.2.2.1.forall₂.imp ?_⟩
    rintro u entry ⟨e', he', hread⟩
    exact writes_flag he' hread

end Reading

theorem Gathered.writes {c : Content} {xs : List Part} {parts : FieldParts}
    (h : Gathered c xs parts) : c.WritesParts parts := by
  constructor
  case once => exact h.nodup
  case said =>
    intro t ht
    obtain ⟨p, hp, e, he, hread⟩ := h.each.exists_of_mem_row ht
    exact ⟨p, (h.has_iff p).2 hp, writes_part he hread⟩
  case written =>
    intro p hp
    obtain ⟨t, ht, e, he, hread⟩ := h.each.exists_of_mem ((h.has_iff p).1 hp)
    exact ⟨t, ht, writes_part he hread⟩

namespace FieldParts
variable {parts : FieldParts}

theorem cuts_of_bits {size : SizeRule} {b : Option BitField} (h : parts.bits size = .ok b) :
    parts.Cuts size b := by
  have hnone := bits_eq_ok h
  cases b with
  | none => cases size <;> exact hnone.1 rfl
  | some b =>
    have hcut : parts.mask ≠ none ∨ parts.shift ≠ none := by
      rw [← Decidable.not_and_iff_or_not]
      exact fun hboth => Option.some_ne_none _ (hnone.2 hboth)
    obtain ⟨n, rfl, hn, hlen⟩ := (exists_bits size).1 ⟨_, h⟩ hcut
    refine ⟨hcut, hn, ?_⟩
    have hopen : (parts.mask.isNone && parts.shift.isNone) = false := by
      cases hm : parts.mask <;> cases hs : parts.shift <;> simp [hm, hs] at hcut ⊢
    rw [bits, if_neg (Bool.eq_false_iff.1 hopen)] at h
    cases hm : parts.mask with
    | none =>
      simp only [hm, Nat.not_lt.2 hn, if_false] at h
      cases h
      exact ⟨rfl, toNat_fullMask hn⟩
    | some bytes =>
      have hle := hlen bytes hm
      have hword : Bytes.word? bytes = some (UInt64.ofNat (Bytes.number bytes)) :=
        if_pos (hle.trans hn)
      simp only [hm, Nat.not_lt.2 hn, Nat.not_lt.2 hle, if_false, hword] at h
      cases h
      exact ⟨rfl, (toNat_of_word? hword).2⟩

theorem shapes_of_field {id : String} {e : Element} {f : FieldDef Reference}
    (h : parts.field id e = .ok f) : parts.Shapes f := by
  obtain ⟨size, bits, hsize, hbits, -, -, -, rfl⟩ := field_eq_ok.1 h
  exact ⟨hsize, cuts_of_bits hbits, rfl, rfl, rfl, rfl⟩

end FieldParts

theorem writes_shape {e : Element} {inner : Content} {x : FieldDecl} (h : x.Read e inner) :
    inner.WritesShape x.field := by
  obtain ⟨-, -, -, ⟨xs, parts, hparts, hfield⟩, -⟩ := h
  exact ⟨parts, hparts.writes, FieldParts.shapes_of_field hfield⟩

theorem Content.WritesShape.map {ρ σ : Type} {c : Content} {f : FieldDef ρ} (h : c.WritesShape f)
    (color : ρ → σ) : c.WritesShape (f.map color) := by
  obtain ⟨parts, hparts, hsize, hbits, hencoding, hprint, hoptions, hflags⟩ := h
  exact ⟨parts, hparts, hsize, hbits, hencoding, hprint, hoptions, hflags⟩

end Dissect.Document
