import Dissect.Proofs.Encodings
import Dissect.Survey.OsText
import Mathlib.Tactic.Basic

/-! Characters of one octet. Wherever such a character is read the octet stands, whether the rest is
well formed or not, since all other octets of UTF-8 lie above; and a text has the character exactly
if its octets have the octet. -/
namespace Dissect

namespace Text.Utf8

def octetOf (c : Char) : UInt8 := UInt8.ofNat c.toNat

/-- A character that takes only one octet. No octet that cannot be read is taken for it. -/
structure IsSingle (c : Char) : Prop where
  ne_nul : c ≠ '\x00'
  low : c.toNat < 128

instance (c : Char) : Decidable (IsSingle c) :=
  decidable_of_iff (c ≠ '\x00' ∧ c.toNat < 128) ⟨fun ⟨h, h'⟩ => ⟨h, h'⟩, fun ⟨h, h'⟩ => ⟨h, h'⟩⟩

theorem IsSingle.toNat_octetOf {c : Char} (hc : IsSingle c) : (octetOf c).toNat = c.toNat :=
  toNat_octet (Nat.lt_trans hc.low (by decide))

theorem IsSingle.eq_octetOf {c : Char} (hc : IsSingle c) {o : UInt8}
    (h : Char.ofNat o.toNat = c) : o = octetOf c := by
  rw [← UInt8.toNat_inj, hc.toNat_octetOf]
  exact eq_toNat_of_ofNat h hc.ne_nul

/-- A character begun that will be above all those of one octet. -/
def Begun.High (b : Begun) : Prop :=
  2 ≤ b.bits ∨ 2 ≤ b.owed ∧ (1 ≤ b.bits ∨ 0x90 ≤ b.low ∧ b.high ≤ 0xBF)

theorem lead_begun_high {o : UInt8} {b : Begun} (h : lead o = .begun b) : b.High := by
  rw [lead] at h
  repeat' split at h
  all_goals simp only [reduceCtorEq, Lead.begun.injEq] at h
  all_goals subst h
  all_goals simp only [Begun.High]
  all_goals omega

theorem Begun.High.extend {b : Begun} (h : b.High) {o : UInt8} (hlow : b.low ≤ o.toNat)
    (hhigh : o.toNat ≤ b.high) : 2 ≤ b.extend o ∧ (b.owed ≤ 1 → 128 ≤ b.extend o) := by
  rw [Begun.extend]
  rcases h with h | ⟨howed, h | ⟨hl, hh⟩⟩ <;> omega

section Reading
variable {c : Char} {o : UInt8} {rest octets : List UInt8} {b : Begun}

/-- A character comes out of what is left, with nothing begun but high characters. -/
def Pending (c : Char) (rest : List UInt8) : Prop :=
  ∃ begun : Option Begun, (∀ b ∈ begun, b.High) ∧ some c ∈ decodeFrom begun rest

theorem pending_none (h : some c ∈ decodeFrom none rest) : Pending c rest := by
  refine ⟨none, fun b hb => ?_, h⟩
  cases hb

theorem pending_some (hb : b.High) (h : some c ∈ decodeFrom (some b) rest) : Pending c rest := by
  refine ⟨some b, fun b' hb' => ?_, h⟩
  cases hb'
  exact hb

variable (hc : IsSingle c)
include hc

theorem lead_whole (h : lead o = .whole c) : o = octetOf c := by
  rw [lead] at h
  split at h
  · exact hc.eq_octetOf (Lead.whole.inj h)
  · repeat' split at h
    all_goals cases h

theorem pending_of_lead (h : some c ∈ decodeFrom none (o :: rest)) :
    o = octetOf c ∨ Pending c rest := by
  rw [decodeFrom] at h
  cases hl : lead o with
  | whole c' =>
    rw [hl] at h
    rcases List.mem_cons.1 h with hwhole | hrest
    · cases hwhole
      exact .inl (lead_whole hc hl)
    · exact .inr (pending_none hrest)
  | begun b =>
    rw [hl] at h
    exact .inr (pending_some (lead_begun_high hl) h)
  | refused =>
    rw [hl] at h
    exact .inr (pending_none ((List.mem_cons.1 h).resolve_left (Option.some_ne_none _)))

theorem pending_of_begun (hb : b.High) (h : some c ∈ decodeFrom (some b) (o :: rest)) :
    o = octetOf c ∨ Pending c rest := by
  rw [decodeFrom] at h
  split at h
  next hin =>
    obtain ⟨htwo, hlast⟩ := hb.extend hin.1 hin.2
    split at h
    next howed =>
      rcases List.mem_cons.1 h with hwhole | hrest
      · have hvalue := eq_toNat_of_ofNat (Option.some.inj hwhole).symm hc.ne_nul
        have habove := hlast howed
        have hlow := hc.low
        omega
      · exact .inr (pending_none hrest)
    next => exact .inr (pending_some (.inl htwo) h)
  next =>
    -- The octet does not continue the character and is read as if none had been begun.
    have hmem := (List.mem_cons.1 h).resolve_left (Option.some_ne_none _)
    exact pending_of_lead hc (by rw [decodeFrom]; exact hmem)

theorem mem_of_pending (h : Pending c octets) : octetOf c ∈ octets := by
  induction octets with
  | nil =>
    obtain ⟨begun, -, hmem⟩ := h
    cases begun <;> simp [decodeFrom] at hmem
  | cons o rest ih =>
    obtain ⟨begun, hbegun, hmem⟩ := h
    have hstep : o = octetOf c ∨ Pending c rest := by
      cases begun with
      | none => exact pending_of_lead hc hmem
      | some b => exact pending_of_begun hc (hbegun b rfl) hmem
    rcases hstep with rfl | hrest
    · exact List.mem_cons_self
    · exact List.mem_cons_of_mem o (ih hrest)

theorem mem_of_mem_decodeFrom (h : some c ∈ decodeFrom none octets) : octetOf c ∈ octets :=
  mem_of_pending hc (pending_none h)

end Reading

theorem IsSingle.ne_replacement {c : Char} (hc : IsSingle c) : c ≠ replacement := by
  rintro rfl
  exact absurd hc.low (by decide)

theorem IsSingle.mem_of_mem_decodeLossy {c : Char} (hc : IsSingle c) {octets : List UInt8}
    (h : c ∈ decodeLossy octets) : octetOf c ∈ octets := by
  obtain ⟨read, hread, heq⟩ := List.mem_map.1 h
  cases read with
  | none => exact absurd heq.symm hc.ne_replacement
  | some c' =>
    cases heq
    exact mem_of_mem_decodeFrom hc hread

theorem decodeLossy_of_decode? {octets : List UInt8} {cs : List Char}
    (h : decode? octets = some cs) : decodeLossy octets = cs := by
  rw [decode?] at h
  rw [decodeLossy]
  generalize decodeFrom none octets = read at h
  induction read generalizing cs with
  | nil =>
    cases h
    rfl
  | cons c read ih =>
    simp only [List.mapM_cons, id, bind, Option.bind_eq_some_iff, pure, Option.some.injEq] at h
    obtain ⟨c', rfl, cs', hcs, rfl⟩ := h
    rw [List.map_cons, ih hcs, Option.getD_some]

theorem IsSingle.encodeChar {c : Char} (hc : IsSingle c) :
    String.utf8EncodeChar c = [octetOf c] := by
  have hlow : c.val.toNat ≤ 127 := Nat.le_of_lt_succ hc.low
  rw [String.utf8EncodeChar]
  simp only [if_pos hlow]
  rfl

theorem le_of_mem_encodeChar {c : Char} (hc : 127 < c.val.toNat) {o : UInt8}
    (ho : o ∈ String.utf8EncodeChar c) : 128 ≤ o.toNat := by
  have habove {n : Nat} (hn : 128 ≤ n) (hoctet : n < 256) (h : o = UInt8.ofNat n) :
      128 ≤ o.toNat := by
    rw [h, toNat_octet hoctet]
    exact hn
  rw [String.utf8EncodeChar] at ho
  simp only [if_neg (Nat.not_le_of_lt hc)] at ho
  generalize c.val.toNat = n at ho
  split at ho
  · simp only [List.mem_cons, List.not_mem_nil, or_false] at ho
    rcases ho with h | h <;> exact habove (by omega) (by omega) h
  · split at ho
    · simp only [List.mem_cons, List.not_mem_nil, or_false] at ho
      rcases ho with h | h | h <;> exact habove (by omega) (by omega) h
    · simp only [List.mem_cons, List.not_mem_nil, or_false] at ho
      rcases ho with h | h | h | h <;> exact habove (by omega) (by omega) h

theorem IsSingle.mem_encodeChar {c c' : Char} (hc : IsSingle c) :
    octetOf c ∈ String.utf8EncodeChar c' ↔ c' = c := by
  constructor
  · intro h
    by_cases hone : c'.val.toNat ≤ 127
    · rw [String.utf8EncodeChar] at h
      simp only [if_pos hone, List.mem_singleton] at h
      have hvalue := congrArg UInt8.toNat h
      rw [hc.toNat_octetOf, toNat_octet (by omega)] at hvalue
      exact (Char.toNat_inj.1 hvalue).symm
    · have habove := le_of_mem_encodeChar (Nat.lt_of_not_le hone) h
      rw [hc.toNat_octetOf] at habove
      exact absurd hc.low (Nat.not_lt.2 habove)
  · rintro rfl
    exact hc.encodeChar ▸ List.mem_singleton_self _

end Text.Utf8

namespace Survey.OsText
open Text.Utf8
variable {a b name : OsText} {c : Char}

theorem octets_append (a b : OsText) : (a ++ b).octets = a.octets ++ b.octets := rfl

theorem ext_octets (h : a.octets = b.octets) : a = b := by
  cases a
  cases b
  exact congrArg _ h

theorem octets_ofString (s : String) :
    (ofString s).octets = s.toList.flatMap String.utf8EncodeChar := by
  rw [ofString, String.toUTF8, ← String.utf8Encode_toList, List.utf8Encode,
    List.data_toByteArray]

theorem ofString_inj {s t : String} (h : ofString s = ofString t) : s = t := by
  have hoctets := congrArg (fun name => decodeLossy name.octets) h
  simp only [octets_ofString, decodeLossy_encode] at hoctets
  exact String.toList_inj.1 hoctets

theorem mem_octets_ofString (hc : IsSingle c) {s : String} :
    octetOf c ∈ (ofString s).octets ↔ c ∈ s.toList := by
  rw [octets_ofString]
  constructor
  · intro h
    obtain ⟨c', hc', hmem⟩ := List.mem_flatMap.1 h
    exact hc.mem_encodeChar.1 hmem ▸ hc'
  · intro h
    exact List.mem_flatMap.2 ⟨c, h, hc.mem_encodeChar.2 rfl⟩

theorem not_mem_of_text? (hc : IsSingle c) {text : String} (htext : name.text? = some text)
    (h : octetOf c ∉ name.octets) : c ∉ text.toList := by
  obtain ⟨cs, hcs, rfl⟩ := Option.map_eq_some_iff.1 htext
  rw [String.toList_ofList, ← decodeLossy_of_decode? hcs]
  exact mt hc.mem_of_mem_decodeLossy h

/-! ### Order -/

instance : Std.Irrefl (α := OsText) (· < ·) := ⟨fun name => List.lt_irrefl name.octets⟩

theorem le_trans {c : OsText} : a ≤ b → b ≤ c → a ≤ c := List.le_trans

theorem le_total (a b : OsText) : a ≤ b ∨ b ≤ a := List.le_total a.octets b.octets

theorem lt_of_le_of_ne (h : a ≤ b) (hne : a ≠ b) : a < b :=
  Std.lt_of_le_of_ne (α := List UInt8) h (mt ext_octets hne)

end Survey.OsText

end Dissect
