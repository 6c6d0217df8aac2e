import Dissect.Proofs.HexTexts
import Dissect.Proofs.Lines
import Dissect.Proofs.Octets

/-! Where line breaks in readings of fields come from. Numerals and bytes have none, names have the
breaks that the definition gives them, and text that is read from a buffer has one only if it is not
ASCII and the buffer has the byte of a line feed. -/
namespace Dissect

open Text

def lineFeed : UInt8 := 0x0A

/-! ### Decoded text -/

theorem ofNat_eq_break {n : Nat} (h : Char.ofNat n = '\n') : n = 10 :=
  eq_toNat_of_ofNat h (by decide)

theorem eq_lineFeed {b : UInt8} (h : Char.ofNat b.toNat = '\n') : b = lineFeed :=
  UInt8.toNat_inj.1 (ofNat_eq_break h)

theorem mem_of_mem_dropNuls {b : UInt8} {bytes : List UInt8} (h : b ∈ dropNuls bytes) :
    b ∈ bytes :=
  List.mem_reverse.1 ((List.dropWhile_suffix _).subset (List.mem_reverse.1 h))

namespace Text.Utf8

theorem mem_decodeLossy {octets : List UInt8} (h : '\n' ∈ decodeLossy octets) :
    lineFeed ∈ octets :=
  IsSingle.mem_of_mem_decodeLossy (by decide) h

end Text.Utf8

namespace Text.Utf16

theorem mem_units {little : Bool} {octets : List UInt8} (h : 10 ∈ units little octets) :
    lineFeed ∈ octets := by
  induction octets using units.induct with
  | case1 a b rest ih =>
    rw [units] at h
    rcases List.mem_cons.1 h with hunit | hmem
    · have hmark : lineFeed.toNat = 10 := rfl
      have hab : a.toNat = 10 ∨ b.toNat = 10 := by
        cases little <;> simp at hunit <;> omega
      rcases hab with ha | hb
      · rw [UInt8.toNat_inj.1 (ha.trans hmark.symm)]
        exact List.mem_cons_self
      · rw [UInt8.toNat_inj.1 (hb.trans hmark.symm)]
        exact List.mem_cons_of_mem a List.mem_cons_self
    · exact List.mem_cons_of_mem a (List.mem_cons_of_mem b (ih hmem))
  | case2 octets hshort =>
    rcases octets with _ | ⟨a, _ | ⟨b, rest⟩⟩
    · simp [units] at h
    · simp [units] at h
    · exact absurd rfl (hshort a b rest)

theorem join_ne_break (high low : Nat) : join high low ≠ '\n' := fun h => by
  have hvalue := ofNat_eq_break h
  omega

theorem mem_decodeLossy {us : List Nat} (h : '\n' ∈ decodeLossy us) : 10 ∈ us := by
  have hreplaced : '\n' ≠ Utf8.replacement := by decide
  induction us using decodeLossy.induct with
  | case1 => cases h
  | case2 u =>
    rw [decodeLossy] at h
    split at h
    · exact absurd (List.mem_singleton.1 h) hreplaced
    · exact List.mem_singleton.2 (ofNat_eq_break (List.mem_singleton.1 h).symm).symm
  | case3 u v rest hpair ih =>
    rw [decodeLossy, if_pos hpair] at h
    have hmem := (List.mem_cons.1 h).resolve_left (join_ne_break u v).symm
    exact List.mem_cons_of_mem u (List.mem_cons_of_mem v (ih hmem))
  | case4 u v rest hpair hhalf ih =>
    rw [decodeLossy, if_neg hpair, if_pos hhalf] at h
    exact List.mem_cons_of_mem u (ih ((List.mem_cons.1 h).resolve_left hreplaced))
  | case5 u v rest hpair hhalf ih =>
    rw [decodeLossy, if_neg hpair, if_neg hhalf] at h
    rcases List.mem_cons.1 h with hu | hmem
    · rw [ofNat_eq_break hu.symm]
      exact List.mem_cons_self
    · exact List.mem_cons_of_mem u (ih hmem)

end Text.Utf16

/-- A text that is read from bytes has a line break only if it is not ASCII and one of the bytes is
that of a line feed. -/
theorem Encoding.mem_decode {encoding : Encoding} {bytes : List UInt8}
    (h : '\n' ∈ encoding.decode bytes) : encoding ≠ .ascii ∧ lineFeed ∈ bytes := by
  have hwide {little : Bool} {cs : List Char}
      (hcs : cs = Utf16.decodeLossy (Utf16.units little bytes))
      (hmem : '\n' ∈ dropEndWhile (· == '\x00') cs) : lineFeed ∈ bytes := by
    subst hcs
    have hkept := (List.dropWhile_suffix _).subset (List.mem_reverse.1 hmem)
    exact Utf16.mem_units (Utf16.mem_decodeLossy (List.mem_reverse.1 hkept))
  cases encoding with
  | ascii =>
    obtain ⟨b, -, hb⟩ := List.mem_map.1 h
    split at hb
    next hprintable =>
      have hvalue := ofNat_eq_break hb
      omega
    next => cases hb
  | utf8 => exact ⟨by decide, mem_of_mem_dropNuls (Utf8.mem_decodeLossy h)⟩
  | latin1 =>
    obtain ⟨b, hmem, hb⟩ := List.mem_map.1 h
    exact ⟨by decide, eq_lineFeed hb ▸ mem_of_mem_dropNuls hmem⟩
  | utf16le => exact ⟨by decide, hwide rfl h⟩
  | utf16be => exact ⟨by decide, hwide rfl h⟩

/-! ### Numbers and bytes -/

def AllPlain (ts : List String) : Prop := ∀ t ∈ ts, Plain t

instance (ts : List String) : Decidable (AllPlain ts) :=
  inferInstanceAs (Decidable (∀ t ∈ ts, Plain t))

theorem allPlain_nil : AllPlain [] := List.forall_mem_nil _

theorem allPlain_singleton {t : String} : AllPlain [t] ↔ Plain t := List.forall_mem_singleton

theorem allPlain_cons {t : String} {ts : List String} :
    AllPlain (t :: ts) ↔ Plain t ∧ AllPlain ts :=
  List.forall_mem_cons

theorem allPlain_append {ts ts' : List String} :
    AllPlain (ts ++ ts') ↔ AllPlain ts ∧ AllPlain ts' :=
  List.forall_mem_append

theorem allPlain_flatMap {α : Type} {f : α → List String} {items : List α} :
    AllPlain (items.flatMap f) ↔ ∀ item ∈ items, AllPlain (f item) :=
  List.forall_mem_flatMap

theorem plain_of_denotes {radix : Nat} {s : String} {z : Int} (h : Denotes radix s.toList z) :
    Plain s := by
  refine List.count_eq_zero.2 fun hbreak => ?_
  generalize s.toList = cs at h hbreak
  cases h with
  | natural hcs => exact no_break_of_digits hcs hbreak
  | negative hn hcs =>
    exact no_break_of_digits hcs ((List.mem_cons.1 hbreak).resolve_left (by decide))

theorem plain_hexUpper (n : Nat) : Plain (hexUpper n) := plain_of_denotes (denotes_hexUpper n)

theorem plain_integer (z : Int) : Plain (toString z) := plain_of_denotes (denotes_toString z)

theorem plain_natural (n : Nat) : Plain (toString n) := plain_of_digits (digits_toString n)

theorem plain_ratio (r : Ratio) : Plain r.text := by
  rw [Ratio.text]
  split
  · exact plain_integer r.num
  · exact plain_append.2 ⟨plain_append.2 ⟨plain_integer r.num, rfl⟩, plain_natural r.den⟩

theorem plain_hex (bytes : List UInt8) : Plain (Hex.text bytes) := by
  have hbreak : ¬IsHexDigit '\n' := by decide
  refine plain_ofList.2 fun hmem => ?_
  exact hbreak ((Document.pairs_encode bytes).isHexDigit _ hmem)

theorem plain_intercalate {sep : String} (hsep : Plain sep) {ts : List String}
    (h : AllPlain ts) : Plain (sep.intercalate ts) := by
  induction ts with
  | nil => rfl
  | cons t ts ih =>
    obtain ⟨ht, hts⟩ := allPlain_cons.1 h
    cases ts with
    | nil => rwa [String.intercalate_singleton]
    | cons u ts =>
      rw [String.intercalate_cons_cons]
      exact plain_append.2 ⟨plain_append.2 ⟨ht, hsep⟩, ih hts⟩

/-! ### Readings -/

def FieldDef.texts (f : FieldDef Nat) : List String :=
  f.name :: (f.tag.toList ++ f.tooltip.toList ++ f.options.map (·.name) ++
    f.flags.flatMap fun flag => [flag.name, flag.meaning])

theorem FieldDef.plain_texts {f : FieldDef Nat} : AllPlain f.texts ↔
    Plain f.name ∧ AllPlain f.tag.toList ∧ AllPlain f.tooltip.toList ∧
      AllPlain (f.options.map (·.name)) ∧ ∀ flag ∈ f.flags, AllPlain [flag.name, flag.meaning] := by
  rw [FieldDef.texts, allPlain_cons, allPlain_append, allPlain_append, allPlain_append,
    allPlain_flatMap, and_assoc, and_assoc]

/-- No byte can get a line break into the text of a field. -/
def FieldDef.Legible (f : FieldDef Nat) (bytes : List UInt8) : Prop :=
  f.print = .text → f.encoding = .ascii ∨ lineFeed ∉ bytes

def Reading.texts (r : Reading) : List String := r.value :: r.extra.flatMap Line.texts

theorem FieldDef.plain_read {f : FieldDef Nat} (order : ByteOrder) {bytes : List UInt8}
    (hf : AllPlain f.texts) (hlegible : f.Legible bytes) :
    AllPlain (f.read order bytes).texts := by
  obtain ⟨-, -, -, hoptions, hflags⟩ := FieldDef.plain_texts.1 hf
  have hsingle {value : String} (h : Plain value) : AllPlain (Reading.texts { value := value }) :=
    allPlain_singleton.2 h
  rw [FieldDef.read]
  cases hprint : f.print with
  | raw => exact hsingle (by split; exacts [plain_hexUpper _, plain_hex _])
  | hex => exact hsingle (by split; exacts [plain_hexUpper _, plain_hex _])
  | unsigned => exact hsingle (by split; exacts [plain_natural _, plain_hex _])
  | signed =>
    refine hsingle ?_
    split
    · exact plain_natural _
    · split
      · exact plain_integer _
      · exact plain_hex _
  | text =>
    refine hsingle (plain_ofList.2 fun hbreak => ?_)
    obtain ⟨hencoding, hbyte⟩ := Encoding.mem_decode hbreak
    exact (hlegible hprint).elim hencoding fun hnone => hnone hbyte
  | options =>
    dsimp only
    cases hoption : f.option? order bytes with
    | none => exact hsingle rfl
    | some o =>
      exact hsingle (hoptions _ (List.mem_map_of_mem (List.mem_of_find?_eq_some hoption)))
  | flags =>
    have hflag {flag : FlagEntry} (hmem : flag ∈ f.flagsIn (f.word order bytes)) :
        AllPlain [flag.name, flag.meaning] :=
      hflags flag (List.mem_of_mem_filter hmem)
    have hcomma : Plain ", " := rfl
    refine allPlain_cons.2
      ⟨plain_intercalate hcomma fun t ht => ?_, allPlain_flatMap.2 fun l hl => ?_⟩
    · obtain ⟨flag, hmem, rfl⟩ := List.mem_map.1 ht
      exact hflag hmem _ List.mem_cons_self
    · obtain ⟨flag, hmem, rfl⟩ := List.mem_map.1 hl
      exact hflag hmem

end Dissect
