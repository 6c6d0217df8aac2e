import Dissect.Proofs.Quantities
import Mathlib.Algebra.Group.Nat.Even
import Mathlib.Data.List.DropRight

/-! Bytes as pairs of hexadecimal digits. What is printed is read back, and what can be read is what
is printed but for the case of the digits and the blanks around them. The number of a byte string is
the number that its digits spell. -/
namespace Dissect
open Text

/-! ### Blanks around a text -/

/-- A text is `core` with blanks around it, and no end of `core` is blank. -/
structure Trimmed (text core : List Char) : Prop where
  around : ∃ before after, text = before ++ (core ++ after) ∧
    (∀ c ∈ before, isBlank c = true) ∧ ∀ c ∈ after, isBlank c = true
  head : ∀ c ∈ core.head?, isBlank c = false
  last : ∀ c ∈ core.getLast?, isBlank c = false

theorem dropEndWhile_eq_rdropWhile (p : Char → Bool) (cs : List Char) :
    dropEndWhile p cs = cs.rdropWhile p := rfl

theorem trimmed_trim (text : List Char) : Trimmed text (trim text) := by
  rw [trim, dropEndWhile_eq_rdropWhile]
  constructor
  case around =>
    refine ⟨text.takeWhile isBlank, (text.dropWhile isBlank).rtakeWhile isBlank, ?_, ?_, ?_⟩
    · rw [List.rdropWhile_append_rtakeWhile, List.takeWhile_append_dropWhile]
    · exact fun c hc => List.mem_takeWhile_imp hc
    · exact fun c hc => List.mem_rtakeWhile_imp hc
  case head =>
    intro c hc
    obtain ⟨rest, hrest⟩ := List.rdropWhile_prefix isBlank (l := text.dropWhile isBlank)
    have hfirst : (text.dropWhile isBlank).head? = some c := by
      rw [← hrest, List.head?_append, hc]
      rfl
    have hnot := List.head?_dropWhile_not isBlank text
    rw [hfirst] at hnot
    exact hnot
  case last =>
    intro c hc
    obtain ⟨hne, rfl⟩ := List.mem_getLast?_eq_getLast hc
    exact Bool.eq_false_iff.2 (List.rdropWhile_last_not isBlank _ hne)

theorem Trimmed.trim_eq {text core : List Char} (h : Trimmed text core) : trim text = core := by
  obtain ⟨before, after, rfl, hbefore, hafter⟩ := h.around
  have hblanks : ∀ c ∈ after.reverse, isBlank c = true :=
    fun c hc => hafter c (List.mem_reverse.1 hc)
  have hback : core.rdropWhile isBlank = core := by
    refine List.rdropWhile_eq_self_iff.2 fun hne => ?_
    rw [h.last _ (List.getLast_mem_getLast? hne)]
    exact Bool.false_ne_true
  rw [trim, List.dropWhile_append_of_pos hbefore, dropEndWhile_eq_rdropWhile]
  cases core with
  | nil =>
    rw [List.nil_append, List.dropWhile_eq_nil_iff.2 hafter]
    rfl
  | cons c cs =>
    have hfront : ¬isBlank c = true := Bool.eq_false_iff.1 (h.head c rfl)
    rw [List.cons_append, List.dropWhile_cons_of_neg hfront, ← List.cons_append, List.rdropWhile,
      List.reverse_append, List.dropWhile_append_of_pos hblanks]
    exact hback

theorem trimmed_iff {text core : List Char} : Trimmed text core ↔ core = trim text :=
  ⟨fun h => h.trim_eq.symm, fun h => h ▸ trimmed_trim text⟩

/-! ### Digits -/

def IsHexDigit (c : Char) : Prop :=
  ('0' ≤ c ∧ c ≤ '9') ∨ ('a' ≤ c ∧ c ≤ 'f') ∨ ('A' ≤ c ∧ c ≤ 'F')

instance : DecidablePred IsHexDigit := fun c =>
  inferInstanceAs (Decidable (('0' ≤ c ∧ c ≤ '9') ∨ ('a' ≤ c ∧ c ≤ 'f') ∨ ('A' ≤ c ∧ c ≤ 'F')))

theorem of_le_z {P : Char → Prop} (h : ∀ n < 123, P (Char.ofNat n)) {c : Char} (hc : c ≤ 'z') :
    P c := by
  have hle : c.val.toNat ≤ 122 := UInt32.le_iff_toNat_le.1 (Char.le_def.1 hc)
  have hp := h c.toNat (Nat.lt_succ_of_le hle)
  rwa [Char.ofNat_toNat] at hp

section Digits
variable {c : Char}

theorem IsHexDigit.le_z (h : IsHexDigit c) : c ≤ 'z' := by
  obtain ⟨-, hc⟩ | ⟨-, hc⟩ | ⟨-, hc⟩ := h
  all_goals exact Char.le_trans hc (by decide)

theorem le_z_of_digit? {v : Nat} (h : digit? 16 c = some v) : c ≤ 'z' := by
  by_contra hc
  have hdigit : ¬('0' ≤ c ∧ c ≤ '9') := fun hd => hc (Char.le_trans hd.2 (by decide))
  have hsmall : ¬('a' ≤ c ∧ c ≤ 'z') := fun hs => hc hs.2
  have hcapital : ¬('A' ≤ c ∧ c ≤ 'Z') := fun hs => hc (Char.le_trans hs.2 (by decide))
  simp only [digit?, if_neg hdigit, if_neg hsmall, if_neg hcapital, Nat.lt_irrefl, if_false,
    reduceCtorEq] at h

theorem exists_digit?_iff : (∃ v, digit? 16 c = some v) ↔ IsHexDigit c := by
  have hall : ∀ n < 123,
      ((digit? 16 (Char.ofNat n)).isSome = true ↔ IsHexDigit (Char.ofNat n)) := by
    decide
  have hhere (hc : c ≤ 'z') : (digit? 16 c).isSome = true ↔ IsHexDigit c :=
    of_le_z (P := fun c => (digit? 16 c).isSome = true ↔ IsHexDigit c) hall hc
  rw [← Option.isSome_iff_exists]
  constructor
  · intro h
    obtain ⟨v, hv⟩ := Option.isSome_iff_exists.1 h
    exact (hhere (le_z_of_digit? hv)).1 h
  · exact fun h => (hhere h.le_z).2 h

theorem nibble_of_digit? {v : Nat} (h : digit? 16 c = some v) : Hex.nibble v = c.toUpper := by
  have hall : ∀ n < 123, ∀ v ∈ digit? 16 (Char.ofNat n),
      Hex.nibble v = (Char.ofNat n).toUpper := by decide
  exact of_le_z (P := fun c => ∀ v ∈ digit? 16 c, Hex.nibble v = c.toUpper) hall
    (le_z_of_digit? h) v h

theorem digit?_nibble : ∀ v < 16, digit? 16 (Hex.nibble v) = some v := by decide

theorem IsHexDigit.not_blank (h : IsHexDigit c) : isBlank c = false := by
  have hall : ∀ n < 123, IsHexDigit (Char.ofNat n) → isBlank (Char.ofNat n) = false := by decide
  exact of_le_z (P := fun c => IsHexDigit c → isBlank c = false) hall h.le_z h

end Digits

/-! ### Pairs of digits -/

namespace Document

theorem pairs_encode (bytes : List UInt8) : Pairs (Hex.encode bytes) bytes := by
  induction bytes with
  | nil => exact .nil
  | cons byte bytes ih =>
    have hlt := byte.toNat_lt
    have hbyte : UInt8.ofNat (16 * (byte.toNat / 16) + byte.toNat % 16) = byte := by
      rw [Nat.div_add_mod, UInt8.ofNat_toNat]
    have hpairs := Pairs.cons (digit?_nibble (byte.toNat / 16) (by omega))
      (digit?_nibble (byte.toNat % 16) (by omega)) ih
    rwa [hbyte] at hpairs

namespace Pairs
variable {cs : List Char} {bytes : List UInt8}

theorem toNat_pair {hi lo : Char} {h l : Nat} (hh : digit? 16 hi = some h)
    (hl : digit? 16 lo = some l) : (UInt8.ofNat (16 * h + l)).toNat = 16 * h + l := by
  have hlt := digit?_lt hh
  have hlt' := digit?_lt hl
  rw [UInt8.toNat_ofNat', Nat.mod_eq_of_lt (by omega)]

theorem encode_eq (h : Pairs cs bytes) : Hex.encode bytes = cs.map Char.toUpper := by
  induction h with
  | nil => rfl
  | cons hh hl _ ih =>
    have hlt := digit?_lt hl
    rw [Hex.encode, toNat_pair hh hl, Nat.mul_add_div (by decide), Nat.div_eq_of_lt hlt,
      Nat.add_zero, Nat.mul_add_mod, Nat.mod_eq_of_lt hlt, nibble_of_digit? hh,
      nibble_of_digit? hl, ih]
    rfl

theorem length_eq (h : Pairs cs bytes) : cs.length = 2 * bytes.length := by
  induction h with
  | nil => rfl
  | cons _ _ _ ih =>
    simp only [List.length_cons, ih]
    omega

theorem ne_nil_iff (h : Pairs cs bytes) : cs ≠ [] ↔ bytes ≠ [] := by
  rw [← List.length_pos_iff, ← List.length_pos_iff, h.length_eq]
  omega

theorem isHexDigit (h : Pairs cs bytes) : ∀ c ∈ cs, IsHexDigit c := by
  induction h with
  | nil => exact fun c hc => absurd hc List.not_mem_nil
  | cons hh hl _ ih =>
    exact List.forall_mem_cons.2 ⟨exists_digit?_iff.1 ⟨_, hh⟩,
      List.forall_mem_cons.2 ⟨exists_digit?_iff.1 ⟨_, hl⟩, ih⟩⟩

theorem foldl_eq (h : Pairs cs bytes) (acc : Nat) :
    cs.foldl (fun acc c => acc * 16 + (digit? 16 c).getD 0) acc =
      bytes.foldl (fun acc byte => acc * 256 + byte.toNat) acc := by
  induction h generalizing acc with
  | nil => rfl
  | cons hh hl _ ih =>
    rw [List.foldl_cons, List.foldl_cons, List.foldl_cons, ih, toNat_pair hh hl, hh, hl,
      Option.getD_some, Option.getD_some]
    congr 1
    omega

theorem digits (h : Pairs cs bytes) (hne : cs ≠ []) : Digits 16 cs (Bytes.number bytes) :=
  ⟨hne, fun c hc => Option.isSome_iff_exists.2 (exists_digit?_iff.2 (h.isHexDigit c hc)),
    h.foldl_eq 0⟩

end Pairs

theorem exists_pairs_iff {cs : List Char} :
    (∃ bytes, Pairs cs bytes) ↔ Even cs.length ∧ ∀ c ∈ cs, IsHexDigit c := by
  constructor
  · rintro ⟨bytes, h⟩
    exact ⟨h.length_eq ▸ even_two_mul bytes.length, h.isHexDigit⟩
  · rintro ⟨heven, hdigits⟩
    induction cs using Hex.pairs?.induct with
    | case1 => exact ⟨[], .nil⟩
    | case2 c => simp at heven
    | case3 hi lo rest ih =>
      obtain ⟨hhi, hlo, hrest⟩ : IsHexDigit hi ∧ IsHexDigit lo ∧ ∀ c ∈ rest, IsHexDigit c := by
        simpa using hdigits
      obtain ⟨h, hh⟩ := exists_digit?_iff.2 hhi
      obtain ⟨l, hl⟩ := exists_digit?_iff.2 hlo
      obtain ⟨bytes, hbytes⟩ := ih (by simpa [Nat.even_add_one] using heven) hrest
      exact ⟨_, .cons hh hl hbytes⟩

theorem trim_encode (bytes : List UInt8) : trim (Hex.encode bytes) = Hex.encode bytes := by
  have hdigits := (pairs_encode bytes).isHexDigit
  refine Trimmed.trim_eq ⟨⟨[], [], by simp, by simp, by simp⟩, fun c hc => ?_, fun c hc => ?_⟩
  · exact (hdigits c (List.mem_of_mem_head? hc)).not_blank
  · exact (hdigits c (List.mem_of_mem_getLast? hc)).not_blank

theorem bytes?_text {bytes : List UInt8} (h : bytes ≠ []) :
    Hex.bytes? (Hex.text bytes) = some bytes := by
  rw [bytes?_eq_some, HexText, Hex.text, String.toList_ofList, trim_encode]
  exact ⟨h, pairs_encode bytes⟩

theorem exists_bytes?_iff {text : String} : (∃ bytes, Hex.bytes? text = some bytes) ↔
    trim text.toList ≠ [] ∧ Even (trim text.toList).length ∧
      ∀ c ∈ trim text.toList, IsHexDigit c := by
  rw [← exists_pairs_iff]
  simp only [bytes?_eq_some, HexText]
  constructor
  · rintro ⟨bytes, hne, h⟩
    exact ⟨h.ne_nil_iff.2 hne, bytes, h⟩
  · rintro ⟨hne, bytes, h⟩
    exact ⟨bytes, h.ne_nil_iff.1 hne, h⟩

theorem HexText.text_eq {text : String} {bytes : List UInt8} (h : HexText text bytes) :
    Hex.text bytes = String.ofList ((trim text.toList).map Char.toUpper) := by
  rw [Hex.text, h.2.encode_eq]

end Document

theorem hexText_injective {bytes bytes' : List UInt8} (h : Hex.text bytes = Hex.text bytes') :
    bytes = bytes' := by
  have hencode : Hex.encode bytes = Hex.encode bytes' := String.ofList_inj.1 h
  have hpairs := Document.pairs_encode bytes'
  rw [← hencode, ← Document.pairs?_eq_some] at hpairs
  exact Option.some.inj
    ((Document.pairs?_eq_some.2 (Document.pairs_encode bytes)).symm.trans hpairs)

/-! ### Words -/

theorem Bytes.word?_eq_word {bytes : List UInt8} (h : bytes.length ≤ 8) :
    Bytes.word? bytes = some (Bytes.word .big bytes) := by
  rw [Bytes.word?, if_pos h, Bytes.word, ByteOrder.msbFirst, List.take_of_length_le h]

theorem digits_word_big {cs : List Char} {bytes : List UInt8} (h : Document.Pairs cs bytes)
    (hne : cs ≠ []) (hlength : bytes.length ≤ 8) :
    Document.Digits 16 cs (Bytes.word .big bytes).toNat := by
  rw [Bytes.toNat_word .big hlength, ← ByteOrder.number_msbFirst, ByteOrder.msbFirst]
  exact h.digits hne

/-! ### Fields shown raw -/

theorem FieldDef.lines_raw {f : FieldDef Nat} (hraw : f.print = .raw) (hbits : f.bits = none)
    (order : ByteOrder) (bytes : List UInt8) : f.lines order bytes =
      [⟨f.name, Hex.text bytes, if bytes = [] then none else f.tooltip⟩] := by
  rw [lines]
  by_cases hnil : bytes = []
  · rw [if_pos hnil, if_pos hnil, hnil]
    rfl
  · rw [if_neg hnil, if_neg hnil, read, hraw, hbits]
    rfl

/-- The line of a field that is shown raw has the digits of the bytes that the field has taken, and
no other bytes have these. -/
theorem Definition.perform_field_raw (d : Definition) (data : Buffer) (maxDepth : Nat) {s : State}
    {step : FieldStep Nat} {start n : Nat} (hraw : (d.field step.field).print = .raw)
    (hbits : (d.field step.field).bits = none) (hstart : s.position step = start)
    (htakes : (d.field step.field).size.Takes data start (step.limit.map s.operand) n) :
    ∃ line : Line, (d.perform data maxDepth s (.act (.field step))).Plays s.tabs
        [.wrote step.tab line] ∧
      ∀ bytes, Hex.text bytes = line.value ↔ bytes = data.bytes start n := by
  have hplays := (perform_uses d maxDepth hstart htakes).plays
  rw [FieldDef.lines_raw hraw hbits] at hplays
  exact ⟨_, hplays, fun bytes => ⟨fun h => hexText_injective h, fun h => congrArg Hex.text h⟩⟩

/-- Hexadecimal texts and bytes. What is printed is read back, so that the line of a field that is
shown raw has one byte string. A text can be read just if, without the blanks around it, it has
digits only and an even number of them, but not none; what it is read as is printed with the same
digits in upper case. Up to eight bytes are the word that their digits spell. -/
theorem hexText_roundTrip :
    (∀ bytes, bytes ≠ [] → Hex.bytes? (Hex.text bytes) = some bytes) ∧
    (∀ (d : Definition) (data : Buffer) (maxDepth : Nat) (s : State) (step : FieldStep Nat)
      (start n : Nat), (d.field step.field).print = .raw → (d.field step.field).bits = none →
      s.position step = start →
      (d.field step.field).size.Takes data start (step.limit.map s.operand) n →
      ∃ line : Line, (d.perform data maxDepth s (.act (.field step))).Plays s.tabs
          [.wrote step.tab line] ∧
        ∀ bytes, Hex.text bytes = line.value ↔ bytes = data.bytes start n) ∧
    (∀ text : String, ∃ core : List Char, (∀ other, Trimmed text.toList other ↔ other = core) ∧
      ((∃ bytes, Hex.bytes? text = some bytes) ↔
        core ≠ [] ∧ Even core.length ∧ ∀ c ∈ core, IsHexDigit c) ∧
      ∀ bytes, Hex.bytes? text = some bytes →
        Hex.text bytes = String.ofList (core.map Char.toUpper) ∧
        (bytes.length ≤ 8 → ∃ word, Bytes.word? bytes = some word ∧
          Document.Digits 16 core word.toNat)) ∧
    ∀ bytes, bytes.length ≤ 8 → Bytes.word? bytes = some (Bytes.word .big bytes) ∧
      (Bytes.word .big bytes).toNat = ByteOrder.big.number bytes := by
  refine ⟨fun bytes => Document.bytes?_text, ?_, fun text => ?_, fun bytes hlength =>
    ⟨Bytes.word?_eq_word hlength, Bytes.toNat_word .big hlength⟩⟩
  · intro d data maxDepth s step start n hraw hbits hstart htakes
    exact d.perform_field_raw data maxDepth hraw hbits hstart htakes
  · refine ⟨trim text.toList, fun other => trimmed_iff, Document.exists_bytes?_iff,
      fun bytes hbytes => ?_⟩
    have hread := Document.bytes?_eq_some.1 hbytes
    exact ⟨hread.text_eq, fun hlength => ⟨_, Bytes.word?_eq_word hlength,
      digits_word_big hread.2 (hread.2.ne_nil_iff.2 hread.1) hlength⟩⟩

def rawSample : Definition where
  name := "n"
  shortName := "s"
  endianness := .little
  colors := []
  fields := [{ FieldDef.unused with size := .fixed 2, print := .raw }]
  signatures := []
  blocks := []
  program := [.act (.field ⟨0, none, none, none, none⟩)]
  vars := []
  unused := 0

/-- Digits in either case with a blank on each side, and a field of the bytes that they spell. -/
theorem hexText_roundTrip_rawSample :
    let data : Buffer := #[0x4D, 0xA2, 0x01]
    let s := State.initial rawSample
    let step : FieldStep Nat := ⟨0, none, none, none, none⟩
    Hex.bytes? (Hex.text [0x4D, 0xA2]) = some [0x4D, 0xA2] ∧
      (∃ line : Line, (rawSample.perform data 0 s (.act (.field step))).Plays []
          [.wrote none line] ∧ ∀ bytes, Hex.text bytes = line.value ↔ bytes = [0x4D, 0xA2]) ∧
      Hex.bytes? " 4dA2\n" = some [0x4D, 0xA2] ∧ Hex.text [0x4D, 0xA2] = "4DA2" ∧
      ∃ word, Bytes.word? [0x4D, 0xA2] = some word ∧
        Document.Digits 16 ['4', 'd', 'A', '2'] word.toNat ∧
        Bytes.word .big [0x4D, 0xA2] = word := by
  intro data s step
  obtain ⟨hprinted, hraw, htexts, hwords⟩ := hexText_roundTrip
  obtain ⟨core, hcore, hsome, hread⟩ := htexts " 4dA2\n"
  obtain rfl : ['4', 'd', 'A', '2'] = core := (hcore _).1 (trimmed_iff.2 (by decide))
  obtain ⟨bytes, hbytes⟩ := hsome.2 ⟨by decide, by decide, by simp [IsHexDigit]⟩
  obtain ⟨htext, hspelled⟩ := hread bytes hbytes
  have hupper : Hex.text [0x4D, 0xA2] = "4DA2" := by decide
  obtain rfl : bytes = [0x4D, 0xA2] := hexText_injective (htext.trans (by decide))
  obtain ⟨word, hword, hdigits⟩ := hspelled (by decide)
  have hbig := (hwords [0x4D, 0xA2] (by decide)).1
  refine ⟨hprinted _ (by decide), ?_, hbytes, hupper, word, hword, hdigits,
    Option.some.inj (hbig.symm.trans hword)⟩
  exact hraw rawSample data 0 s step 0 2 rfl rfl (by decide) ⟨by decide, rfl⟩

end Dissect
