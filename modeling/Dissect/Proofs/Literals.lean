import Dissect.Proofs.Entries
import Dissect.Proofs.Operands

/-! Hexadecimal literals against captured variables. A literal is read as a word in two's
complement, and a field without a sign as the number of its bytes; they are compared as integers.
So a literal that spells a number past the signed words is below everything that is captured. -/
namespace Dissect

/-! ### What is captured -/

theorem ByteOrder.length_msbFirst (order : ByteOrder) (bytes : List UInt8) :
    (order.msbFirst bytes).length = bytes.length := by
  cases order with
  | big => rfl
  | little => exact List.length_reverse

theorem Width.le_bits_fitting {n : Nat} (h : n ≤ 8) : 8 * n ≤ (Width.fitting n).bits := by
  rw [Width.fitting]
  split_ifs <;> simp only [Width.bits, Width.bytes] <;> omega

namespace FieldDef
variable (f : FieldDef Nat) (order : ByteOrder) (bytes : List UInt8)

theorem word_lt : (f.word order bytes).toNat < 2 ^ (8 * bytes.length) := by
  have hnumber : (Bytes.word order bytes).toNat < 2 ^ (8 * bytes.length) := by
    have htake : ((order.msbFirst bytes).take 8).length ≤ bytes.length :=
      order.length_msbFirst bytes ▸ List.length_take_le' 8 _
    calc (Bytes.word order bytes).toNat ≤ Bytes.number ((order.msbFirst bytes).take 8) := by
          rw [Bytes.word, UInt64.toNat_ofNat']
          exact Nat.mod_le _ _
      _ < 1 <<< (8 * ((order.msbFirst bytes).take 8).length) := Document.number_lt _
      _ ≤ 2 ^ (8 * bytes.length) := by
          rw [Nat.one_shiftLeft]
          exact Nat.pow_le_pow_right (by decide) (Nat.mul_le_mul_left 8 htake)
  rw [word]
  cases f.bits with
  | none => exact hnumber
  | some b =>
    refine Nat.lt_of_le_of_lt ?_ hnumber
    dsimp only
    rw [BitField.extract]
    split
    · rw [UInt64.toNat_shiftRight, UInt64.toNat_and]
      exact (Nat.shiftRight_le _ _).trans Nat.and_le_left
    · exact Nat.zero_le _

theorem integer_capture (hprint : ¬(f.print = .signed ∧ f.bits = none))
    (hlength : bytes.length ≤ 8) :
    (f.capture order bytes).integer = (f.word order bytes).toNat := by
  have hlt := (f.word_lt order bytes).trans_le
    (Nat.pow_le_pow_right (by decide) (Width.le_bits_fitting hlength))
  have hhas : (Width.fitting bytes.length).Has false (f.word order bytes).toNat :=
    ⟨Int.natCast_nonneg _, by exact_mod_cast hlt⟩
  have hword : (Value.unsigned ((Width.fitting bytes.length).wrapUnsigned
      (f.word order bytes))).IsWord false (f.word order bytes).toNat :=
    ⟨rfl, (Width.toNat_wrapUnsigned _ _).trans (Width.wrap_eq_self hhas)⟩
  rw [capture, if_neg hprint]
  exact (hword.integer_eq _ bytes).trans (Width.wrap_eq_self hhas)

end FieldDef

/-! ### Literals of a run -/

theorem Width.toInt_ofInt_natCast {n : Nat} (hn : n < 2 ^ 64) :
    (Int64.ofInt n).toInt = if n < 2 ^ 63 then (n : Int) else n - 2 ^ 64 := by
  rw [toInt_ofInt]
  by_cases hlow : n < 2 ^ 63
  · have hhas : qword.Has true n := by
      change -2 ^ 63 ≤ (n : Int) ∧ (n : Int) < 2 ^ 63
      omega
    rw [if_pos hlow, wrap_eq_self hhas]
  · have hhas : qword.Has true (n - 2 ^ 64) := by
      change -2 ^ 63 ≤ (n - 2 ^ 64 : Int) ∧ (n - 2 ^ 64 : Int) < 2 ^ 63
      omega
    have hless : (n : Int) - 2 ^ 64 ≡ n [ZMOD 2 ^ qword.bits] := Int.sub_emod_right n _
    rw [if_neg hlow, ← qword.wrap_congr true hless, wrap_eq_self hhas]

namespace State
variable {s : State} {d : Definition} {data : Buffer} {id : Nat}

theorem toInt_operandValue_literal (s : State) (x : Int64) :
    (s.operandValue (.literal x)).toInt = x.toInt := by
  rw [operandValue]
  by_cases hneg : x < 0
  · rw [if_pos hneg]
    rfl
  · have hle : 0 ≤ x := Int64.not_lt.1 hneg
    have hpos : 0 ≤ x.toInt := Int64.le_iff_toInt_le.1 hle
    rw [if_neg hneg, Value.toInt, Int64.toNat_toUInt64_of_le hle]
    exact Int.toNat_of_nonneg hpos

theorem integer?_set_literal (s : State) (d : Definition) (id : Nat) (x : Int64) :
    (d.execStep s ⟨id, .set, false, .literal x, some .qword⟩).state.store.integer? id =
      some (Width.qword.wrap false x.toInt) := by
  have hset : ArithOp.set = .set → ∀ q,
      some (s.operandValue (.literal x)) ≠ some (.rational q) := by
    intro _ q hq
    rw [operandValue] at hq
    split at hq <;> cases hq
  have hword := s.store.apply_isWord id (by decide) false hset .qword
  rw [Definition.execStep, Store.integer?, Store.get?_apply, if_pos rfl, Option.map_some]
  refine congrArg some ((hword.integer_eq .qword []).trans ?_)
  rw [ArithOp.exact, Width.wrap_qword, Store.rightSide, Width.wrap_qword, Option.map_some,
    Option.getD_some, toInt_operandValue_literal]

/-- Tests and loops find of an integer in a variable and a literal what is so of two integers. -/
structure Compares (s : State) (d : Definition) (data : Buffer) (id : Nat) (x : Int64) (m n : Int) :
    Prop where
  equals : d.holds data s (.var id (.equals (.literal x))) ↔ m = n
  greater : d.holds data s (.var id (.greater (.literal x))) ↔ n < m
  below : Definition.continues data s (.below id (.literal x)) ↔ m < n

/-- A literal stands for a number below the signed words, and otherwise only against those above
that number. -/
theorem compares_iff {m : Int} (h : s.store.integer? id = some m) (hm : 0 ≤ m) {n : Nat}
    (hn : n < 2 ^ 64) :
    s.Compares d data id (Int64.ofInt n) m n ↔ n < 2 ^ 63 ∨ (n : Int) < m := by
  obtain ⟨hequals, hgreater, -, hbelow⟩ := (readsAs h d data).tested (.literal (Int64.ofInt n))
  rw [operand, Width.toInt_ofInt_natCast hn] at hequals hgreater hbelow
  by_cases hlow : n < 2 ^ 63
  · rw [if_pos hlow] at hequals hgreater hbelow
    exact iff_of_true ⟨hequals, hgreater, hbelow⟩ (.inl hlow)
  · rw [if_neg hlow] at hequals hgreater hbelow
    -- What is captured is above the literal, whatever it is.
    have habove : (n : Int) - 2 ^ 64 < m := by omega
    constructor
    · intro h
      exact .inr (h.greater.1 (hgreater.2 habove))
    · intro h
      have hless : (n : Int) < m := h.resolve_left hlow
      constructor
      case equals => exact iff_of_false (fun h => habove.ne' (hequals.1 h)) hless.ne'
      case greater => exact iff_of_true (hgreater.2 habove) hless
      case below => exact iff_of_false (fun h => habove.asymm (hbelow.1 h)) hless.asymm

end State

/-! ### Literals in a document -/

namespace Document
open Text

/-- A hexadecimal literal, the digits it has and the number they spell. Blanks around it and a plus
sign do not matter. -/
structure HexLiteral (text : String) (digits : List Char) (n : Nat) : Prop where
  written : ∃ rest, (rest = digits ∨ rest = '+' :: digits) ∧
    (trim text.toList = '0' :: 'x' :: rest ∨ trim text.toList = '0' :: 'X' :: rest)
  spelled : Digits 16 digits n

namespace HexLiteral
variable {text : String} {digits : List Char} {n : Nat}

theorem lt_word (h : HexLiteral text digits n) (hlength : digits.length ≤ 16) : n < 2 ^ 64 :=
  calc n < 1 <<< (4 * digits.length) := h.spelled.lt_shiftLeft
    _ = 2 ^ (4 * digits.length) := Nat.one_shiftLeft _
    _ ≤ 2 ^ 64 := Nat.pow_le_pow_right (by decide) (by omega)

theorem literal?_eq (h : HexLiteral text digits n) (hlength : digits.length ≤ 16) :
    literal? text.toList = some (Int64.ofInt n) := by
  obtain ⟨rest, hrest, htext⟩ := h.written
  have hnumeral : Numeral 16 rest n := by
    obtain rfl | rfl := hrest
    · exact .inl h.spelled
    · exact .inr ⟨digits, rfl, h.spelled⟩
  have hread : unsigned? 16 UInt64.size rest = some n :=
    unsigned?_eq_some.2 ⟨hnumeral, h.lt_word hlength⟩
  rw [literal?]
  obtain htext | htext := htext
  all_goals
    rw [htext]
    simp only [hread]
    rfl

end HexLiteral

variable {e : Element} {key text : String} {digits : List Char} {n : Nat}

/-- Every literal of sixteen digits is taken. A captured variable compares with it as with the
number it spells where that is a signed word or less than what was captured; a variable that is set
to it has the number it spells, but equals it only where that is a signed word. -/
theorem Element.hexLiteral_compares (hget : e.get? key = some text)
    (hliteral : HexLiteral text digits n) (hlength : digits.length ≤ 16) :
    e.operand? key = .ok (some (.literal (Int64.ofInt n))) ∧
      (∀ (s : State) (d : Definition) (data : Buffer) (id : Nat) (f : FieldDef Nat)
          (order : ByteOrder) (bytes : List UInt8),
        ¬(f.print = .signed ∧ f.bits = none) → bytes.length ≤ 8 →
        s.store.get? id = some (f.capture order bytes) →
        (s.Compares d data id (Int64.ofInt n) (f.word order bytes).toNat n ↔
          n < 2 ^ 63 ∨ n < (f.word order bytes).toNat)) ∧
      ∀ (s : State) (d : Definition) (data : Buffer) (id : Nat),
        let t := (d.execStep s ⟨id, .set, false, .literal (Int64.ofInt n), some .qword⟩).state
        t.store.integer? id = some (n : Int) ∧
          (d.holds data t (.var id (.equals (.literal (Int64.ofInt n)))) ↔ n < 2 ^ 63) := by
  have hword := hliteral.lt_word hlength
  refine ⟨operand?_eq_ok.2 ⟨text, hget, hliteral.literal?_eq hlength⟩, ?_, ?_⟩
  · intro s d data id f order bytes hprint hbytes hcaptured
    have hinteger : s.store.integer? id = some ((f.word order bytes).toNat : Int) := by
      rw [Store.integer?, hcaptured, Option.map_some, f.integer_capture order bytes hprint hbytes]
    rw [State.compares_iff hinteger (Int.natCast_nonneg _) hword, Int.ofNat_lt]
  · intro s d data id t
    have hhas : Width.qword.Has false n := ⟨Int.natCast_nonneg n, by exact_mod_cast hword⟩
    have hinteger : t.store.integer? id = some (n : Int) := by
      rw [s.integer?_set_literal d id, Width.toInt_ofInt, Width.wrap_qword, Width.wrap_eq_self hhas]
    refine ⟨hinteger, ?_⟩
    rw [((State.readsAs hinteger d data).tested _).1, State.operand,
      Width.toInt_ofInt_natCast hword]
    split_ifs <;> omega

def wordSample : Definition where
  name := "n"
  shortName := "s"
  endianness := .big
  colors := []
  fields := [{ FieldDef.unused with size := .fixed 8, print := .unsigned }]
  signatures := []
  blocks := []
  program := [.act (.field ⟨0, some 0, none, none, none⟩)]
  vars := ["a"]
  unused := 0

theorem Element.hexLiteral_compares_plusSign :
    let e : Element := ⟨"match", 0, [⟨"var", "a", 0⟩, ⟨"eq", " 0X+7fFF ", 8⟩]⟩
    let data : Buffer := #[0, 0, 0, 0, 0, 0, 0x7F, 0xFF]
    let s := (wordSample.moment data {} 1).state
    HexLiteral " 0X+7fFF " ['7', 'f', 'F', 'F'] 32767 ∧
      e.operand? "eq" = .ok (some (.literal 32767)) ∧
      s.Compares wordSample data 0 32767 32767 32767 := by
  intro e data s
  have hliteral : HexLiteral " 0X+7fFF " ['7', 'f', 'F', 'F'] 32767 := by
    refine ⟨⟨_, .inr rfl, .inr ?_⟩, natural?_eq_some.1 ?_⟩
    all_goals decide +kernel
  have hcaptured : s.store.get? 0 = some ((wordSample.field 0).capture .big
      [0, 0, 0, 0, 0, 0, 0x7F, 0xFF]) := by
    decide +kernel
  have hget : e.get? "eq" = some " 0X+7fFF " := by decide +kernel
  obtain ⟨hoperand, hcompares, -⟩ := Element.hexLiteral_compares hget hliteral (by decide)
  have hmeets := hcompares s wordSample data 0 _ _ _ (by decide) (by decide) hcaptured
  exact ⟨hliteral, hoperand, hmeets.2 (.inl (by decide))⟩

/-- The last word of all is not equal to itself, neither captured nor set: written as a literal it
is minus one. -/
theorem Element.not_holds_equals_lastWord :
    let e : Element := ⟨"match", 0, [⟨"var", "a", 0⟩, ⟨"eq", "0xFFFFFFFFFFFFFFFF", 8⟩]⟩
    let data : Buffer := Array.replicate 8 0xFF
    let s := (wordSample.moment data {} 1).state
    let t := (wordSample.execStep s ⟨0, .set, false, .literal (-1), some .qword⟩).state
    HexLiteral "0xFFFFFFFFFFFFFFFF" (List.replicate 16 'F') (2 ^ 64 - 1) ∧
      e.operand? "eq" = .ok (some (.literal (-1))) ∧
      s.store.get? 0 = some ((wordSample.field 0).capture .big data.toList) ∧
      ((wordSample.field 0).word .big data.toList).toNat = 2 ^ 64 - 1 ∧
      ¬wordSample.holds data s (.var 0 (.equals (.literal (-1)))) ∧
      t.store.integer? 0 = some (2 ^ 64 - 1) ∧
      ¬wordSample.holds data t (.var 0 (.equals (.literal (-1)))) := by
  intro e data s t
  have hliteral : HexLiteral "0xFFFFFFFFFFFFFFFF" (List.replicate 16 'F') (2 ^ 64 - 1) := by
    refine ⟨⟨_, .inl rfl, .inl ?_⟩, natural?_eq_some.1 ?_⟩
    all_goals decide +kernel
  refine ⟨hliteral, rfl, ?_, ?_, ?_, ?_, ?_⟩
  all_goals decide +kernel

end Document

end Dissect
