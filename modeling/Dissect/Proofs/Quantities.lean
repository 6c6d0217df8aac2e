import Dissect.Proofs.Extents
import Dissect.Proofs.Literals
import Mathlib.Data.Nat.Digits.Defs

/-! The numbers of fields. A byte string stands for a number, for the bits of a field in it or for
an integer in two's complement. This is what a field of a word or less is captured as, and the line
that shows the field and the line that prints the variable have the same digits of it. -/
namespace Dissect
open Text

/-! ### Numerals -/

/-- A text that has the digits of an integer, after a minus sign if it is below zero. -/
inductive Denotes (radix : Nat) : List Char → Int → Prop
  | natural {cs : List Char} {n : Nat} : Document.Digits radix cs n → Denotes radix cs n
  | negative {cs : List Char} {n : Nat} :
    0 < n → Document.Digits radix cs n → Denotes radix ('-' :: cs) (-n)

namespace Document

theorem Digits.single {radix d : Nat} {c : Char} (hc : digit? radix c = some d) :
    Digits radix [c] d := by
  refine ⟨List.cons_ne_nil c [], ?_, ?_⟩ <;> simp [hc]

theorem Digits.concat {radix n d : Nat} {cs : List Char} {c : Char} (h : Digits radix cs n)
    (hc : digit? radix c = some d) : Digits radix (cs ++ [c]) (n * radix + d) := by
  obtain ⟨-, hdigits, rfl⟩ := h
  refine ⟨by simp, ?_, ?_⟩
  · intro c' hc'
    obtain hold | hnew := List.mem_append.1 hc'
    · exact hdigits c' hold
    · rw [List.mem_singleton.1 hnew, hc]
      rfl
  · rw [List.foldl_append, List.foldl_cons, List.foldl_nil, hc]
    rfl

/-- The digits that are written for a number are read as that number, also if each is written in
another way. -/
theorem digits_toDigits {radix : Nat} (hradix : 1 < radix) {glyph : Char → Char}
    (hglyph : ∀ d < radix, digit? radix (glyph d.digitChar) = some d) (n : Nat) :
    Digits radix ((Nat.toDigits radix n).map glyph) n := by
  induction n using Nat.strongRecOn with
  | ind n ih =>
    by_cases hlt : n < radix
    · rw [Nat.toDigits_of_lt_base hlt, List.map_singleton]
      exact .single (hglyph n hlt)
    · have hle : radix ≤ n := Nat.le_of_not_lt hlt
      have hmod : n % radix < radix := Nat.mod_lt n (by omega)
      have hconcat := (ih (n / radix) (Nat.div_lt_self (by omega) hradix)).concat (hglyph _ hmod)
      rw [Nat.toDigits_of_base_le hradix hle, List.map_append, List.map_singleton]
      rwa [Nat.div_add_mod'] at hconcat

end Document

theorem denotes_hexUpper (n : Nat) : Denotes 16 (hexUpper n).toList n := by
  rw [hexUpper, String.toList_ofList]
  exact .natural (Document.digits_toDigits (by decide) (by decide) n)

theorem digits_toString (n : Nat) : Document.Digits 10 (toString n).toList n := by
  have h : Document.Digits 10 ((Nat.toDigits 10 n).map id) n :=
    Document.digits_toDigits (by decide) (by decide) n
  rwa [List.map_id, ← String.toList_ofList (l := Nat.toDigits 10 n),
    ← Nat.toString_eq_ofList_toDigits] at h

theorem denotes_toString (z : Int) : Denotes 10 (toString z).toList z := by
  cases z with
  | ofNat n => exact .natural (digits_toString n)
  | negSucc n =>
    have htext : (toString (Int.negSucc n)).toList = '-' :: (toString (n + 1)).toList :=
      String.toList_append
    rw [htext]
    exact .negative n.succ_pos (digits_toString (n + 1))

/-! ### Numbers of byte strings -/

/-- The number of a byte string, where the byte at the lesser end counts once and every other one
256 times as much as the one before. -/
def ByteOrder.number (order : ByteOrder) (bytes : List UInt8) : Nat :=
  match order with
  | .little => Nat.ofDigits 256 (bytes.map UInt8.toNat)
  | .big => Nat.ofDigits 256 (bytes.reverse.map UInt8.toNat)

theorem number_concat (bytes : List UInt8) (byte : UInt8) :
    Bytes.number (bytes ++ [byte]) = Bytes.number bytes * 256 + byte.toNat := by
  rw [Bytes.number, List.foldl_append]
  rfl

theorem number_reverse (bytes : List UInt8) :
    Bytes.number bytes.reverse = Nat.ofDigits 256 (bytes.map UInt8.toNat) := by
  induction bytes with
  | nil => rfl
  | cons byte bytes ih =>
    rw [List.reverse_cons, number_concat, ih, List.map_cons, Nat.ofDigits_cons, Nat.mul_comm,
      Nat.add_comm]

theorem ByteOrder.number_msbFirst (order : ByteOrder) (bytes : List UInt8) :
    Bytes.number (order.msbFirst bytes) = order.number bytes := by
  cases order with
  | little => exact number_reverse bytes
  | big =>
    have h := number_reverse bytes.reverse
    rwa [List.reverse_reverse] at h

theorem Bytes.toNat_word (order : ByteOrder) {bytes : List UInt8} (hlength : bytes.length ≤ 8) :
    (Bytes.word order bytes).toNat = order.number bytes := by
  have hfits : (order.msbFirst bytes).length ≤ 8 := by rwa [order.length_msbFirst]
  rw [Bytes.word, List.take_of_length_le hfits,
    UInt64.toNat_ofNat_of_lt' (Document.number_lt_size hfits), order.number_msbFirst]

def twosComplement (bits n : Nat) : Int := if 2 * n < 2 ^ bits then n else n - (2 ^ bits : Nat)

theorem twosComplement_eq_bmod {bits n : Nat} (h : n < 2 ^ bits) :
    twosComplement bits n = (n : Int).bmod (2 ^ bits) := by
  have hmod : (n : Int) % (2 ^ bits : Nat) = n := by
    rw [← Int.natCast_emod, Nat.mod_eq_of_lt h]
  rw [twosComplement, Int.bmod, hmod]
  split_ifs <;> first | rfl | omega

theorem twosComplement_bounds {bits n : Nat} (h : n < 2 ^ (bits + 1)) :
    -(2 ^ bits : Nat) ≤ twosComplement (bits + 1) n ∧
      twosComplement (bits + 1) n < (2 ^ bits : Nat) := by
  have hpow : (2 : Nat) ^ (bits + 1) = 2 * 2 ^ bits := Nat.pow_succ'
  rw [twosComplement]
  split_ifs <;> omega

theorem Width.has_twosComplement {w : Width} {bits n : Nat} (hle : bits ≤ w.bits)
    (h : n < 2 ^ bits) : w.Has true (twosComplement bits n) := by
  cases bits with
  | zero =>
    have hpos : (0 : Int) < 2 ^ (w.bits - 1) := Int.pow_pos (by decide)
    rw [Nat.lt_one_iff.1 h]
    exact ⟨Int.neg_nonpos_of_nonneg hpos.le, hpos⟩
  | succ bits =>
    have hpow : ((2 ^ bits : Nat) : Int) ≤ 2 ^ (w.bits - 1) := by
      exact_mod_cast Nat.pow_le_pow_right (by decide) (by omega)
    obtain ⟨hlow, hhigh⟩ := twosComplement_bounds h
    exact ⟨(Int.neg_le_neg hpow).trans hlow, hhigh.trans_le hpow⟩

theorem toInt_signExtend {word : UInt64} {n : Nat} (hle : n ≤ 8) (h : word.toNat < 2 ^ (8 * n)) :
    (Bytes.signExtend word n).toInt = twosComplement (8 * n) word.toNat := by
  rw [Bytes.signExtend]
  by_cases hzero : n = 0
  · subst hzero
    have hword : word.toNat = 0 := Nat.lt_one_iff.1 h
    rw [if_pos rfl, hword]
    rfl
  by_cases hfull : n = 8
  · subst hfull
    rfl
  · rw [if_neg hzero, if_neg (by omega), Nat.one_shiftLeft, ← twosComplement_eq_bmod h,
      Width.toInt_ofInt]
    refine Width.wrap_eq_self (Width.has_twosComplement ?_ h)
    change 8 * n ≤ 64
    omega

/-! ### Numbers of fields -/

namespace FieldDef
variable (f : FieldDef Nat) (order : ByteOrder) (bytes : List UInt8)

/-- The number a field has in its bytes: all of them, or the bits that are its own. -/
def amount : Nat :=
  match f.bits with
  | some b => (order.number bytes &&& b.mask.toNat) >>> b.shift
  | none => order.number bytes

/-- The integer a field stands for. Only a field of whole bytes can be below zero. -/
def quantity : Int :=
  if f.print = .signed ∧ f.bits = none then twosComplement (8 * bytes.length) (f.amount order bytes)
  else f.amount order bytes

def radix : Nat := if f.print = .hex then 16 else 10

def numeral : String :=
  if f.print = .hex then hexUpper (f.quantity order bytes).toNat
  else toString (f.quantity order bytes)

end FieldDef

theorem BitField.toNat_extract (b : BitField) (word : UInt64) :
    (b.extract word).toNat = (word.toNat &&& b.mask.toNat) >>> b.shift := by
  rw [extract]
  by_cases hshift : b.shift < 64
  · rw [if_pos hshift, UInt64.toNat_shiftRight, UInt64.toNat_and, UInt64.toNat_ofNat',
      Nat.mod_eq_of_lt (by omega : b.shift < 2 ^ 64), Nat.mod_eq_of_lt hshift]
  · have hword : word.toNat &&& b.mask.toNat < 2 ^ b.shift :=
      calc word.toNat &&& b.mask.toNat ≤ word.toNat := Nat.and_le_left
        _ < 2 ^ 64 := word.toNat_lt
        _ ≤ 2 ^ b.shift := Nat.pow_le_pow_right (by decide) (Nat.le_of_not_lt hshift)
    rw [if_neg hshift, Nat.shiftRight_eq_zero _ _ hword]
    rfl

namespace FieldDef
variable (f : FieldDef Nat) (order : ByteOrder) {bytes : List UInt8}

theorem toNat_word (hlength : bytes.length ≤ 8) :
    (f.word order bytes).toNat = f.amount order bytes := by
  have hword := Bytes.toNat_word order hlength
  rw [word, amount]
  cases f.bits with
  | none => exact hword
  | some b => exact (b.toNat_extract _).trans (by rw [hword])

variable {f} in
theorem toInt_signExtend_word (hsigned : f.print = .signed ∧ f.bits = none)
    (hlength : bytes.length ≤ 8) :
    (Bytes.signExtend (f.word order bytes) bytes.length).toInt = f.quantity order bytes := by
  rw [toInt_signExtend hlength (f.word_lt order bytes), quantity, if_pos hsigned,
    toNat_word f order hlength]

theorem integer_capture_eq_quantity (hlength : bytes.length ≤ 8) :
    (f.capture order bytes).integer = f.quantity order bytes := by
  by_cases hsigned : f.print = .signed ∧ f.bits = none
  · have hhas : (Width.fitting bytes.length).Has true (f.quantity order bytes) := by
      rw [quantity, if_pos hsigned, ← toNat_word f order hlength]
      exact Width.has_twosComplement (Width.le_bits_fitting hlength) (f.word_lt order bytes)
    have hword : (Value.signed ((Width.fitting bytes.length).wrapSigned
        (Bytes.signExtend (f.word order bytes) bytes.length))).IsWord true
          (f.quantity order bytes) := by
      refine ⟨rfl, (Width.toInt_wrapSigned _ _).trans ?_⟩
      rw [toInt_signExtend_word order hsigned hlength, Width.wrap_eq_self hhas]
    rw [capture, if_pos hsigned, Nat.min_eq_left hlength]
    exact (hword.integer_eq _ bytes).trans (Width.wrap_eq_self hhas)
  · rw [f.integer_capture order bytes hsigned hlength, quantity, if_neg hsigned,
      toNat_word f order hlength]

variable {f} in
theorem read_eq_numeral (hmode : f.print ∈ [PrintMode.signed, .unsigned, .hex])
    (hlength : bytes.length ≤ 8) : f.read order bytes = { value := f.numeral order bytes } := by
  have hmodes : f.print = .signed ∨ f.print = .unsigned ∨ f.print = .hex := by simpa using hmode
  have htext (n : Nat) : (n : Int).repr = n.repr := rfl
  rw [read, numeral]
  by_cases hsigned : f.print = .signed ∧ f.bits = none
  · simp [hsigned.1, hsigned.2, hlength, toInt_signExtend_word order hsigned hlength]
  · have hquantity : f.quantity order bytes = (f.word order bytes).toNat := by
      rw [quantity, if_neg hsigned, toNat_word f order hlength]
    obtain hprint | hprint | hprint := hmodes
    · have hbits : f.bits.isSome := Option.isSome_iff_ne_none.2 fun hnone => hsigned ⟨hprint, hnone⟩
      simp [hprint, hbits, hquantity, htext]
    · simp [hprint, hlength, hquantity, htext]
    · simp [hprint, hlength, hquantity]

theorem denotes_numeral :
    Denotes f.radix (f.numeral order bytes).toList (f.quantity order bytes) := by
  rw [radix, numeral]
  by_cases hprint : f.print = .hex
  · have hquantity : f.quantity order bytes = f.amount order bytes := by simp [quantity, hprint]
    rw [if_pos hprint, if_pos hprint, hquantity]
    exact denotes_hexUpper _
  · rw [if_neg hprint, if_neg hprint]
    exact denotes_toString _

end FieldDef

namespace Definition

theorem printedValue_capture {store : Store} {step : PrintStep Nat} {f : FieldDef Nat}
    {order : ByteOrder} {bytes : List UInt8} (hlength : bytes.length ≤ 8)
    (hget : store.get? step.var = some (f.capture order bytes))
    (hhex : step.hex = decide (f.print = .hex)) :
    printedValue store step = some (f.numeral order bytes) := by
  have hinteger := f.integer_capture_eq_quantity order hlength
  rw [printedValue, hget, FieldDef.numeral, hhex]
  dsimp only
  by_cases hprint : f.print = .hex
  · -- The variable is printed as a word of its width, which an integer without a sign is already.
    have hunsigned : (f.capture order bytes).value.isSigned = false := by
      rw [FieldDef.capture, if_neg (by simp [hprint])]
      rfl
    have hhas := (f.capture order bytes).integer_has
    have hview := (f.capture order bytes).view_eq false
    rw [hunsigned] at hhas
    rw [Width.wrap_eq_self hhas, hinteger] at hview
    have hword : (f.capture order bytes).asUnsigned.toNat = (f.quantity order bytes).toNat :=
      congrArg Int.toNat hview
    rw [decide_eq_true hprint, if_pos rfl, if_pos hprint, hword]
  · have hwhole (q : Ratio) : (f.capture order bytes).value ≠ .rational q := by
      rw [FieldDef.capture]
      split <;> (intro h; cases h)
    rw [decide_eq_false hprint, if_neg Bool.false_ne_true, if_neg hprint, hinteger]
    split
    · next q hq => exact absurd hq (hwhole q)
    · rfl

/-- A number that is shown is the number that is captured. A field of one to eight bytes is shown in
the modes for numbers as the digits of the integer that its bytes stand for; the variable that
captures it has this integer, and when it is printed the line has the same digits. -/
theorem perform_field_number (d : Definition) (data : Buffer) (maxDepth : Nat) {s : State}
    {step : FieldStep Nat} {id start n : Nat} (hvar : step.var = some id)
    (hmode : (d.field step.field).print ∈ [PrintMode.signed, .unsigned, .hex])
    (hstart : s.position step = start)
    (htakes : (d.field step.field).size.Takes data start (step.limit.map s.operand) n)
    (hpos : 0 < n) (hle : n ≤ 8) :
    let f := d.field step.field
    let e := d.perform data maxDepth s (.act (.field step))
    let order := d.endianness.resolve s.store
    let bytes := data.bytes start n
    ∃ text : String, Denotes f.radix text.toList (f.quantity order bytes) ∧
      e.Plays s.tabs [.wrote step.tab ⟨f.name, text, f.tooltip⟩] ∧
      ∃ v : Variable, e.state.store.get? id = some v ∧ v.integer = f.quantity order bytes ∧
        ∀ t : State, t.store.get? id = some v → ∀ label tab suppress,
          (d.perform data maxDepth t
            (.act (.print ⟨label, id, tab, suppress, f.print = .hex⟩))).Plays t.tabs
              [.wrote tab ⟨label, text, none⟩] := by
  intro f e order bytes
  have hlength : bytes.length = n := Buffer.length_bytes htakes.1
  have hfits : bytes.length ≤ 8 := hlength.trans_le hle
  have hsome : bytes ≠ [] := List.ne_nil_of_length_pos (hlength ▸ hpos)
  have huses : d.Uses s step start bytes e := perform_uses d maxDepth hstart htakes
  have hlines : f.lines order bytes = [⟨f.name, f.numeral order bytes, f.tooltip⟩] := by
    rw [FieldDef.lines, if_neg hsome, FieldDef.read_eq_numeral order hmode hfits]
  have hstore : e.state.store = s.store.set id (f.capture order bytes) := by
    rw [huses.captured hvar, if_neg hsome]
  refine ⟨f.numeral order bytes, f.denotes_numeral order, ?_, f.capture order bytes, ?_,
    f.integer_capture_eq_quantity order hfits, ?_⟩
  · have hplays := huses.plays
    rwa [hlines] at hplays
  · rw [hstore, Store.get?_set, if_pos rfl]
  · intro t hget label tab suppress
    have hplays : (d.perform data maxDepth t
        (.act (.print ⟨label, id, tab, suppress, f.print = .hex⟩))).Plays t.tabs _ :=
      perform_plays maxDepth t _
    rwa [marks, printedValue_capture hfits hget rfl] at hplays

def offsetSample : Definition where
  name := "n"
  shortName := "s"
  endianness := .little
  colors := []
  fields := [{ FieldDef.unused with size := .fixed 3, print := .signed }]
  signatures := []
  blocks := []
  program := [.act (.field ⟨0, some 0, none, none, none⟩)]
  vars := ["a"]
  unused := 0

/-- What is two below zero is shown and printed with the same digits. -/
theorem perform_field_number_offsetSample :
    let data : Buffer := #[0xFE, 0xFF, 0xFF]
    let s := State.initial offsetSample
    let step : FieldStep Nat := ⟨0, some 0, none, none, none⟩
    let e := offsetSample.perform data 0 s (.act (.field step))
    s.position step = 0 ∧
      (offsetSample.field 0).size.Takes data 0 (step.limit.map s.operand) 3 ∧
      ∃ text : String, Denotes 10 text.toList (-2) ∧
        e.Plays [] [.wrote none ⟨"unused data", text, none⟩] ∧
        e.state.store.integer? 0 = some (-2) ∧
        (offsetSample.perform data 0 e.state (.act (.print ⟨"a", 0, none, false, false⟩))).Plays
          e.state.tabs [.wrote none ⟨"a", text, none⟩] := by
  intro data s step e
  have hvar : step.var = some 0 := rfl
  have hstart : s.position step = (0 : Nat) := by decide
  have htakes : (offsetSample.field step.field).size.Takes data 0 (step.limit.map s.operand) 3 :=
    ⟨by decide, rfl⟩
  have hquantity : (offsetSample.field step.field).quantity
      (offsetSample.endianness.resolve s.store) (data.bytes 0 3) = -2 := by
    decide +kernel
  obtain ⟨text, hdenotes, hplays, v, hget, hinteger, hprint⟩ :=
    offsetSample.perform_field_number data 0 hvar (by decide) hstart htakes (by decide) (by decide)
  have hall : v.integer = -2 := hinteger.trans hquantity
  refine ⟨hstart, htakes, text, ?_, hplays, ?_, hprint e.state hget "a" none false⟩
  · rw [hquantity] at hdenotes
    exact hdenotes
  · rw [Store.integer?, hget, Option.map_some, hall]

end Definition

end Dissect
