import Dissect.Proofs.Quantities
import Mathlib.Data.Nat.Bitwise

/-! Fields that are shown as flags. A flag is set where its mask has a bit that the number of the
field has as well, and every bit of that number belongs to some flag, or else the run halts. The
number is that of all bytes of the field if there are no more than eight; of longer fields it is
that of the eight most significant bytes. -/
namespace Dissect

/-! ### Bits of words -/

theorem and_ne_zero_iff {m n : Nat} : m &&& n ≠ 0 ↔ ∃ i, m.testBit i ∧ n.testBit i := by
  constructor
  · intro h
    obtain ⟨i, hi⟩ := Nat.exists_testBit_of_ne_zero h
    rw [Nat.testBit_and, Bool.and_eq_true] at hi
    exact ⟨i, hi⟩
  · rintro ⟨i, hm, hn⟩ hzero
    have hi : (m &&& n).testBit i = true := by rw [Nat.testBit_and, hm, hn]; rfl
    rw [hzero, Nat.zero_testBit] at hi
    cases hi

theorem testBit_toNat_not (word : UInt64) (i : Nat) :
    (~~~word).toNat.testBit i = (decide (i < 64) && !word.toNat.testBit i) := by
  rw [UInt64.toNat_not, Nat.sub_right_comm]
  exact Nat.testBit_two_pow_sub_succ word.toNat_lt i

theorem lt_of_testBit_toNat {word : UInt64} {i : Nat} (h : word.toNat.testBit i) : i < 64 := by
  have hpow : 2 ^ i < 2 ^ 64 := (Nat.ge_two_pow_of_testBit h).trans_lt word.toNat_lt
  exact (Nat.pow_lt_pow_iff_right (by decide)).1 hpow

theorem and_not_eq_zero_iff {word mask : UInt64} :
    word &&& ~~~mask = 0 ↔ ∀ i, word.toNat.testBit i → mask.toNat.testBit i := by
  rw [← UInt64.toNat_inj, UInt64.toNat_and, UInt64.toNat_zero, ← not_iff_not, ← ne_eq,
    and_ne_zero_iff, not_forall]
  refine exists_congr fun i => ?_
  rw [testBit_toNat_not, Classical.not_imp, Bool.and_eq_true, decide_eq_true_eq, Bool.not_eq_true']
  constructor
  · rintro ⟨hword, -, hmask⟩
    exact ⟨hword, Bool.eq_false_iff.1 hmask⟩
  · rintro ⟨hword, hmask⟩
    exact ⟨hword, lt_of_testBit_toNat hword, Bool.eq_false_iff.2 hmask⟩

/-! ### The most significant bytes -/

theorem number_append (bytes bytes' : List UInt8) : Bytes.number (bytes ++ bytes') =
    Bytes.number bytes * 256 ^ bytes'.length + Bytes.number bytes' := by
  -- A number is folded from the front, so it grows by a byte at the end.
  induction bytes' using List.reverseRecOn with
  | nil => simp [Bytes.number]
  | append_singleton bytes' byte ih =>
    rw [← List.append_assoc, number_concat, ih, number_concat, List.length_append,
      List.length_singleton, Nat.pow_succ, Nat.add_mul, Nat.mul_assoc, Nat.add_assoc]

theorem number_take (bytes : List UInt8) (k : Nat) :
    Bytes.number (bytes.take k) = Bytes.number bytes >>> (8 * (bytes.length - k)) := by
  have hlow : Bytes.number (bytes.drop k) < 2 ^ (8 * (bytes.length - k)) := by
    have h := Document.number_lt (bytes.drop k)
    rwa [Nat.one_shiftLeft, List.length_drop] at h
  have hwhole : Bytes.number bytes = 2 ^ (8 * (bytes.length - k)) * Bytes.number (bytes.take k) +
      Bytes.number (bytes.drop k) := by
    have h := number_append (bytes.take k) (bytes.drop k)
    rwa [List.take_append_drop, List.length_drop, show 256 = 2 ^ 8 from rfl, ← Nat.pow_mul,
      Nat.mul_comm (Bytes.number _)] at h
  rw [hwhole, Nat.shiftRight_eq_div_pow, Nat.mul_add_div (Nat.two_pow_pos _),
    Nat.div_eq_of_lt hlow, Nat.add_zero]

namespace FieldDef
variable (f : FieldDef Nat) (order : ByteOrder) {bytes : List UInt8}

/-- The number that the flags of a field are held against. -/
def leading (bytes : List UInt8) : Nat := f.amount .big ((order.msbFirst bytes).take 8)

theorem toNat_word_eq_leading : (f.word order bytes).toNat = f.leading order bytes := by
  have hlength : ((order.msbFirst bytes).take 8).length ≤ 8 := List.length_take_le 8 _
  have hword : Bytes.word order bytes = Bytes.word .big ((order.msbFirst bytes).take 8) := by
    rw [Bytes.word, Bytes.word, ByteOrder.msbFirst, List.take_take, Nat.min_self]
  rw [leading, ← f.toNat_word .big hlength, word, word, hword]

theorem leading_eq_amount (hlength : bytes.length ≤ 8) :
    f.leading order bytes = f.amount order bytes := by
  rw [← f.toNat_word_eq_leading, f.toNat_word order hlength]

theorem leading_eq_shiftRight (hbits : f.bits = none) :
    f.leading order bytes = f.amount order bytes >>> (8 * (bytes.length - 8)) := by
  have hnumber (order : ByteOrder) (bytes : List UInt8) :
      f.amount order bytes = Bytes.number (order.msbFirst bytes) := by
    rw [amount, hbits, order.number_msbFirst]
  rw [leading, hnumber, hnumber, ByteOrder.msbFirst, number_take, order.length_msbFirst]

end FieldDef

/-! ### Flags -/

def FlagEntry.Shares (flag : FlagEntry) (n : Nat) : Prop :=
  ∃ i, n.testBit i ∧ flag.mask.toNat.testBit i

instance (flag : FlagEntry) (n : Nat) : Decidable (flag.Shares n) :=
  decidable_of_iff (n &&& flag.mask.toNat ≠ 0) and_ne_zero_iff

namespace FieldDef
variable (f : FieldDef Nat)

def Unnamed (n : Nat) : Prop := ∃ i, n.testBit i ∧ ∀ flag ∈ f.flags, ¬flag.mask.toNat.testBit i

def flagsOf (n : Nat) : List FlagEntry := f.flags.filter (·.Shares n)

/-- The line of a field with these flags, and the lines that follow it. -/
def flagLines (tooltip : Option String) (flags : List FlagEntry) : List Line :=
  ⟨f.name, ", ".intercalate (flags.map (·.name)), tooltip⟩ ::
    flags.map fun flag => ⟨flag.name, flag.meaning, none⟩

theorem flagsIn_eq (word : UInt64) : f.flagsIn word = f.flagsOf word.toNat := by
  refine List.filter_congr fun flag _ => ?_
  have hshares : word &&& flag.mask ≠ 0 ↔ flag.Shares word.toNat := by
    rw [FlagEntry.Shares, ← and_ne_zero_iff, ne_eq, ← UInt64.toNat_inj, UInt64.toNat_and]
    rfl
  rw [Bool.eq_iff_iff, bne_iff_ne, decide_eq_true_eq, hshares]

theorem testBit_flagMask (i : Nat) :
    f.flagMask.toNat.testBit i ↔ ∃ flag ∈ f.flags, flag.mask.toNat.testBit i := by
  have h (acc : UInt64) : (f.flags.foldl (fun acc flag => acc ||| flag.mask) acc).toNat.testBit i ↔
      acc.toNat.testBit i ∨ ∃ flag ∈ f.flags, flag.mask.toNat.testBit i := by
    induction f.flags generalizing acc with
    | nil => simp
    | cons flag flags ih =>
      rw [List.foldl_cons, ih, UInt64.toNat_or, Nat.testBit_or, Bool.or_eq_true, or_assoc]
      simp only [List.mem_cons, exists_eq_or_imp]
  rw [flagMask, h 0]
  simp

theorem not_unnamed_iff (word : UInt64) :
    ¬f.Unnamed word.toNat ↔ word &&& ~~~f.flagMask = 0 := by
  rw [and_not_eq_zero_iff, Unnamed, not_exists]
  refine forall_congr' fun i => ?_
  rw [f.testBit_flagMask, not_and, not_forall]
  simp

theorem leading_nil (order : ByteOrder) : f.leading order [] = 0 := by
  rw [← f.toNat_word_eq_leading]
  exact Nat.lt_one_iff.1 (f.word_lt order [])

theorem not_unnamed_zero : ¬f.Unnamed 0 := by
  rintro ⟨i, hi, -⟩
  rw [Nat.zero_testBit] at hi
  cases hi

theorem flagsOf_zero : f.flagsOf 0 = [] := by
  refine List.filter_eq_nil_iff.2 fun flag _ hshares => ?_
  obtain ⟨i, hi, -⟩ := of_decide_eq_true hshares
  rw [Nat.zero_testBit] at hi
  cases hi

variable {f}

theorem lines_flags (hmode : f.print = .flags) (order : ByteOrder) (bytes : List UInt8) :
    f.lines order bytes = f.flagLines (if bytes = [] then none else f.tooltip)
      (f.flagsOf (f.leading order bytes)) := by
  rw [lines]
  by_cases hnil : bytes = []
  · rw [if_pos hnil, if_pos hnil, hnil, leading_nil, flagsOf_zero]
    rfl
  · rw [if_neg hnil, if_neg hnil, read, hmode, ← f.toNat_word_eq_leading, ← flagsIn_eq]
    rfl

theorem known_flags (hmode : f.print = .flags) (order : ByteOrder) (bytes : List UInt8) :
    (f.read order bytes).known = true ↔ ¬f.Unnamed (f.leading order bytes) := by
  rw [← f.toNat_word_eq_leading, not_unnamed_iff, read, hmode]
  exact beq_iff_eq

end FieldDef

namespace Definition

/-- What a field says that is shown as flags. Its line has the names of the flags that share a bit
with its number, and a line for each of them follows, in the order of the table; the step goes on
just where every bit of the number belongs to a flag. The number is that of the field, but only as
far as its eight most significant bytes. -/
theorem perform_field_flags (d : Definition) (data : Buffer) (maxDepth : Nat) {s : State}
    {step : FieldStep Nat} {start n : Nat} (hmode : (d.field step.field).print = .flags)
    (hstart : s.position step = start)
    (htakes : (d.field step.field).size.Takes data start (step.limit.map s.operand) n) :
    let f := d.field step.field
    let e := d.perform data maxDepth s (.act (.field step))
    let order := d.endianness.resolve s.store
    let bytes := data.bytes start n
    let number := f.leading order bytes
    (n ≤ 8 → number = f.amount order bytes) ∧
      (f.bits = none → number = f.amount order bytes >>> (8 * (n - 8))) ∧
      (f.Unnamed number → e.halted = some (.unknownValue start f.name)) ∧
      (¬f.Unnamed number → e.halted = none) ∧
      e.Plays s.tabs ((f.flagLines (if n = 0 then none else f.tooltip) (f.flagsOf number)).map
        (.wrote step.tab)) := by
  intro f e order bytes number
  have hlength : bytes.length = n := Buffer.length_bytes htakes.1
  have hnil : bytes = [] ↔ n = 0 := Buffer.bytes_eq_nil htakes.1
  have huses : d.Uses s step start bytes e := perform_uses d maxDepth hstart htakes
  have hhalted : e.halted = if bytes = [] ∨ (f.read order bytes).known then none
      else some (.unknownValue start f.name) := huses.halted
  refine ⟨fun hle => ?_, fun hbits => ?_, fun hunnamed => ?_, fun hnamed => ?_, ?_⟩
  · exact f.leading_eq_amount order (hlength.trans_le hle)
  · rw [← hlength]
    exact f.leading_eq_shiftRight order hbits
  · -- No bytes have no bits, so the line is not a blank one.
    have hsome : bytes ≠ [] := by
      intro hempty
      have hzero : number = 0 := by rw [← f.leading_nil order, ← hempty]
      exact f.not_unnamed_zero (hzero ▸ hunnamed)
    rw [hhalted, if_neg (not_or.2 ⟨hsome, ?_⟩)]
    rw [FieldDef.known_flags hmode]
    exact not_not.2 hunnamed
  · rw [hhalted, if_pos (.inr ((FieldDef.known_flags hmode order bytes).2 hnamed))]
  · have hplays := huses.plays
    rw [FieldDef.lines_flags hmode] at hplays
    simp only [hnil] at hplays
    exact hplays

def flagSample : Definition where
  name := "n"
  shortName := "s"
  endianness := .big
  colors := []
  fields := [
    { FieldDef.unused with size := .fixed 9, print := .flags, flags := [⟨"A", 1, "a"⟩] },
    { FieldDef.unused with
      size := .fixed 2, print := .flags, flags := [⟨"A", 1, "a"⟩, ⟨"B", 6, "b"⟩, ⟨"C", 2, "c"⟩] }]
  signatures := []
  blocks := []
  program := [.act (.field ⟨0, none, none, none, none⟩), .act (.field ⟨1, none, none, none, none⟩)]
  vars := []
  unused := 0

/-- Of the bits of thirteen the lowest and the third are those of flags, and the fourth of none. -/
theorem perform_field_flags_flagSample :
    let data : Buffer := #[0, 0, 0, 0, 0, 0, 0, 0, 0, 0, 13]
    let s := (flagSample.moment data {} 1).state
    let step : FieldStep Nat := ⟨1, none, none, none, none⟩
    let e := flagSample.perform data 0 s (.act (.field step))
    s.position step = 9 ∧ (flagSample.field 1).size.Takes data 9 none 2 ∧
      (flagSample.field 1).amount .big (data.bytes 9 2) = 13 ∧
      e.halted = some (.unknownValue 9 "unused data") ∧
      e.Plays [] [.wrote none ⟨"unused data", "A, B", none⟩, .wrote none ⟨"A", "a", none⟩,
        .wrote none ⟨"B", "b", none⟩] := by
  intro data s step e
  have hstart : s.position step = (9 : Nat) := by decide +kernel
  have htakes : (flagSample.field step.field).size.Takes data 9 (step.limit.map s.operand) 2 :=
    ⟨by decide, rfl⟩
  have hamount : (flagSample.field 1).amount .big (data.bytes 9 2) = 13 := by decide +kernel
  obtain ⟨hnumber, -, hhalts, -, hplays⟩ :=
    flagSample.perform_field_flags data 0 rfl hstart htakes
  have hthirteen := (hnumber (by decide)).trans hamount
  rw [hthirteen] at hhalts hplays
  have hunnamed : (flagSample.field 1).Unnamed 13 := ⟨3, by decide, by decide⟩
  have htabs : s.tabs = [] := by decide +kernel
  rw [htabs] at hplays
  exact ⟨hstart, htakes, hamount, hhalts hunnamed, hplays⟩

/-- In nine bytes neither the flag for the lowest bit is seen nor that the second one has none. -/
theorem not_halted_lowBits :
    let low : Buffer := #[0, 0, 0, 0, 0, 0, 0, 0, 1]
    let second : Buffer := #[0, 0, 0, 0, 0, 0, 0, 0, 2]
    let s := State.initial flagSample
    let step : FieldStep Nat := ⟨0, none, none, none, none⟩
    let f := flagSample.field 0
    let perform (data : Buffer) := flagSample.perform data 0 s (.act (.field step))
    flagSample.step? s.place = some (.act (.field step)) ∧
      f.size.Takes low 0 none 9 ∧ f.amount .big low.toList = 1 ∧
      f.flagsOf 1 = [⟨"A", 1, "a"⟩] ∧
      (perform low).Plays s.tabs [.wrote none ⟨f.name, "", none⟩] ∧
      f.size.Takes second 0 none 9 ∧ f.amount .big second.toList = 2 ∧
      f.Unnamed 2 ∧ (perform second).halted = none := by
  intro low second s step f perform
  refine ⟨rfl, ⟨by decide, rfl⟩, by decide +kernel, by decide +kernel, ⟨?_, ?_, ?_⟩,
    ⟨by decide, rfl⟩, by decide +kernel, ⟨1, by decide, by decide⟩, by decide +kernel⟩
  all_goals decide +kernel

end Definition

end Dissect
