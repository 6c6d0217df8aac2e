import Dissect.Proofs.Division
import Dissect.Proofs.Moments

/-! Variables as operands. Tests, loops, offsets and limits read the integer of a variable, cut to
its width; an arithmetic step takes the integer part of its value as it is. In a run these differ
only for a quotient that was left in less width than its integer part needs. -/
namespace Dissect

theorem Width.Has.qword {w : Width} {signed : Bool} {n : Int} (h : w.Has signed n) :
    Width.qword.Has signed n := by
  cases signed with
  | false =>
    have hle : (2 : Int) ^ w.bits ≤ 2 ^ 64 := by cases w <;> decide
    exact ⟨h.1, h.2.trans_le hle⟩
  | true =>
    have hle : (2 : Int) ^ (w.bits - 1) ≤ 2 ^ 63 := by cases w <;> decide
    exact ⟨(Int.neg_le_neg hle).trans h.1, h.2.trans_le hle⟩

namespace Value

def ofInt (n : Int) : Value :=
  if n < 0 then .signed (Int64.ofInt n) else .unsigned (UInt64.ofInt n)

theorem toInt_ofInt {n : Int} {signed : Bool} (h : Width.qword.Has signed n) :
    (ofInt n).toInt = n := by
  rw [ofInt]
  by_cases hneg : n < 0
  · have hhas : Width.qword.Has true n := by
      cases signed with
      | true => exact h
      | false => exact absurd h.1 (by omega)
    rw [if_pos hneg, toInt, Width.toInt_ofInt, Width.wrap_eq_self hhas]
  · obtain ⟨-, hlt⟩ := h.bounds
    have hhas : Width.qword.Has false n := ⟨by omega, hlt⟩
    rw [if_neg hneg, toInt, Width.toNat_ofInt, Width.wrap_eq_self hhas]

/-- What runs leave in a variable of a width: a word of the width, or a quotient of any width whose
integer part is a word. -/
def Settled (w : Width) : Value → Prop
  | .unsigned word => w.Has false word.toNat
  | .signed word => w.Has true word.toInt
  | .rational q => Width.qword.Has (q.truncate < 0) q.truncate

variable {w : Width} {value : Value}

theorem IsWord.settled {signed : Bool} {n : Int} (h : value.IsWord signed n)
    (hn : w.Has signed n) : value.Settled w := by
  cases value with
  | unsigned word =>
    obtain ⟨rfl, rfl⟩ := h
    exact hn
  | signed word =>
    obtain ⟨rfl, rfl⟩ := h
    exact hn
  | rational q => exact h.elim

theorem IsWord.unique {signed : Bool} {n : Int} {value' : Value} (h : value.IsWord signed n)
    (h' : value'.IsWord signed n) : value = value' := by
  cases value with
  | unsigned word =>
    cases value' with
    | unsigned word' =>
      exact congrArg Value.unsigned (UInt64.toNat_inj.1 (Int.natCast_inj.1 (h.2.trans h'.2.symm)))
    | signed word' => exact absurd (h.1.symm.trans h'.1) Bool.false_ne_true
    | rational q => exact h'.elim
  | signed word =>
    cases value' with
    | unsigned word' => exact absurd (h'.1.symm.trans h.1) Bool.false_ne_true
    | signed word' => exact congrArg Value.signed (Int64.toInt_inj.1 (h.2.trans h'.2.symm))
    | rational q => exact h'.elim
  | rational q => exact h.elim

theorem Settled.has_qword (h : value.Settled w) : Width.qword.Has value.isSigned value.toInt := by
  cases value with
  | unsigned word => exact Width.has_toNat word
  | signed word => exact Width.has_toInt word
  | rational q => exact h

end Value

/-- The integer part of a quotient of two words is one, though of the other sort where both are
below zero. -/
theorem Ratio.quotient_settled {signed : Bool} {n d : Int} (hn : Width.qword.Has signed n)
    (hd : Width.qword.Has signed d) (w : Width) : (Value.rational (quotient n d)).Settled w := by
  have htruncate : (quotient n d).truncate = n.tdiv d := by
    by_cases hzero : d = 0
    · rw [hzero, quotient, if_pos (.inl rfl), Int.tdiv_zero]
      rfl
    · exact (quotient_isQuotient n hzero).truncate hzero
  have habs : (n.tdiv d).natAbs ≤ n.natAbs := (Int.natAbs_tdiv n d).trans_le (Nat.div_le_self ..)
  change Width.qword.Has ((quotient n d).truncate < 0) (quotient n d).truncate
  rw [htruncate]
  cases signed with
  | false =>
    obtain ⟨hle, hlt⟩ : 0 ≤ n ∧ n < 2 ^ 64 := hn
    have hpos : 0 ≤ n.tdiv d := Int.tdiv_nonneg hle hd.1
    rw [decide_eq_false (by omega)]
    exact ⟨hpos, show n.tdiv d < 2 ^ 64 by omega⟩
  | true =>
    obtain ⟨hle, hlt⟩ : -2 ^ 63 ≤ n ∧ n < 2 ^ 63 := hn
    by_cases hneg : n.tdiv d < 0
    · rw [decide_eq_true hneg]
      exact ⟨show -2 ^ 63 ≤ n.tdiv d by omega, show n.tdiv d < 2 ^ 63 by omega⟩
    · rw [decide_eq_false hneg]
      exact ⟨by omega, show n.tdiv d < 2 ^ 64 by omega⟩

namespace ArithOp

/-- What an operation leaves: a quotient that is set, as it was; the quotient of two words; or an
integer of the width. -/
theorem apply_cases (op : ArithOp) (signed : Bool) (current : Option Variable) (rhs : Value)
    (width : Width) :
    (∃ q, rhs = .rational q ∧ op.apply signed current rhs width = .rational q) ∨
      (∃ n d, Width.qword.Has signed n ∧ Width.qword.Has signed d ∧
        op.apply signed current rhs width = .rational (Ratio.quotient n d)) ∨
      ∃ n, width.Has signed n ∧ (op.apply signed current rhs width).IsWord signed n := by
  by_cases hdiv : op = .div
  · have hword := Width.qword.has_wrap signed
    rw [hdiv, div_apply]
    exact .inr (.inl ⟨_, _, hword _, hword _, rfl⟩)
  · by_cases hset : op = .set ∧ ∃ q, rhs = .rational q
    · obtain ⟨rfl, q, rfl⟩ := hset
      exact .inl ⟨q, rfl, rfl⟩
    · have hword := apply_isWord hdiv signed current
        (fun hop q hq => hset ⟨hop, q, hq⟩) width
      exact .inr (.inr ⟨_, width.has_wrap signed _, hword⟩)

theorem apply_settled (op : ArithOp) (signed : Bool) (current : Option Variable) {rhs : Value}
    {w : Width} (h : rhs.Settled w) (width : Width) :
    (op.apply signed current rhs width).Settled width := by
  obtain ⟨q, rfl, hq⟩ | ⟨n, d, hn, hd, hq⟩ | ⟨n, hn, hword⟩ :=
    op.apply_cases signed current rhs width
  · rw [hq]
    exact h
  · rw [hq]
    exact Ratio.quotient_settled hn hd width
  · exact hword.settled hn

/-- But for a quotient that is set, an operation takes of its operand what is in a word. -/
theorem apply_congr {op : ArithOp} (hop : op ≠ .set) {signed : Bool} {rhs rhs' : Value}
    (h : Width.qword.wrap signed rhs.toInt = Width.qword.wrap signed rhs'.toInt)
    (current : Option Variable) (width : Width) :
    op.apply signed current rhs width = op.apply signed current rhs' width := by
  by_cases hdiv : op = .div
  · rw [hdiv, div_apply, div_apply, h]
  · have hset (value : Value) : op = .set → ∀ q, value ≠ .rational q := fun h => absurd h hop
    have hword := apply_isWord hdiv signed current (hset rhs) width
    have hword' := apply_isWord hdiv signed current (hset rhs') width
    rw [h] at hword
    exact hword.unique hword'

end ArithOp

theorem FieldDef.capture_settled (f : FieldDef Nat) (order : ByteOrder) (bytes : List UInt8) :
    (f.capture order bytes).value.Settled (f.capture order bytes).width := by
  have hsigned (w : Width) (x : Int64) : (Value.signed (w.wrapSigned x)).Settled w :=
    Value.IsWord.settled ⟨rfl, w.toInt_wrapSigned x⟩ (w.has_wrap true _)
  have hunsigned (w : Width) (x : UInt64) : (Value.unsigned (w.wrapUnsigned x)).Settled w :=
    Value.IsWord.settled ⟨rfl, w.toNat_wrapUnsigned x⟩ (w.has_wrap false _)
  rw [capture, Variable.withRaw]
  split
  · exact hsigned _ _
  · exact hunsigned _ _

/-! ### Variables of a run -/

def Store.Settled (s : Store) : Prop := ∀ id v, s.get? id = some v → v.value.Settled v.width

namespace Store
variable {s : Store}

theorem settled_empty (count : Nat) : (empty count).Settled := by
  intro id v hv
  rw [get?_empty] at hv
  cases hv

theorem Settled.set (h : s.Settled) (id : Nat) {v : Variable} (hv : v.value.Settled v.width) :
    (s.set id v).Settled := forall_get?_set (P := fun v => v.value.Settled v.width) h hv

end Store

namespace Definition
variable {d : Definition} {data : Buffer} {config : Config} {s : State}

theorem operandValue_settled (h : s.store.Settled) (o : Operand Nat) :
    ∃ w, (s.operandValue o).Settled w := by
  cases o with
  | literal x =>
    refine ⟨.qword, ?_⟩
    rw [State.operandValue]
    split
    · exact Width.has_toInt x
    · exact Width.has_toNat x.toUInt64
  | var id =>
    rw [State.operandValue]
    cases hv : s.store.get? id with
    | none => exact ⟨.qword, Width.has_toNat 0⟩
    | some v => exact ⟨v.width, h id v hv⟩

theorem Stores.settled {step : Step Nat} {store : Store} (hstep : Stores s step store)
    (h : s.store.Settled) : store.Settled := by
  cases hstep with
  | kept => exact h
  | captured step id hid f order bytes => exact h.set id (f.capture_settled order bytes)
  | computed step =>
    obtain ⟨w, hw⟩ := operandValue_settled h step.operand
    exact h.set step.var (step.op.apply_settled step.signed _ hw _)

theorem moment_settled (n : Nat) : (d.moment data config n).state.store.Settled :=
  moment_memory_induct (P := fun memory _ => memory.store.Settled) (Store.settled_empty _)
    (fun s _ step h => (perform_stores config.maxBlockDepth s step).settled h) n

end Definition

/-! ### Readers of a variable -/

/-- The integer that every step but arithmetic reads in a variable: as what is tested, or what
another variable is tested against; in the condition of a loop; as an offset and as a limit. -/
structure State.ReadsAs (s : State) (d : Definition) (data : Buffer) (id : Nat) (n : Int) :
    Prop where
  tested : ∀ o, (d.holds data s (.var id (.equals o)) ↔ n = s.operand o) ∧
    (d.holds data s (.var id (.greater o)) ↔ s.operand o < n) ∧
    (d.holds data s (.var id (.bit o)) ↔ UInt64.ofInt n &&& UInt64.ofInt (s.operand o) ≠ 0) ∧
    (Definition.continues data s (.below id o) ↔ n < s.operand o)
  compared : ∀ other m, s.store.integer? other = some m →
    (d.holds data s (.var other (.equals (.var id))) ↔ m = n) ∧
    (d.holds data s (.var other (.greater (.var id))) ↔ n < m) ∧
    (d.holds data s (.var other (.bit (.var id))) ↔ UInt64.ofInt m &&& UInt64.ofInt n ≠ 0) ∧
    (Definition.continues data s (.below other (.var id)) ↔ m < n)
  offset : ∀ step : FieldStep Nat, step.offset = some (.var id) →
    d.fieldStep data s step =
      if 0 ≤ n ∧ n ≤ data.size then
        let effect := d.readField data { s with cursor := n.toNat } (d.field step.field) step
        { effect with state := { effect.state with cursor := s.cursor } }
      else { state := s, halted := some (.exhausted s.cursor (d.field step.field).name) }
  limit : ∀ (f : FieldDef Nat) (step : FieldStep Nat), step.limit = some (.var id) →
    f.bits = none →
    match f.size.resolve data s.cursor (some n) with
    | none => (d.readField data s f step).halted = some (.exhausted s.cursor f.name)
    | some size => (d.readField data s f step).state.cursor = s.cursor + size

theorem State.readsAs {s : State} {id : Nat} {n : Int} (h : s.store.integer? id = some n)
    (d : Definition) (data : Buffer) : s.ReadsAs d data id n := by
  have hoperand : s.operand (.var id) = n := by rw [operand, h]; rfl
  constructor
  case tested =>
    intro o
    simp [Definition.holds, Definition.continues, h]
  case compared =>
    intro other m hm
    simp [Definition.holds, Definition.continues, hm, hoperand]
  case offset =>
    intro step hstep
    rw [Definition.fieldStep, hstep, Option.map_some, hoperand]
  case limit =>
    intro f step hstep hbits
    have hlimit : step.limit.map s.operand = some n := by rw [hstep, Option.map_some, hoperand]
    rw [Definition.readField, hlimit]
    cases f.size.resolve data s.cursor (some n) with
    | none => rfl
    | some size =>
      cases size with
      | zero => cases step.tab <;> rfl
      | succ size => simp [hbits]

namespace Variable
variable (v : Variable)

/-- Nothing of the integer part is cut off at the width. -/
def Whole : Prop := v.width.Has v.value.isSigned v.value.toInt

theorem integer_eq_iff : v.integer = v.value.toInt ↔ v.Whole := by
  rw [integer_eq, Width.wrap_eq_self_iff, Whole]

theorem whole_of_settled {v : Variable} (h : v.value.Settled v.width)
    (hq : ∀ q, v.value ≠ .rational q) : v.Whole := by
  obtain ⟨w, value, raw⟩ := v
  cases value with
  | rational q => exact absurd rfl (hq q)
  | _ => exact h

end Variable

namespace Store
variable {s : Store} {id : Nat} {rhs rhs' : Value}

theorem apply_congr {op : ArithOp} (hop : op ≠ .set) {signed : Bool}
    (h : Width.qword.wrap signed rhs.toInt = Width.qword.wrap signed rhs'.toInt)
    (width : Option Width) :
    s.apply id op signed (some rhs) width = s.apply id op signed (some rhs') width := by
  rw [apply, apply, Option.getD_some, Option.getD_some, ArithOp.apply_congr hop h]

theorem toInt_add_modEq (s : Store) (id : Nat) (rhs : Value) :
    (ArithOp.add.apply false (s.get? id) rhs .qword).toInt ≡
      (s.widthOf id).wrap false (s.integerOf id) + rhs.toInt [ZMOD 2 ^ 64] := by
  have hset : ArithOp.add = .set → ∀ q, some rhs ≠ some (.rational q) := by
    rintro ⟨⟩
  have hword := (s.apply_isWord id (by decide) false hset .qword).toInt_eq
  have hright := Width.qword.wrap_modEq false rhs.toInt
  exact (hword ▸ Width.qword.wrap_modEq false _).trans (hright.add_left _)

theorem modEq_of_apply_add (h : s.apply id .add false (some rhs) (some .qword) =
    s.apply id .add false (some rhs') (some .qword)) : rhs.toInt ≡ rhs'.toInt [ZMOD 2 ^ 64] := by
  have hslot : (s.apply id .add false (some rhs) (some .qword)).get? id =
      (s.apply id .add false (some rhs') (some .qword)).get? id := by rw [h]
  rw [get?_apply, get?_apply, if_pos rfl, if_pos rfl] at hslot
  have hvalue : ArithOp.add.apply false (s.get? id) rhs .qword =
      ArithOp.add.apply false (s.get? id) rhs' .qword :=
    congrArg Variable.value (Option.some.inj hslot)
  have hsum := s.toInt_add_modEq id rhs
  rw [hvalue] at hsum
  exact Int.ModEq.add_left_cancel' _ (hsum.symm.trans (s.toInt_add_modEq id rhs'))

end Store

/-- Arithmetic takes a variable for an integer: a step leaves what it leaves with that integer for
its operand. -/
structure State.TakesAs (s : State) (d : Definition) (id : Nat) (n : Int) : Prop where
  word : (Value.ofInt n).toInt = n
  exec : ∀ step : ExecStep Nat, step.operand = .var id → step.op ≠ .set →
    (d.execStep s step).state.store =
      s.store.apply step.var step.op step.signed (some (.ofInt n)) step.width

namespace State.TakesAs
variable {s : State} {d : Definition} {id : Nat}

theorem of_value {v : Variable} (hv : s.store.get? id = some v)
    (hword : (Value.ofInt v.value.toInt).toInt = v.value.toInt) :
    s.TakesAs d id v.value.toInt := by
  constructor
  case word => exact hword
  case exec =>
    intro step hvar hop
    have hvalue : s.operandValue step.operand = v.value := by
      rw [hvar, operandValue, hv]
      rfl
    have hsame : Width.qword.wrap step.signed v.value.toInt =
        Width.qword.wrap step.signed (Value.ofInt v.value.toInt).toInt := by rw [hword]
    rw [Definition.execStep, hvalue]
    exact Store.apply_congr hop hsame step.width

theorem modEq {m n : Int} (hm : s.TakesAs d id m) (hn : s.TakesAs d id n) :
    m ≡ n [ZMOD 2 ^ 64] := by
  -- What the variable is added to does not matter, so it is the variable itself.
  have hop : ArithOp.add ≠ .set := by decide
  have hadd := (hm.exec ⟨id, .add, false, .var id, some .qword⟩ rfl hop).symm.trans
    (hn.exec ⟨id, .add, false, .var id, some .qword⟩ rfl hop)
  have hmod := Store.modEq_of_apply_add hadd
  rwa [hm.word, hn.word] at hmod

end State.TakesAs

namespace Definition

variable (d : Definition) (data : Buffer) (config : Config)

/-- A variable as an operand, at any moment of a run. Every other step reads its integer, and
arithmetic its integer part; these are the same just where nothing is cut off at the width, as is
so with every variable but a quotient. -/
theorem moment_operand (n : Nat) {id : Nat} {v : Variable}
    (hv : (d.moment data config n).state.store.get? id = some v) :
    (d.moment data config n).state.ReadsAs d data id v.integer ∧
      (d.moment data config n).state.TakesAs d id v.value.toInt ∧
      ((d.moment data config n).state.TakesAs d id v.integer ↔ v.Whole) ∧
      ((∀ q, v.value ≠ .rational q) → v.Whole) := by
  have hsettled : v.value.Settled v.width := moment_settled n id v hv
  have hinteger : (d.moment data config n).state.store.integer? id = some v.integer := by
    rw [Store.integer?, hv]
    rfl
  have htakes : (d.moment data config n).state.TakesAs d id v.value.toInt :=
    .of_value hv (Value.toInt_ofInt hsettled.has_qword)
  refine ⟨State.readsAs hinteger d data, htakes, ⟨fun h => ?_, fun h => ?_⟩,
    Variable.whole_of_settled hsettled⟩
  · have hwrap := Width.qword.wrap_congr v.value.isSigned (h.modEq htakes)
    rw [Width.wrap_eq_self v.integer_has.qword, Width.wrap_eq_self hsettled.has_qword] at hwrap
    exact v.integer_eq_iff.1 hwrap
  · rw [v.integer_eq_iff.2 h]
    exact htakes

def quotientSample : Definition where
  name := "n"
  shortName := "s"
  endianness := .big
  colors := []
  fields := [.unused]
  signatures := []
  blocks := []
  program := [.act (.exec ⟨0, .set, false, .literal 300, none⟩),
    .act (.exec ⟨0, .div, false, .literal 1, some .byte⟩),
    .act (.exec ⟨1, .add, false, .var 0, none⟩)]
  vars := ["a", "b"]
  unused := 0

theorem moment_operand_quotientSample :
    let s := (quotientSample.moment #[] {} 2).state
    let v : Variable := ⟨.byte, .rational ⟨300, 1⟩, []⟩
    s.store.get? 0 = some v ∧ s.ReadsAs quotientSample #[] 0 44 ∧ s.TakesAs quotientSample 0 300 ∧
      ¬s.TakesAs quotientSample 0 44 := by
  intro s v
  have hv : s.store.get? 0 = some v := by decide +kernel
  obtain ⟨hreads, htakes, hwhole, -⟩ := quotientSample.moment_operand #[] {} 2 hv
  have hinteger : v.integer = 44 := by decide
  have hcut : ¬v.Whole := fun h => absurd (v.integer_eq_iff.2 h) (by decide)
  rw [hinteger] at hreads hwhole
  exact ⟨hv, hreads, htakes, fun h => hcut (hwhole.1 h)⟩

/-- What equals 44 to a test is 300 to a sum. -/
theorem execStep_ne_integer_quotientSample :
    let s := (quotientSample.moment #[] {} 2).state
    let step : ExecStep Nat := ⟨1, .add, false, .var 0, none⟩
    s.store.integer? 0 = some 44 ∧ quotientSample.holds #[] s (.var 0 (.equals (.literal 44))) ∧
      ((quotientSample.execStep s step).state.store.integer? 1 = some 300) ∧
      (quotientSample.execStep s step).state.store ≠
        s.store.apply 1 .add false (some (.unsigned 44)) none := by
  decide +kernel

end Definition

end Dissect
