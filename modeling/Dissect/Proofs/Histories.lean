import Dissect.Proofs.Operands
import Mathlib.Data.Finset.Card
import Mathlib.Data.Finset.Dedup

/-! Histories of a store. Numbers are stored in its variables and operations are carried out on
them, in any order and at any width, and what the variables hold stays in form. The operand of an
operation may be what another variable holds, so a quotient moves from one width to another. -/
namespace Dissect

structure Ratio.Reduced (q : Ratio) : Prop where
  pos : 0 < q.den
  coprime : q.num.natAbs.Coprime q.den

theorem Ratio.quotient_reduced (n d : Int) : (quotient n d).Reduced := by
  by_cases hd : d = 0
  · rw [hd, quotient, if_pos (.inl rfl)]
    exact ⟨by decide, by decide⟩
  · have h := quotient_isQuotient n hd
    exact ⟨h.pos, h.reduced⟩

namespace Value

/-- A value in form at a width. An integer is one of the width; a quotient is reduced, and of any
size. -/
def InForm (w : Width) : Value → Prop
  | .unsigned word => w.Has false word.toNat
  | .signed word => w.Has true word.toInt
  | .rational q => q.Reduced

theorem IsWord.inForm {w : Width} {value : Value} {signed : Bool} {n : Int}
    (h : value.IsWord signed n) (hn : w.Has signed n) : value.InForm w := by
  have hsettled := h.settled hn
  cases value with
  | rational q => exact h.elim
  | _ => exact hsettled

end Value

/-- An operation leaves a value in form. Only a quotient that is set is the operand as it was. -/
theorem ArithOp.apply_inForm (op : ArithOp) (signed : Bool) (current : Option Variable)
    {rhs : Value}
    (h : ∀ q, rhs = .rational q → q.Reduced) (width : Width) :
    (op.apply signed current rhs width).InForm width := by
  obtain ⟨q, rfl, hq⟩ | ⟨n, d, -, -, hq⟩ | ⟨n, hn, hword⟩ :=
    op.apply_cases signed current rhs width
  · rw [hq]
    exact h q rfl
  · rw [hq]
    exact Ratio.quotient_reduced n d
  · exact hword.inForm hn

/-- A variable in form: its value is, its integer is one of its width with a sign or without, and
the views in either sort are that integer but for multiples of the width. -/
structure Variable.InForm (v : Variable) : Prop where
  value : v.value.InForm v.width
  integer : -2 ^ (v.width.bits - 1) ≤ v.integer ∧ v.integer ≤ 2 ^ v.width.bits - 1
  asUnsigned : (v.asUnsigned.toNat : Int) ≡ v.integer [ZMOD 2 ^ v.width.bits]
  asSigned : v.asSigned.toInt ≡ v.integer [ZMOD 2 ^ v.width.bits]

theorem Variable.inForm_of_value {v : Variable} (h : v.value.InForm v.width) : v.InForm := by
  have hview (signed : Bool) : v.view signed ≡ v.integer [ZMOD 2 ^ v.width.bits] :=
    v.view_eq signed ▸ v.width.wrap_modEq signed v.integer
  constructor
  case value => exact h
  case integer =>
    obtain ⟨hle, hlt⟩ := v.integer_has.bounds
    exact ⟨hle, Int.le_sub_one_of_lt hlt⟩
  case asUnsigned => exact hview false
  case asSigned => exact hview true

/-- A number as it is given to a store: a word of either sort, or a quotient by its two sides. -/
inductive Number where
  | unsigned (word : UInt64)
  | signed (word : Int64)
  | quotient (num den : Int)
  deriving DecidableEq, Repr

namespace Number

def value : Number → Value
  | .unsigned word => .unsigned word
  | .signed word => .signed word
  | .quotient num den => .rational (Ratio.quotient num den)

def stored (n : Number) (width : Width) : Variable :=
  match n with
  | .unsigned word => .ofUnsigned width word
  | .signed word => .ofSigned width word
  | .quotient num den => ⟨width, .rational (Ratio.quotient num den), []⟩

theorem stored_inForm (n : Number) (w : Width) :
    (n.stored w).value.InForm (n.stored w).width := by
  cases n with
  | unsigned word => exact Value.IsWord.inForm ⟨rfl, w.toNat_wrapUnsigned word⟩ (w.has_wrap false _)
  | signed word => exact Value.IsWord.inForm ⟨rfl, w.toInt_wrapSigned word⟩ (w.has_wrap true _)
  | quotient num den => exact Ratio.quotient_reduced num den

theorem reduced_of_value {n : Number} {q : Ratio} (h : n.value = .rational q) : q.Reduced := by
  cases n with
  | quotient num den =>
    cases h
    exact Ratio.quotient_reduced num den
  | _ => cases h

end Number

namespace Store

inductive Argument where
  | missing
  | given (n : Number)
  | held (id : Nat)
  deriving DecidableEq, Repr

def Argument.value? (s : Store) : Argument → Option Value
  | .missing => none
  | .given n => some n.value
  | .held id => (s.get? id).map Variable.value

inductive Op where
  | set (id : Nat) (width : Width) (n : Number) (raw : List UInt8)
  | apply (id : Nat) (op : ArithOp) (signed : Bool) (operand : Argument) (width : Option Width)
  deriving DecidableEq, Repr

def Op.target : Op → Nat
  | .set id .. => id
  | .apply id .. => id

def perform (s : Store) : Op → Store
  | .set id width n raw => s.set id ((n.stored width).withRaw raw)
  | .apply id op signed operand width => s.apply id op signed (operand.value? s) width

def after (count : Nat) (ops : List Op) : Store := ops.foldl perform (empty count)

variable {s : Store}

/-! ### One operation -/

def InForm (s : Store) : Prop := ∀ id v, s.get? id = some v → v.value.InForm v.width

theorem InForm.reduced (h : s.InForm) {operand : Argument} {q : Ratio}
    (hq : operand.value? s = some (.rational q)) : q.Reduced := by
  cases operand with
  | missing => cases hq
  | given n => exact Number.reduced_of_value (Option.some.inj hq)
  | held id =>
    obtain ⟨v, hv, hvalue⟩ := Option.map_eq_some_iff.1 hq
    have hform := h id v hv
    rw [hvalue] at hform
    exact hform

/-- An operation writes its target, and writes there a variable in form if the store is. -/
theorem perform_eq_set (s : Store) (op : Op) :
    ∃ v, s.perform op = s.set op.target v ∧ (s.InForm → v.value.InForm v.width) := by
  cases op with
  | set id width n raw => exact ⟨_, rfl, fun _ => n.stored_inForm width⟩
  | apply id op signed operand width =>
    refine ⟨_, rfl, fun h => op.apply_inForm signed (s.get? id) ?_ _⟩
    intro q hq
    cases hvalue : operand.value? s with
    | none =>
      rw [hvalue] at hq
      cases hq
    | some rhs =>
      rw [hvalue] at hq
      exact h.reduced (hvalue.trans (congrArg some hq))

theorem InForm.perform (h : s.InForm) (op : Op) : (s.perform op).InForm := by
  obtain ⟨v, hset, hv⟩ := s.perform_eq_set op
  rw [hset]
  exact forall_get?_set (P := fun v => v.value.InForm v.width) h (hv h)

theorem get?_perform (s : Store) (op : Op) {other : Nat} (h : other ≠ op.target) :
    (s.perform op).get? other = s.get? other := by
  obtain ⟨v, hset, -⟩ := s.perform_eq_set op
  rw [hset, get?_set, if_neg h]

theorem isDefined_perform (s : Store) (op : Op) (id : Nat) :
    (s.perform op).isDefined id ↔ id = op.target ∨ s.isDefined id := by
  obtain ⟨v, hset, -⟩ := s.perform_eq_set op
  rw [isDefined, hset, get?_set]
  by_cases hid : id = op.target
  · simp [hid]
  · simp [hid, isDefined]

theorem countP_put (v : Variable) (id : Nat) (slots : List (Option Variable)) :
    (put v id slots).countP Option.isSome =
      if (slots[id]?).join.isSome then slots.countP Option.isSome
      else slots.countP Option.isSome + 1 := by
  induction id generalizing slots with
  | zero =>
    cases slots with
    | nil => rfl
    | cons slot slots => cases slot <;> simp [put]
  | succ id ih =>
    cases slots with
    | nil => exact ih []
    | cons slot slots =>
      rw [put, List.countP_cons, List.countP_cons, ih, List.getElem?_cons_succ]
      split <;> omega

theorem definedCount_perform (s : Store) (op : Op) :
    (s.perform op).definedCount =
      if s.isDefined op.target then s.definedCount else s.definedCount + 1 := by
  obtain ⟨v, hset, -⟩ := s.perform_eq_set op
  rw [hset]
  exact countP_put v op.target s.slots

/-! ### Histories -/

section
variable (count : Nat)

theorem after_concat (ops : List Op) (op : Op) :
    after count (ops ++ [op]) = (after count ops).perform op := by
  rw [after, List.foldl_append]
  rfl

theorem after_inForm (ops : List Op) : (after count ops).InForm := by
  induction ops using List.reverseRecOn with
  | nil =>
    intro id v hv
    rw [after, List.foldl_nil, get?_empty] at hv
    cases hv
  | append_singleton ops op ih =>
    rw [after_concat]
    exact ih.perform op

theorem after_isDefined (ops : List Op) (id : Nat) :
    (after count ops).isDefined id ↔ id ∈ ops.map Op.target := by
  induction ops using List.reverseRecOn with
  | nil => simp [after, isDefined]
  | append_singleton ops op ih =>
    rw [after_concat, isDefined_perform, ih, List.map_append, List.mem_append, List.map_singleton,
      List.mem_singleton, or_comm]

theorem after_definedCount (ops : List Op) :
    (after count ops).definedCount = (ops.map Op.target).toFinset.card := by
  induction ops using List.reverseRecOn with
  | nil => simp [after, empty, definedCount]
  | append_singleton ops op ih =>
    have hmem : (after count ops).isDefined op.target ↔ op.target ∈ (ops.map Op.target).toFinset :=
      (after_isDefined count ops op.target).trans List.mem_toFinset.symm
    have hinsert : ((ops ++ [op]).map Op.target).toFinset =
        insert op.target (ops.map Op.target).toFinset := by
      rw [List.map_append, List.toFinset_append, List.map_singleton, Finset.insert_eq,
        Finset.union_comm]
      rfl
    rw [after_concat, definedCount_perform, ih, hinsert]
    by_cases hdefined : (after count ops).isDefined op.target
    · rw [if_pos hdefined, Finset.insert_eq_of_mem (hmem.1 hdefined)]
    · rw [if_neg hdefined, Finset.card_insert_of_notMem (mt hmem.2 hdefined)]

/-- At any point of its history the variables of a store are in form, those that were written are
defined and stay so, however far past the end they are, and what is done next changes one only. -/
theorem after_history (ops : List Op) :
    let s := after count ops
    (∀ id v, s.get? id = some v → v.InForm) ∧
      (∀ id, s.isDefined id ↔ id ∈ ops.map Op.target) ∧
      (∀ later id, s.isDefined id → (after count (ops ++ later)).isDefined id) ∧
      (∀ op other, other ≠ op.target →
        (after count (ops ++ [op])).get? other = s.get? other) ∧
      s.definedCount = (ops.map Op.target).toFinset.card := by
  intro s
  refine ⟨fun id v hv => Variable.inForm_of_value (after_inForm count ops id v hv),
    after_isDefined count ops, fun later id hid => ?_, fun op other hother => ?_,
    after_definedCount count ops⟩
  · rw [after_isDefined, List.map_append]
    exact List.mem_append_left _ ((after_isDefined count ops id).1 hid)
  · rw [after_concat]
    exact get?_perform s op hother

end

/-- A quotient below zero, which a byte past the end takes over before one is subtracted there. -/
def quotientHistory : List Op :=
  [.set 0 .word (.quotient 700 (-2)) [], .apply 3 .set false (.held 0) (some .byte),
    .apply 3 .sub true (.given (.signed 1)) none]

theorem after_history_quotientHistory :
    let s := after 1 quotientHistory
    s.get? 0 = some ⟨.word, .rational ⟨-350, 1⟩, []⟩ ∧
      (⟨.word, .rational ⟨-350, 1⟩, []⟩ : Variable).InForm ∧
      s.get? 3 = some ⟨.byte, .signed (-95), []⟩ ∧
      (⟨.byte, .signed (-95), []⟩ : Variable).InForm ∧ s.definedCount = 2 := by
  intro s
  have hquotient : s.get? 0 = some ⟨.word, .rational ⟨-350, 1⟩, []⟩ := by decide
  have hdifference : s.get? 3 = some ⟨.byte, .signed (-95), []⟩ := by decide
  obtain ⟨hform, -, -, -, hcount⟩ := after_history 1 quotientHistory
  exact ⟨hquotient, hform 0 _ hquotient, hdifference, hform 3 _ hdifference, hcount⟩

end Store

end Dissect
