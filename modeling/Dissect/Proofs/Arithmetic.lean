import Dissect.Proofs.Renumbering
import Mathlib.Data.Int.ModEq

/-! Arithmetic of variables against that of integers. A width keeps the residue of an integer, so an
operation on words is the operation on the integers they stand for, wrapped to the width of the
result; the two operations that a residue does not decide stay within their words. -/
namespace Dissect

namespace Width
variable (w : Width) (signed : Bool) {m n : Int}

/-- What is left of an integer at a width: its residue, and if it may have a sign the one in two's
complement. -/
def wrap (n : Int) : Int := if signed then n.bmod (2 ^ w.bits) else n % 2 ^ w.bits

def Has (n : Int) : Prop :=
  if signed then -2 ^ (w.bits - 1) ≤ n ∧ n < 2 ^ (w.bits - 1) else 0 ≤ n ∧ n < 2 ^ w.bits

theorem bits_le : w.bits ≤ 64 := by cases w <;> decide

theorem two_pow_bits : (2 : Int) ^ w.bits = 2 * 2 ^ (w.bits - 1) := by cases w <;> rfl

variable {w signed} in
theorem Has.bounds (h : w.Has signed n) : -2 ^ (w.bits - 1) ≤ n ∧ n < 2 ^ w.bits := by
  have hhalf := w.two_pow_bits
  have hpos : (0 : Int) < 2 ^ (w.bits - 1) := Int.pow_pos (by decide)
  cases signed with
  | false =>
    obtain ⟨hle, hlt⟩ : 0 ≤ n ∧ n < 2 ^ w.bits := h
    exact ⟨by omega, hlt⟩
  | true =>
    obtain ⟨hle, hlt⟩ : -2 ^ (w.bits - 1) ≤ n ∧ n < 2 ^ (w.bits - 1) := h
    exact ⟨hle, by omega⟩

theorem wrap_modEq (n : Int) : w.wrap signed n ≡ n [ZMOD 2 ^ w.bits] := by
  cases signed with
  | false => exact Int.mod_modEq n _
  | true =>
    have h : n.bmod (2 ^ w.bits) % (2 ^ w.bits : Nat) = n % (2 ^ w.bits : Nat) := Int.bmod_emod
    exact_mod_cast h

theorem wrap_congr (h : m ≡ n [ZMOD 2 ^ w.bits]) : w.wrap signed m = w.wrap signed n := by
  cases signed with
  | false => exact h
  | true =>
    have hmod : m % (2 ^ w.bits : Nat) = n % (2 ^ w.bits : Nat) := by exact_mod_cast h
    exact (Int.emod_bmod m _).symm.trans (hmod ▸ Int.emod_bmod n _)

theorem wrap_qword (signed' : Bool) (n : Int) :
    w.wrap signed (qword.wrap signed' n) = w.wrap signed n := by
  have hdvd : (2 : Int) ^ w.bits ∣ 2 ^ qword.bits := pow_dvd_pow 2 w.bits_le
  exact w.wrap_congr signed ((qword.wrap_modEq signed' n).of_dvd hdvd)

theorem has_wrap (n : Int) : w.Has signed (w.wrap signed n) := by
  have hhalf := w.two_pow_bits
  cases signed with
  | false =>
    have hpos : (0 : Int) < 2 ^ w.bits := Int.pow_pos (by decide)
    exact ⟨Int.emod_nonneg n hpos.ne', Int.emod_lt_of_pos n hpos⟩
  | true =>
    have hle := Int.le_bmod (x := n) (Nat.two_pow_pos w.bits)
    have hlt := Int.bmod_lt (x := n) (Nat.two_pow_pos w.bits)
    rw [Int.natCast_pow, Int.cast_ofNat_Int] at hle hlt
    refine ⟨?_, ?_⟩
    · change -_ ≤ n.bmod _
      omega
    · change n.bmod _ < _
      omega

variable {w signed} in
theorem wrap_eq_self (h : w.Has signed n) : w.wrap signed n = n := by
  have hhalf := w.two_pow_bits
  cases signed with
  | false => exact Int.emod_eq_of_lt h.1 h.2
  | true =>
    obtain ⟨hle, hlt⟩ : -2 ^ (w.bits - 1) ≤ n ∧ n < 2 ^ (w.bits - 1) := h
    refine Int.bmod_eq_of_le ?_ ?_
    all_goals
      rw [Int.natCast_pow, Int.cast_ofNat_Int]
      omega

theorem wrap_eq_self_iff : w.wrap signed n = n ↔ w.Has signed n :=
  ⟨fun h => h ▸ w.has_wrap signed n, wrap_eq_self⟩

/-! ### Words -/

theorem toInt_ofInt (n : Int) : (Int64.ofInt n).toInt = qword.wrap true n := Int64.toInt_ofInt

theorem toNat_ofInt (n : Int) : ((UInt64.ofInt n).toNat : Int) = qword.wrap false n := by
  obtain ⟨hnonneg, hlt⟩ := qword.has_wrap false n
  have hnat : (n % 2 ^ 64).toNat < UInt64.size := (Int.toNat_lt hnonneg).2 hlt
  rw [UInt64.ofInt, UInt64.toNat_ofNat_of_lt' hnat]
  exact Int.toNat_of_nonneg hnonneg

theorem has_toInt (x : Int64) : qword.Has true x.toInt := ⟨x.le_toInt, x.toInt_lt⟩

theorem has_toNat (x : UInt64) : qword.Has false x.toNat :=
  ⟨Int.natCast_nonneg _, by exact_mod_cast x.toNat_lt⟩

theorem toInt_wrapSigned (x : Int64) : (w.wrapSigned x).toInt = w.wrap true x.toInt := by
  rw [wrapSigned, Nat.one_shiftLeft, toInt_ofInt]
  change qword.wrap true (w.wrap true x.toInt) = _
  refine wrap_eq_self ?_
  have hpow : (2 : Int) ^ (w.bits - 1) ≤ 2 ^ 63 := by cases w <;> decide
  obtain ⟨hle, hlt⟩ := w.has_wrap true x.toInt
  exact ⟨(Int.neg_le_neg hpow).trans hle, hlt.trans_le hpow⟩

theorem toNat_wrapUnsigned (x : UInt64) :
    ((w.wrapUnsigned x).toNat : Int) = w.wrap false x.toNat := by
  have hle : x.toNat % 2 ^ w.bits ≤ x.toNat := Nat.mod_le _ _
  rw [wrapUnsigned, Nat.one_shiftLeft, UInt64.toNat_ofNat_of_lt' (hle.trans_lt x.toNat_lt)]
  exact_mod_cast rfl

end Width

def Value.IsWord (signed : Bool) (n : Int) : Value → Prop
  | .unsigned word => signed = false ∧ word.toNat = n
  | .signed word => signed = true ∧ word.toInt = n
  | .rational _ => False

theorem Value.IsWord.toInt_eq {signed : Bool} {n : Int} {value : Value}
    (h : value.IsWord signed n) : value.toInt = n := by
  cases value with
  | rational q => exact h.elim
  | _ => exact h.2

/-- Whether a value wraps in two's complement. Of the quotients those do that are below zero. -/
def Value.isSigned : Value → Bool
  | .unsigned _ => false
  | .signed _ => true
  | .rational q => q.truncate < 0

namespace Variable

theorem integer_eq (v : Variable) : v.integer = v.width.wrap v.value.isSigned v.value.toInt := by
  rw [integer]
  cases v.value with
  | unsigned word => exact v.width.toNat_wrapUnsigned word
  | signed word => exact v.width.toInt_wrapSigned word
  | rational q =>
    dsimp only [Value.isSigned, Value.toInt]
    by_cases hneg : q.truncate < 0
    · rw [if_pos hneg, decide_eq_true hneg, Width.toInt_wrapSigned, Width.toInt_ofInt,
        Width.wrap_qword]
    · rw [if_neg hneg, decide_eq_false hneg, Width.toNat_wrapUnsigned, Width.toNat_ofInt,
        Width.wrap_qword]

theorem integer_has (v : Variable) : v.width.Has v.value.isSigned v.integer :=
  v.integer_eq ▸ v.width.has_wrap _ _

/-- What an operation reads in a variable: the integer at its width, in the sort of the
operation. -/
def view (v : Variable) (signed : Bool) : Int :=
  if signed then v.asSigned.toInt else v.asUnsigned.toNat

theorem view_eq (v : Variable) (signed : Bool) : v.view signed = v.width.wrap signed v.integer := by
  cases signed with
  | false =>
    change (v.asUnsigned.toNat : Int) = _
    rw [asUnsigned, Width.toNat_wrapUnsigned, Width.toNat_ofInt, Width.wrap_qword]
  | true =>
    change v.asSigned.toInt = _
    rw [asSigned, Width.toInt_wrapSigned, Width.toInt_ofInt, Width.wrap_qword]

end Variable

theorem Value.IsWord.integer_eq {signed : Bool} {n : Int} {value : Value}
    (h : value.IsWord signed n) (w : Width) (raw : List UInt8) :
    (⟨w, value, raw⟩ : Variable).integer = w.wrap signed n := by
  rw [Variable.integer_eq]
  cases value with
  | unsigned word =>
    obtain ⟨rfl, rfl⟩ := h
    rfl
  | signed word =>
    obtain ⟨rfl, rfl⟩ := h
    rfl
  | rational q => exact h.elim

namespace ArithOp

/-- `op` on integers without bounds. Without a sign no difference is below zero. -/
def exact (op : ArithOp) (signed : Bool) (l r : Int) : Int :=
  match op with
  | .set => r
  | .mod => if r = 0 then 0 else l.tmod r
  | .add => l + r
  | .sub => if signed then l - r else max 0 (l - r)
  | .mul => l * r
  | .div => l.tdiv r

theorem toInt_onSigned {op : ArithOp} (h : op ≠ .div) (l r : Int64) :
    (op.onSigned l r).toInt = Width.qword.wrap true (op.exact true l.toInt r.toInt) := by
  have hword (x : Int64) : Width.qword.wrap true x.toInt = x.toInt :=
    Width.wrap_eq_self (Width.has_toInt x)
  cases op with
  | set => exact (hword r).symm
  | mod =>
    rw [onSigned, exact]
    by_cases hr : r = 0
    · subst hr
      rfl
    · have hr' : r.toInt ≠ 0 := fun h0 => hr (Int64.toInt_inj.1 h0)
      rw [if_neg hr, if_neg hr', ← Int64.toInt_mod, hword]
  | add => exact Int64.toInt_add l r
  | sub => exact Int64.toInt_sub l r
  | mul => exact Int64.toInt_mul l r
  | div => exact absurd rfl h

theorem toNat_onUnsigned {op : ArithOp} (h : op ≠ .div) (l r : UInt64) :
    ((op.onUnsigned l r).toNat : Int) =
      Width.qword.wrap false (op.exact false l.toNat r.toNat) := by
  have hword (x : UInt64) : Width.qword.wrap false x.toNat = x.toNat :=
    Width.wrap_eq_self (Width.has_toNat x)
  cases op with
  | set => exact (hword r).symm
  | mod =>
    rw [onUnsigned, exact]
    by_cases hr : r = 0
    · subst hr
      rfl
    · have hr' : (r.toNat : Int) ≠ 0 := fun h0 => hr (UInt64.toNat_inj.1 (Int.natCast_inj.1 h0))
      rw [if_neg hr, if_neg hr', ← Int.ofNat_tmod, ← UInt64.toNat_mod, hword]
  | add =>
    rw [onUnsigned, exact, UInt64.toNat_add]
    rfl
  | sub =>
    rw [onUnsigned, exact]
    by_cases hle : l ≤ r
    · have hle' : (l.toNat : Int) ≤ r.toNat := by exact_mod_cast UInt64.le_iff_toNat_le.1 hle
      rw [if_pos hle, max_eq_left (by omega)]
      rfl
    · have hlt : r.toNat < l.toNat := Nat.lt_of_not_le fun h => hle (UInt64.le_iff_toNat_le.2 h)
      have hge : r ≤ l := UInt64.le_iff_toNat_le.2 hlt.le
      rw [if_neg hle, if_neg Bool.false_ne_true, max_eq_right (by omega), ← Int.natCast_sub hlt.le,
        ← UInt64.toNat_sub_of_le l r hge, hword]
  | mul =>
    rw [onUnsigned, exact, UInt64.toNat_mul]
    rfl
  | div => exact absurd rfl h

theorem apply_isWord {op : ArithOp} (hop : op ≠ .div) (signed : Bool) (current : Option Variable)
    {rhs : Value} (hset : op = .set → ∀ q, rhs ≠ .rational q) (width : Width) :
    (op.apply signed current rhs width).IsWord signed
      (width.wrap signed (op.exact signed ((current.map (·.view signed)).getD 0)
        (Width.qword.wrap signed rhs.toInt))) := by
  unfold apply
  split
  case h_1 q => exact absurd rfl (hset rfl q)
  case h_2 => exact absurd rfl hop
  case h_3 =>
    cases signed with
    | false =>
      have hl : (((current.map Variable.asUnsigned).getD 0).toNat : Int) =
          (current.map (·.view false)).getD 0 := by
        cases current <;> rfl
      refine ⟨rfl, ?_⟩
      rw [Width.toNat_wrapUnsigned, toNat_onUnsigned hop, Width.wrap_qword, Width.toNat_ofInt, hl]
    | true =>
      have hl : ((current.map Variable.asSigned).getD 0).toInt =
          (current.map (·.view true)).getD 0 := by
        cases current <;> rfl
      refine ⟨rfl, ?_⟩
      rw [Width.toInt_wrapSigned, toInt_onSigned hop, Width.wrap_qword, Width.toInt_ofInt, hl]

end ArithOp

namespace Store

def widthOf (s : Store) (id : Nat) : Width := ((s.get? id).map Variable.width).getD .qword

def integerOf (s : Store) (id : Nat) : Int := (s.integer? id).getD 0

/-- What is to the right of an operation: the integer part of the operand in a word. -/
def rightSide (signed : Bool) (operand : Option Value) : Int :=
  Width.qword.wrap signed ((operand.map Value.toInt).getD 0)

theorem rightSide_eq (signed : Bool) (operand : Option Value) :
    rightSide signed operand = Width.qword.wrap signed (operand.getD (.unsigned 0)).toInt := by
  cases operand <;> rfl

theorem view_of_get? (s : Store) (id : Nat) (signed : Bool) :
    ((s.get? id).map (·.view signed)).getD 0 = (s.widthOf id).wrap signed (s.integerOf id) := by
  rw [widthOf, integerOf, integer?]
  cases s.get? id with
  | none => cases signed <;> rfl
  | some v => exact v.view_eq signed

theorem get?_apply (s : Store) (id : Nat) (op : ArithOp) (signed : Bool) (operand : Option Value)
    (width : Option Width) (other : Nat) :
    (s.apply id op signed operand width).get? other =
      if other = id then
        some ⟨width.getD (s.widthOf id),
          op.apply signed (s.get? id) (operand.getD (.unsigned 0)) (width.getD (s.widthOf id)), []⟩
      else s.get? other := get?_set s id _ other

theorem apply_isWord (s : Store) (id : Nat) {op : ArithOp} (hop : op ≠ .div) (signed : Bool)
    {operand : Option Value} (hset : op = .set → ∀ q, operand ≠ some (.rational q)) (w : Width) :
    (op.apply signed (s.get? id) (operand.getD (.unsigned 0)) w).IsWord signed
      (w.wrap signed (op.exact signed ((s.widthOf id).wrap signed (s.integerOf id))
        (rightSide signed operand))) := by
  have hword : op = .set → ∀ q, operand.getD (.unsigned 0) ≠ .rational q := by
    intro h q hq
    cases operand with
    | none => cases hq
    | some rhs => exact hset h q (congrArg some hq)
  have h := op.apply_isWord hop signed (s.get? id) hword w
  rwa [view_of_get?, ← rightSide_eq] at h

/-- Except for division, arithmetic is exact but for the width of its result. -/
theorem apply_exact (s : Store) (id : Nat) {op : ArithOp} (hop : op ≠ .div) (signed : Bool)
    {operand : Option Value} (hset : op = .set → ∀ q, operand ≠ some (.rational q))
    (width : Option Width) :
    let w := width.getD (s.widthOf id)
    let l := (s.widthOf id).wrap signed (s.integerOf id)
    let r := rightSide signed operand
    ∃ value : Value, value.IsWord signed (w.wrap signed (op.exact signed l r)) ∧
      ∀ other, (s.apply id op signed operand width).get? other =
        if other = id then some ⟨w, value, []⟩ else s.get? other := by
  intro w l r
  exact ⟨_, s.apply_isWord id hop signed hset w, s.get?_apply id op signed operand width⟩

/-- A product across widths: the variable reads as `2 ^ 16 - 2` and the operand as `2 ^ 64 - 3`. -/
theorem apply_exact_mixedWidths :
    let s : Store := ⟨[some (.ofSigned .word (-2)), some (.ofUnsigned .dword 9)]⟩
    let operand : Option Value := some (.rational ⟨-7, 2⟩)
    ArithOp.mul ≠ .div ∧ (ArithOp.mul = .set → ∀ q, operand ≠ some (.rational q)) ∧
      ∃ value : Value, value.IsWord false 6 ∧
        ∀ other, (s.apply 0 .mul false operand (some .byte)).get? other =
          if other = 0 then some ⟨.byte, value, []⟩ else s.get? other := by
  intro s operand
  have hset : ArithOp.mul = .set → ∀ q, operand ≠ some (.rational q) := by
    rintro ⟨⟩
  obtain ⟨value, hvalue, hget⟩ := s.apply_exact 0 (by decide) false hset (some .byte)
  have hsix : Width.byte.wrap false (ArithOp.mul.exact false
      ((s.widthOf 0).wrap false (s.integerOf 0)) (rightSide false operand)) = 6 := by
    decide
  exact ⟨by decide, hset, value, hsix ▸ hvalue, hget⟩

/-- The least word has no quotient by minus one, but a remainder. -/
example : (⟨[some (.ofSigned .qword Int64.minValue)]⟩ : Store).apply 0 .mod true
    (some (.signed (-1))) none = ⟨[some ⟨.qword, .signed 0, []⟩]⟩ := by
  decide

end Store

end Dissect
