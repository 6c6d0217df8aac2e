import Dissect.Proofs.Checks
import Dissect.Proofs.Renumbering
import Mathlib.Data.Int.Bitwise

/-! A machine with bounded words. Its operations trap where a table or a buffer has no such place,
where a number does not fit and where there is a division by zero; the arithmetic of variables
never does, and has the values of arithmetic without bounds. -/
namespace Dissect

inductive Trap where
  | index
  | slice
  | overflow
  | division
  deriving DecidableEq, Repr

namespace Trapping

/-! ## Operations -/

def add (a b : Nat) : Except Trap Nat := if a + b < 2 ^ 64 then .ok (a + b) else .error .overflow

def sub (a b : Nat) : Except Trap Nat := if b ≤ a then .ok (a - b) else .error .overflow

/-- An integer that has to fit into 128 bits. -/
def wide (z : Int) : Except Trap Int :=
  if -2 ^ 127 ≤ z ∧ z < 2 ^ 127 then .ok z else .error .overflow

def divide (a b : Int) : Except Trap Int := if b = 0 then .error .division else wide (a.tdiv b)

def remainder (a b : Nat) : Except Trap Nat := if b = 0 then .error .division else .ok (a % b)

def shiftLeft (x : BitVec 64) (n : Nat) : Except Trap (BitVec 64) :=
  if n < 64 then .ok (x <<< n) else .error .overflow

def shiftRight (x : BitVec 64) (n : Nat) : Except Trap (BitVec 64) :=
  if n < 64 then .ok (x.sshiftRight n) else .error .overflow

def index {α : Type} (xs : List α) (i : Nat) : Except Trap α :=
  match xs[i]? with
  | some x => .ok x
  | none => .error .index

theorem add_eq_ok {a b : Nat} (h : a + b < 2 ^ 64) : add a b = .ok (a + b) := if_pos h

theorem sub_eq_ok {a b : Nat} (h : b ≤ a) : sub a b = .ok (a - b) := if_pos h

theorem wide_eq_ok {z : Int} (h : z.natAbs < 2 ^ 127) : wide z = .ok z := if_pos (by omega)

theorem shiftLeft_eq_ok {x : BitVec 64} {n : Nat} (h : n < 64) : shiftLeft x n = .ok (x <<< n) :=
  if_pos h

theorem shiftRight_eq_ok {x : BitVec 64} {n : Nat} (h : n < 64) :
    shiftRight x n = .ok (x.sshiftRight n) := if_pos h

theorem index_eq_ok {α : Type} {xs : List α} {i : Nat} {x : α} (h : xs[i]? = some x) :
    index xs i = .ok x := by
  rw [index, h]

theorem divide_eq_ok {a b : Int} (ha : a.natAbs < 2 ^ 127) (hb : b ≠ 0) :
    divide a b = .ok (a.tdiv b) := by
  rw [divide, if_neg hb]
  refine wide_eq_ok ?_
  rw [Int.natAbs_tdiv]
  exact (Nat.div_le_self ..).trans_lt ha

/-! ## Quotients -/

theorem remainder_lt {a b r : Nat} (h : remainder a b = .ok r) : r < b := by
  rw [remainder] at h
  split at h
  · cases h
  · cases h
    exact Nat.mod_lt _ (Nat.pos_of_ne_zero ‹_›)

def gcd (a b : Nat) : Except Trap Nat :=
  if b = 0 then .ok a
  else
    match _h : remainder a b with
    | .ok r => gcd b r
    | .error trap => .error trap
termination_by b
decreasing_by exact remainder_lt _h

/-- A part of a quotient whose divisor is made positive. -/
def upright (den z : Int) : Except Trap Int := if den < 0 then wide (-z) else .ok z

def signed (n : Nat) : Int := Int.bmod n (2 ^ 128)

/-- The reduced quotient of two integers of 128 bits. Their divisor is found among words without a
sign. -/
def quotient (num den : Int) : Except Trap Ratio :=
  if den = 0 ∨ num = 0 then .ok .zero
  else do
    let top ← upright den num
    let bottom ← upright den den
    let divisor := signed (← gcd top.natAbs bottom.natAbs)
    return ⟨← divide top divisor, (← divide bottom divisor).toNat⟩

def truncate (r : Ratio) : Except Trap Int := divide r.num r.den

theorem gcd_eq_ok (a b : Nat) : gcd a b = .ok (Nat.gcd a b) := by
  induction b using Nat.strong_induction_on generalizing a with
  | _ b ih =>
    rw [gcd]
    by_cases hb : b = 0
    · rw [if_pos hb, hb, Nat.gcd_zero_right]
    · have hr : remainder a b = .ok (a % b) := if_neg hb
      rw [if_neg hb]
      split
      · rename_i r h
        cases hr.symm.trans h
        rw [ih _ (Nat.mod_lt _ (Nat.pos_of_ne_zero hb)), Nat.gcd_comm b, ← Nat.gcd_rec,
          Nat.gcd_comm b]
      · rename_i h
        cases hr.symm.trans h

theorem tdiv_natCast (z : Int) (g : Nat) : z.tdiv g = z.sign * (z.natAbs / g : Nat) := by
  obtain ⟨n, rfl | rfl⟩ := z.eq_nat_or_neg
  · rcases n.eq_zero_or_pos with rfl | hn
    · rw [Int.natCast_zero, Int.zero_tdiv, Int.sign_zero, Int.zero_mul]
    · rw [← Int.ofNat_tdiv, Int.sign_eq_one_of_pos (Int.natCast_pos.2 hn), Int.natAbs_natCast,
        Int.one_mul]
  · rcases n.eq_zero_or_pos with rfl | hn
    · rw [Int.natCast_zero, Int.neg_zero, Int.zero_tdiv, Int.sign_zero, Int.zero_mul]
    · rw [Int.neg_tdiv, ← Int.ofNat_tdiv, Int.sign_neg,
        Int.sign_eq_one_of_pos (Int.natCast_pos.2 hn), Int.natAbs_neg, Int.natAbs_natCast,
        Int.neg_mul, Int.one_mul]

theorem upright_eq_ok {z : Int} (h : z.natAbs < 2 ^ 127) {den : Int} (hden : den ≠ 0) :
    upright den z = .ok (z * den.sign) := by
  rw [upright]
  split
  · rw [wide_eq_ok (by rwa [Int.natAbs_neg]), Int.sign_eq_neg_one_of_neg ‹_›, Int.mul_neg_one]
  · rw [Int.sign_eq_one_of_pos (by omega), Int.mul_one]

theorem signed_eq {n : Nat} (h : n < 2 ^ 127) : signed n = n :=
  Int.bmod_eq_of_le (by omega) (by omega)

theorem quotient_eq_ok {num den : Int} (hnum : num.natAbs < 2 ^ 127)
    (hden : den.natAbs < 2 ^ 127) : quotient num den = .ok (Ratio.quotient num den) := by
  rw [quotient, Ratio.quotient]
  by_cases hz : den = 0 ∨ num = 0
  · rw [if_pos hz, if_pos hz]
  rw [if_neg hz, if_neg hz]
  obtain ⟨hd, hn⟩ := not_or.1 hz
  have htop : (num * den.sign).natAbs = num.natAbs := by
    rw [Int.natAbs_mul, Int.natAbs_sign_of_ne_zero hd, Nat.mul_one]
  have hgpos : 0 < Nat.gcd num.natAbs den.natAbs := Nat.gcd_pos_of_pos_left _ (Int.natAbs_pos.2 hn)
  have hglt : Nat.gcd num.natAbs den.natAbs < 2 ^ 127 :=
    (Nat.gcd_le_left _ (Int.natAbs_pos.2 hn)).trans_lt hnum
  generalize hg : Nat.gcd num.natAbs den.natAbs = g at hglt hgpos
  have hdivisor : (g : Int) ≠ 0 := by omega
  rw [upright_eq_ok hnum hd, ok_bind, upright_eq_ok hden hd, ok_bind, gcd_eq_ok, ok_bind, htop,
    Int.mul_sign_self, Int.natAbs_natCast, hg, signed_eq hglt]
  dsimp only
  rw [divide_eq_ok (htop.trans_lt hnum) hdivisor, ok_bind,
    divide_eq_ok (by rwa [Int.natAbs_natCast]) hdivisor, ok_bind, tdiv_natCast, htop, Int.sign_mul,
    Int.sign_sign, ← Int.ofNat_tdiv, Int.toNat_natCast]
  rfl

theorem truncate_eq_ok {r : Ratio} (hnum : r.num.natAbs < 2 ^ 127) (hden : 0 < r.den) :
    truncate r = .ok r.truncate := divide_eq_ok hnum (by omega)

/-! ## Widths -/

def mask (bits : Nat) : Except Trap UInt64 := do
  return UInt64.ofNat (← sub (← shiftLeft 1 bits).toNat 1)

def wrapUnsigned (w : Width) (value : UInt64) : Except Trap UInt64 :=
  match w with
  | .qword => .ok value
  | w => do return value &&& (← mask w.bits)

/-- The low bits of a word in two's complement, which shifts bring up and down again. -/
def extend (x : BitVec 64) (bits : Nat) : Except Trap Int64 := do
  let unused ← sub 64 bits
  return Int64.ofBitVec (← shiftRight (← shiftLeft x unused) unused)

def wrapSigned (w : Width) (value : Int64) : Except Trap Int64 := extend value.toBitVec w.bits

def signExtend (value : UInt64) (n : Nat) : Except Trap Int64 :=
  if n = 0 then .ok 0
  else if 8 ≤ n then .ok value.toInt64
  else extend value.toBitVec (8 * n)

theorem mask_eq_ok {bits : Nat} (h : bits < 64) :
    mask bits = .ok (UInt64.ofNat (2 ^ bits - 1)) := by
  have hbit : ((1 : BitVec 64) <<< bits).toNat = 2 ^ bits := by
    rw [BitVec.toNat_shiftLeft, show (1 : BitVec 64).toNat = 1 from rfl, Nat.one_shiftLeft]
    exact Nat.mod_eq_of_lt (Nat.pow_lt_pow_right (by decide) h)
  rw [mask, shiftLeft_eq_ok h, ok_bind, hbit, sub_eq_ok Nat.one_le_two_pow]
  rfl

theorem and_mask (value : UInt64) {bits : Nat} (h : bits < 64) :
    value &&& UInt64.ofNat (2 ^ bits - 1) = UInt64.ofNat (value.toNat % 1 <<< bits) := by
  have hpow : 2 ^ bits < 2 ^ 64 := Nat.pow_lt_pow_right (by decide) h
  have hlow : value.toNat % 2 ^ bits < 2 ^ 64 := (Nat.mod_lt _ (Nat.two_pow_pos _)).trans hpow
  rw [← UInt64.toNat_inj, UInt64.toNat_and, Nat.one_shiftLeft, UInt64.toNat_ofNat_of_lt' hlow,
    UInt64.toNat_ofNat_of_lt' ((Nat.sub_le ..).trans_lt hpow), Nat.and_two_pow_sub_one_eq_mod]

theorem wrapUnsigned_eq_ok (w : Width) (value : UInt64) :
    wrapUnsigned w value = .ok (w.wrapUnsigned value) := by
  have hmasked (h : w.bits < 64) :
      (do return value &&& (← mask w.bits)) = Except.ok (ε := Trap) (w.wrapUnsigned value) := by
    rw [mask_eq_ok h, ok_bind, and_mask value h]
    rfl
  cases w with
  | qword =>
    have hlt : value.toNat < 1 <<< 64 := value.toNat_lt
    rw [wrapUnsigned, Width.wrapUnsigned]
    exact congrArg _ (by rw [Width.bits, Width.bytes, Nat.mod_eq_of_lt hlt, UInt64.ofNat_toNat])
  | _ => exact hmasked (by decide)

theorem toInt_sshiftRight_shiftLeft (x : BitVec 64) {bits : Nat} (hpos : 0 < bits)
    (h : bits ≤ 64) :
    ((x <<< (64 - bits)).sshiftRight (64 - bits)).toInt = (x.toNat : Int).bmod (2 ^ bits) := by
  have hpow : 2 ^ 64 = 2 ^ (64 - bits) * 2 ^ bits := by
    rw [← Nat.pow_add, Nat.sub_add_cancel h]
  have heven : 2 ∣ 2 ^ bits := dvd_pow_self 2 (Nat.ne_of_gt hpos)
  rw [BitVec.toInt_sshiftRight, BitVec.toInt_shiftLeft, Nat.shiftLeft_eq, Int.shiftRight_eq_div_pow,
    hpow, Int.natCast_mul, Int.mul_comm, Int.mod_bmod_mul_of_pos _ _ (Nat.two_pow_pos _) heven]
  exact Int.mul_ediv_cancel_left _ (by exact_mod_cast (Nat.two_pow_pos _).ne')

theorem extend_eq_ok (x : BitVec 64) {bits : Nat} (hpos : 0 < bits) (h : bits ≤ 64) :
    extend x bits = .ok (Int64.ofInt ((x.toNat : Int).bmod (2 ^ bits))) := by
  rw [extend, sub_eq_ok h, ok_bind, shiftLeft_eq_ok (by omega), ok_bind,
    shiftRight_eq_ok (by omega), ok_bind, ← toInt_sshiftRight_shiftLeft x hpos h,
    Int64.ofInt_bitVecToInt]
  rfl

theorem wrapSigned_eq_ok (w : Width) (value : Int64) :
    wrapSigned w value = .ok (w.wrapSigned value) := by
  have hpos : 0 < w.bits := by cases w <;> decide
  have hle : w.bits ≤ 64 := by cases w <;> decide
  have hmod : (value.toBitVec.toNat : Int).bmod (2 ^ w.bits) = value.toInt.bmod (2 ^ w.bits) := by
    rw [Int64.toInt, BitVec.toInt_eq_toNat_bmod, Int.bmod_bmod_of_dvd (pow_dvd_pow 2 hle)]
  rw [wrapSigned, extend_eq_ok _ hpos hle, hmod, Width.wrapSigned, Nat.one_shiftLeft]

theorem signExtend_eq_ok (value : UInt64) (n : Nat) :
    signExtend value n = .ok (Bytes.signExtend value n) := by
  rw [signExtend, Bytes.signExtend]
  split
  · rfl
  · split
    · rfl
    · rw [extend_eq_ok _ (by omega) (by omega), Nat.one_shiftLeft]
      rfl

/-! ## Variables -/

theorem mapM_eq_ok {α β : Type} {f : α → Except Trap β} {g : α → β} {o : Option α}
    (h : ∀ a ∈ o, f a = .ok (g a)) : o.mapM f = .ok (o.map g) := by
  cases o with
  | none => rfl
  | some a =>
    rw [Option.mapM_some, h a rfl]
    rfl

def toInt : Value → Except Trap Int
  | .unsigned v => .ok v.toNat
  | .signed v => .ok v.toInt
  | .rational r => truncate r

def integer (v : Variable) : Except Trap Int :=
  match v.value with
  | .unsigned n => do return (← wrapUnsigned v.width n).toNat
  | .signed n => do return (← wrapSigned v.width n).toInt
  | .rational r => do
    let whole ← truncate r
    if whole < 0 then return (← wrapSigned v.width (Int64.ofInt whole)).toInt
    else return (← wrapUnsigned v.width (UInt64.ofInt whole)).toNat

def asUnsigned (v : Variable) : Except Trap UInt64 := do
  wrapUnsigned v.width (UInt64.ofInt (← integer v))

def asSigned (v : Variable) : Except Trap Int64 := do
  wrapSigned v.width (Int64.ofInt (← integer v))

/-- What `op` leaves in a variable. The operations on words wrap, and only division leaves them. -/
def apply (op : ArithOp) (signed : Bool) (current : Option Variable) (rhs : Value)
    (width : Width) : Except Trap Value :=
  match op, rhs with
  | .set, .rational r => .ok (.rational r)
  | .div, _ => do
    let lhs := (← current.mapM integer).getD 0
    let rhs ← toInt rhs
    if signed then
      return .rational (← quotient (Int64.ofInt lhs).toInt (Int64.ofInt rhs).toInt)
    else return .rational (← quotient (UInt64.ofInt lhs).toNat (UInt64.ofInt rhs).toNat)
  | _, _ => do
    if signed then
      let lhs := (← current.mapM asSigned).getD 0
      return .signed (← wrapSigned width (op.onSigned lhs (Int64.ofInt (← toInt rhs))))
    else
      let lhs := (← current.mapM asUnsigned).getD 0
      return .unsigned (← wrapUnsigned width (op.onUnsigned lhs (UInt64.ofInt (← toInt rhs))))

def reserve (slots : List (Option Variable)) (id : Nat) : Except Trap (List (Option Variable)) :=
  if slots.length ≤ id then do
    return slots ++ List.replicate ((← add id 1) - slots.length) none
  else .ok slots

def set (s : Store) (id : Nat) (v : Variable) : Except Trap Store := do
  let slots ← reserve s.slots id
  let _ ← index slots id
  return ⟨slots.set id (some v)⟩

def applyTo (s : Store) (id : Nat) (op : ArithOp) (signed : Bool) (operand : Option Value)
    (width : Option Width) : Except Trap Store := do
  let current := s.get? id
  let target := width.getD ((current.map Variable.width).getD .qword)
  set s id ⟨target, ← apply op signed current (operand.getD (.unsigned 0)) target, []⟩

end Trapping

/-! ## Stores whose quotients are of words -/

def Value.Bounded : Value → Prop
  | .rational r => r.num.natAbs ≤ 2 ^ 64 ∧ 0 < r.den
  | _ => True

structure Store.Bounded (s : Store) (count : Nat) : Prop where
  length : s.slots.length = count
  value : ∀ id v, s.get? id = some v → v.value.Bounded

/-- Reduced, a quotient has no larger numerator, and its denominator is positive. -/
theorem Ratio.quotient_shrinks (num den : Int) :
    (quotient num den).num.natAbs ≤ num.natAbs ∧ 0 < (quotient num den).den := by
  rw [quotient]
  split
  · exact ⟨Nat.zero_le _, by decide⟩
  · obtain ⟨hd, hn⟩ := not_or.1 ‹_›
    have hg : 0 < Nat.gcd num.natAbs den.natAbs := Nat.gcd_pos_of_pos_left _ (Int.natAbs_pos.2 hn)
    refine ⟨?_, Nat.div_pos (Nat.gcd_le_right _ (Int.natAbs_pos.2 hd)) hg⟩
    rw [Int.natAbs_mul, Int.natAbs_mul, Int.natAbs_sign_of_ne_zero hn,
      Int.natAbs_sign_of_ne_zero hd, Nat.one_mul, Int.natAbs_natCast]
    exact Nat.div_le_self ..

theorem Ratio.quotient_bounded {num : Int} (h : num.natAbs ≤ 2 ^ 64) (den : Int) :
    (Value.rational (quotient num den)).Bounded :=
  ⟨(quotient_shrinks num den).1.trans h, (quotient_shrinks num den).2⟩

theorem natAbs_int64_le (x : Int64) : x.toInt.natAbs ≤ 2 ^ 64 := by
  have hlt := x.toInt_lt
  have hle := x.le_toInt
  omega

theorem natAbs_uint64_le (x : UInt64) : (x.toNat : Int).natAbs ≤ 2 ^ 64 :=
  (Int.natAbs_natCast _).trans_le x.toNat_lt.le

theorem ArithOp.apply_bounded (op : ArithOp) (signed : Bool) (current : Option Variable)
    {rhs : Value} (h : rhs.Bounded) (width : Width) :
    (op.apply signed current rhs width).Bounded := by
  unfold apply
  split
  case h_1 => exact h
  case h_2 =>
    dsimp only
    split
    · exact Ratio.quotient_bounded (natAbs_int64_le _) _
    · exact Ratio.quotient_bounded (natAbs_uint64_le _) _
  case h_3 => split <;> trivial

namespace Store
variable {s : Store} {count id : Nat}

theorem put_eq_set (v : Variable) {id : Nat} {slots : List (Option Variable)}
    (h : id < slots.length) : put v id slots = slots.set id (some v) := by
  induction slots generalizing id with
  | nil => cases h
  | cons slot slots ih =>
    cases id with
    | zero => rfl
    | succ id => rw [put, List.set_cons_succ, ih (Nat.lt_of_succ_lt_succ h)]

theorem Bounded.set (h : s.Bounded count) (hid : id < count) {v : Variable}
    (hv : v.value.Bounded) : (s.set id v).Bounded count := by
  constructor
  case length =>
    rw [Store.set, put_eq_set v (h.length.symm ▸ hid), List.length_set, h.length]
  case value => exact forall_get?_set h.value hv

theorem Bounded.empty (count : Nat) : (Store.empty count).Bounded count := by
  constructor
  case length => exact List.length_replicate
  case value =>
    intro id v hv
    rw [get?, Store.empty, List.getElem?_replicate] at hv
    split at hv <;> cases hv

theorem Bounded.apply (h : s.Bounded count) (hid : id < count) (op : ArithOp) (signed : Bool)
    {operand : Option Value} (hoperand : ∀ rhs ∈ operand, rhs.Bounded) (width : Option Width) :
    (s.apply id op signed operand width).Bounded count := by
  refine h.set hid (op.apply_bounded signed _ ?_ _)
  cases operand with
  | none => trivial
  | some rhs => exact hoperand rhs rfl

end Store

namespace Trapping

theorem toInt_eq_ok {v : Value} (h : v.Bounded) : toInt v = .ok v.toInt := by
  cases v with
  | rational r => exact truncate_eq_ok (h.1.trans_lt (by decide)) h.2
  | _ => rfl

theorem integer_eq_ok {v : Variable} (h : v.value.Bounded) : integer v = .ok v.integer := by
  rw [integer, Variable.integer]
  cases hv : v.value with
  | unsigned n =>
    simp only [wrapUnsigned_eq_ok, ok_bind]
    rfl
  | signed n =>
    simp only [wrapSigned_eq_ok, ok_bind]
    rfl
  | rational r =>
    rw [hv] at h
    have htruncate := truncate_eq_ok (h.1.trans_lt (by decide)) h.2
    simp only [htruncate, wrapUnsigned_eq_ok, wrapSigned_eq_ok, ok_bind]
    split <;> rfl

theorem asUnsigned_eq_ok {v : Variable} (h : v.value.Bounded) :
    asUnsigned v = .ok v.asUnsigned := by
  rw [asUnsigned, integer_eq_ok h, ok_bind, wrapUnsigned_eq_ok]
  rfl

theorem asSigned_eq_ok {v : Variable} (h : v.value.Bounded) : asSigned v = .ok v.asSigned := by
  rw [asSigned, integer_eq_ok h, ok_bind, wrapSigned_eq_ok]
  rfl

theorem apply_eq_ok (op : ArithOp) (signed : Bool) {current : Option Variable}
    (hcurrent : ∀ v ∈ current, v.value.Bounded) {rhs : Value} (hrhs : rhs.Bounded) (width : Width) :
    apply op signed current rhs width = .ok (op.apply signed current rhs width) := by
  have hinteger : current.mapM integer = .ok (current.map Variable.integer) :=
    mapM_eq_ok fun v hv => integer_eq_ok (hcurrent v hv)
  have hsigned : current.mapM asSigned = .ok (current.map Variable.asSigned) :=
    mapM_eq_ok fun v hv => asSigned_eq_ok (hcurrent v hv)
  have hunsigned : current.mapM asUnsigned = .ok (current.map Variable.asUnsigned) :=
    mapM_eq_ok fun v hv => asUnsigned_eq_ok (hcurrent v hv)
  unfold apply ArithOp.apply
  split
  case h_1 => rfl
  case h_2 =>
    simp only [hinteger, toInt_eq_ok hrhs, ok_bind]
    split
    · rw [quotient_eq_ok ((natAbs_int64_le _).trans_lt (by decide))
        ((natAbs_int64_le _).trans_lt (by decide))]
      rfl
    · rw [quotient_eq_ok ((natAbs_uint64_le _).trans_lt (by decide))
        ((natAbs_uint64_le _).trans_lt (by decide))]
      rfl
  case h_3 =>
    simp only [hsigned, hunsigned, toInt_eq_ok hrhs, ok_bind, wrapSigned_eq_ok, wrapUnsigned_eq_ok]
    split <;> rfl

theorem set_eq_ok {s : Store} {count id : Nat} (h : s.Bounded count) (hid : id < count)
    (v : Variable) : set s id v = .ok (s.set id v) := by
  have hlt : id < s.slots.length := h.length.symm ▸ hid
  have hreserve : reserve s.slots id = .ok s.slots := if_neg (Nat.not_le_of_lt hlt)
  rw [set, hreserve, ok_bind, index_eq_ok (List.getElem?_eq_getElem hlt), ok_bind, Store.set,
    Store.put_eq_set v hlt]
  rfl

theorem applyTo_eq_ok {s : Store} {count id : Nat} (h : s.Bounded count) (hid : id < count)
    (op : ArithOp) (signed : Bool) {operand : Option Value}
    (hoperand : ∀ rhs ∈ operand, rhs.Bounded) (width : Option Width) :
    applyTo s id op signed operand width = .ok (s.apply id op signed operand width) := by
  have hrhs : (operand.getD (.unsigned 0)).Bounded := by
    cases operand with
    | none => trivial
    | some rhs => exact hoperand rhs rfl
  rw [applyTo]
  simp only [apply_eq_ok op signed (h.value id) hrhs, ok_bind, set_eq_ok h hid]
  rfl

end Trapping

end Dissect
