import Dissect.Proofs.Arithmetic
import Mathlib.Data.Nat.GCD.Basic
import Mathlib.Tactic.Ring

/-! Division and remainder. A quotient is the reduced one of two integers, and its integer part goes
with the remainder. Division takes its left side in eight bytes and every other operation at the
width of the variable: where these differ the quotient is not that of the integer whose remainder is
taken. -/
namespace Dissect

namespace Ratio

structure IsQuotient (q : Ratio) (n d : Int) : Prop where
  pos : 0 < q.den
  reduced : q.num.natAbs.Coprime q.den
  exact : q.num * d = n * q.den

theorem quotient_isQuotient (n : Int) {d : Int} (hd : d ≠ 0) : (quotient n d).IsQuotient n d := by
  rw [quotient]
  by_cases hn : n = 0
  · rw [if_pos (.inr hn), hn]
    exact ⟨by decide, by decide, by rw [Int.zero_mul, zero, Int.zero_mul]⟩
  · rw [if_neg (not_or.2 ⟨hd, hn⟩)]
    have hg : 0 < Nat.gcd n.natAbs d.natAbs := Nat.gcd_pos_of_pos_left _ (Int.natAbs_pos.2 hn)
    have hsign : (n.sign * d.sign).natAbs = 1 := by
      rw [Int.natAbs_mul, Int.natAbs_sign_of_ne_zero hn, Int.natAbs_sign_of_ne_zero hd]
    have hnum : (n.natAbs : Int) = (n.natAbs / Nat.gcd n.natAbs d.natAbs : Nat) *
        (Nat.gcd n.natAbs d.natAbs : Nat) := by
      rw [← Int.natCast_mul, Nat.div_mul_cancel (Nat.gcd_dvd_left ..)]
    have hden : (d.natAbs : Int) = (d.natAbs / Nat.gcd n.natAbs d.natAbs : Nat) *
        (Nat.gcd n.natAbs d.natAbs : Nat) := by
      rw [← Int.natCast_mul, Nat.div_mul_cancel (Nat.gcd_dvd_right ..)]
    constructor
    case pos => exact Nat.div_pos (Nat.gcd_le_right _ (Int.natAbs_pos.2 hd)) hg
    case reduced =>
      dsimp only
      rw [Int.natAbs_mul, hsign, Nat.one_mul, Int.natAbs_natCast]
      exact Nat.coprime_div_gcd_div_gcd hg
    case exact =>
      dsimp only
      generalize Nat.gcd n.natAbs d.natAbs = g at hnum hden
      generalize n.natAbs / g = a at hnum
      generalize d.natAbs / g = b at hden
      calc n.sign * d.sign * a * d = n.sign * a * (d.sign * d) := by ring
        _ = n.sign * (a * g) * b := by rw [Int.sign_mul_self, hden]; ring
        _ = n * b := by rw [← hnum, Int.sign_mul_natAbs]

theorem IsQuotient.truncate {q : Ratio} {n d : Int} (h : q.IsQuotient n d) (hd : d ≠ 0) :
    q.truncate = n.tdiv d := by
  have hden : (0 : Int) < q.den := Int.natCast_pos.2 h.pos
  have hcancel : (q.num * d).tdiv (q.den * d) = q.num.tdiv q.den := by
    rcases Int.lt_or_gt_of_ne hd with hneg | hpos
    · rw [← Int.neg_neg d, Int.mul_neg, Int.mul_neg _ (-d), Int.neg_tdiv_neg,
        Int.mul_tdiv_mul_of_pos_left _ _ (by omega)]
    · exact Int.mul_tdiv_mul_of_pos_left _ _ hpos
  calc q.num.tdiv q.den = (n * q.den).tdiv (q.den * d) := by rw [← hcancel, h.exact]
    _ = n.tdiv d := by rw [Int.mul_comm q.den, Int.mul_tdiv_mul_of_pos_left _ _ hden]

theorem IsQuotient.iff_eq {q : Ratio} {m n d : Int} (h : q.IsQuotient m d) :
    q.IsQuotient n d ↔ n = m := by
  have hden : (q.den : Int) ≠ 0 := (Int.natCast_pos.2 h.pos).ne'
  constructor
  · intro hn
    exact Int.eq_of_mul_eq_mul_right hden (hn.exact.symm.trans h.exact)
  · rintro rfl
    exact h

end Ratio

theorem Width.has_tmod {w : Width} {signed : Bool} {n : Int} (h : w.Has signed n) (d : Int) :
    w.Has signed (n.tmod d) := by
  have habs : (n.tmod d).natAbs ≤ n.natAbs := (Int.natAbs_tmod n d).trans_le (Nat.mod_le _ _)
  have hpos : 0 ≤ n → 0 ≤ n.tmod d := Int.tmod_nonneg d
  have hneg : n ≤ 0 → n.tmod d ≤ 0 := by
    intro hn
    have h := Int.tmod_nonneg d (Int.neg_nonneg_of_nonpos hn)
    rw [Int.neg_tmod] at h
    omega
  cases signed with
  | false =>
    obtain ⟨hle, hlt⟩ : 0 ≤ n ∧ n < 2 ^ w.bits := h
    have hrem := hpos hle
    exact ⟨hrem, by omega⟩
  | true =>
    obtain ⟨hle, hlt⟩ : -2 ^ (w.bits - 1) ≤ n ∧ n < 2 ^ (w.bits - 1) := h
    refine ⟨?_, ?_⟩ <;> omega

namespace Variable
variable (v : Variable)

/-- An operation reads the same in the variable at its width and in eight bytes. -/
def Fits (signed : Bool) : Prop := v.width = .qword ∨ v.width.Has signed v.integer

theorem view_eq_iff (signed : Bool) :
    v.view signed = Width.qword.wrap signed v.integer ↔ v.Fits signed := by
  rw [view_eq, Fits]
  by_cases hw : v.width = .qword
  · simp [hw]
  · obtain ⟨hle, hlt⟩ := v.integer_has.bounds
    have hfull : (2 : Int) ^ v.width.bits ≤ 2 ^ 32 := by
      cases h : v.width <;> first | exact absurd h hw | decide
    have hhalf := v.width.two_pow_bits
    rw [or_iff_right hw]
    cases signed with
    | true =>
      have hhas : Width.qword.Has true v.integer := by
        change -2 ^ 63 ≤ v.integer ∧ v.integer < 2 ^ 63
        omega
      rw [Width.wrap_eq_self hhas, Width.wrap_eq_self_iff]
    | false =>
      constructor
      · intro h
        have hbelow := (v.width.has_wrap false v.integer).2
        rw [h] at hbelow
        have hpos : 0 ≤ v.integer := by
          change v.integer % 2 ^ 64 < _ at hbelow
          omega
        exact ⟨hpos, hlt⟩
      · intro h
        have hhas : Width.qword.Has false v.integer := ⟨h.1, hlt.trans_le (hfull.trans (by decide))⟩
        rw [Width.wrap_eq_self h, Width.wrap_eq_self hhas]

end Variable

theorem ArithOp.div_apply (signed : Bool) (current : Option Variable) (rhs : Value)
    (width : Width) : ArithOp.div.apply signed current rhs width =
      .rational (Ratio.quotient (Width.qword.wrap signed ((current.map Variable.integer).getD 0))
        (Width.qword.wrap signed rhs.toInt)) := by
  cases signed with
  | false =>
    rw [← Width.toNat_ofInt, ← Width.toNat_ofInt]
    rfl
  | true =>
    rw [← Width.toInt_ofInt, ← Width.toInt_ofInt]
    rfl

namespace Store

/-- A quotient and a remainder of one variable by one operand. The quotient is that of the integer
the remainder is of just where the variable fits, and there the two make it up. -/
theorem apply_div_mod (s : Store) {id : Nat} {v : Variable} (hv : s.get? id = some v)
    (signed : Bool) {operand : Option Value} (hd : rightSide signed operand ≠ 0)
    (width : Option Width) :
    ∃ (q : Ratio) (r : Value),
      (s.apply id .div signed operand width).get? id =
        some ⟨width.getD v.width, .rational q, []⟩ ∧
      (s.apply id .mod signed operand none).get? id = some ⟨v.width, r, []⟩ ∧
      q.IsQuotient (Width.qword.wrap signed v.integer) (rightSide signed operand) ∧
      r.IsWord signed ((v.view signed).tmod (rightSide signed operand)) ∧
      (q.IsQuotient (v.view signed) (rightSide signed operand) ↔ v.Fits signed) ∧
      (v.Fits signed → v.view signed = q.truncate * rightSide signed operand + r.toInt) := by
  have hwidth : s.widthOf id = v.width := by rw [widthOf, hv]; rfl
  have hinteger : s.integerOf id = v.integer := by rw [integerOf, integer?, hv]; rfl
  have hdiv : (s.apply id .div signed operand width).get? id =
      some ⟨width.getD v.width, .rational (Ratio.quotient (Width.qword.wrap signed v.integer)
        (rightSide signed operand)), []⟩ := by
    rw [get?_apply, if_pos rfl, hwidth, hv, ArithOp.div_apply, ← rightSide_eq]
    rfl
  have hquotient := Ratio.quotient_isQuotient (Width.qword.wrap signed v.integer) hd
  have hset : ArithOp.mod = .set → ∀ q, operand ≠ some (.rational q) := by
    rintro ⟨⟩
  have hmod := s.get?_apply id .mod signed operand none id
  have hremainder := s.apply_isWord id (by decide) signed hset v.width
  rw [if_pos rfl, Option.getD_none, hwidth] at hmod
  have hhas : v.width.Has signed (v.view signed) := v.view_eq signed ▸ v.width.has_wrap signed _
  rw [hwidth, hinteger, ← v.view_eq, ArithOp.exact, if_neg hd,
    Width.wrap_eq_self (Width.has_tmod hhas _)] at hremainder
  have hexact : (Ratio.quotient (Width.qword.wrap signed v.integer)
      (rightSide signed operand)).IsQuotient (v.view signed) (rightSide signed operand) ↔
      v.Fits signed := hquotient.iff_eq.trans (v.view_eq_iff signed)
  refine ⟨_, _, hdiv, hmod, hquotient, hremainder, hexact, fun hfits => ?_⟩
  rw [(hexact.2 hfits).truncate hd, hremainder.toInt_eq, Int.tdiv_mul_add_tmod]

/-- A quotient below the words of its variable, which reads as `30536` there. -/
theorem apply_div_mod_foldedQuotient :
    let v : Variable := ⟨.word, .rational ⟨-70001, 2⟩, []⟩
    let s : Store := ⟨[some v]⟩
    let operand : Option Value := some (.rational ⟨15, 2⟩)
    s.get? 0 = some v ∧ rightSide false operand = 7 ∧ v.Fits false ∧
      ∃ (q : Ratio) (r : Value),
        (s.apply 0 .div false operand none).get? 0 = some ⟨.word, .rational q, []⟩ ∧
        (s.apply 0 .mod false operand none).get? 0 = some ⟨.word, r, []⟩ ∧
        q.IsQuotient 30536 7 ∧ r.IsWord false 2 ∧ 30536 = q.truncate * 7 + r.toInt := by
  intro v s operand
  have hright : rightSide false operand = 7 := by decide
  have hview : v.view false = 30536 := by decide
  have hfits : v.Fits false := .inr (show 0 ≤ v.integer ∧ v.integer < 2 ^ 16 by decide)
  have hv : s.get? 0 = some v := rfl
  have hd : rightSide false operand ≠ 0 := by decide
  obtain ⟨q, r, hdiv, hmod, -, hr, hq, hsum⟩ := s.apply_div_mod hv false hd none
  rw [hright, hview] at hr hq
  rw [hright, hview] at hsum
  exact ⟨hv, hright, hfits, q, r, hdiv, hmod, hq.2 hfits, hr, hsum hfits⟩

/-- A byte of minus one is 255 to a remainder without a sign, but the last word of all to a
quotient. -/
theorem not_isQuotient_negativeByte :
    let v : Variable := .ofSigned .byte (-1)
    let s : Store := ⟨[some v]⟩
    let operand : Option Value := some (.unsigned 2)
    s.get? 0 = some v ∧ rightSide false operand = 2 ∧ v.view false = 255 ∧
      (s.apply 0 .mod false operand none).get? 0 = some ⟨.byte, .unsigned 1, []⟩ ∧
      ∃ q : Ratio, (s.apply 0 .div false operand none).get? 0 = some ⟨.byte, .rational q, []⟩ ∧
        ¬q.IsQuotient 255 2 ∧ 255 ≠ q.truncate * 2 + 1 := by
  intro v s operand
  refine ⟨rfl, by decide, by decide, by decide, ⟨18446744073709551615, 2⟩, by decide, ?_, by decide⟩
  intro h
  exact absurd h.exact (by decide)

end Store

end Dissect
