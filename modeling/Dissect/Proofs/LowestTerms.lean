import Dissect.Proofs.Division
import Dissect.Proofs.Traps

/-! Quotients in lowest terms. A number has one form as a quotient, so two quotients are the same
just where they are equal as numbers. Words of 128 bits are enough to find the form of any two of
them, up to the largest ones. -/
namespace Dissect.Ratio
variable {q r : Ratio} {a b c d : Int}

theorem den_dvd_of_cross (hq : q.num.natAbs.Coprime q.den) (h : q.num * r.den = r.num * q.den) :
    q.den ∣ r.den := by
  refine hq.symm.dvd_of_dvd_mul_left (Dvd.intro_left r.num.natAbs ?_)
  have habs := congrArg Int.natAbs h
  rw [Int.natAbs_mul, Int.natAbs_mul, Int.natAbs_natCast, Int.natAbs_natCast] at habs
  exact habs.symm

theorem eq_of_cross (hq : q.num.natAbs.Coprime q.den) (hr : r.num.natAbs.Coprime r.den)
    (hpos : 0 < q.den) (h : q.num * r.den = r.num * q.den) : q = r := by
  have hden : q.den = r.den :=
    Nat.dvd_antisymm (den_dvd_of_cross hq h) (den_dvd_of_cross hr h.symm)
  have hnum : q.num = r.num := by
    rw [hden] at h hpos
    exact Int.eq_of_mul_eq_mul_right (by omega) h
  cases q
  cases r
  rw [mk.injEq]
  exact ⟨hnum, hden⟩

theorem IsQuotient.eq_iff (hq : q.IsQuotient a b) (hr : r.IsQuotient c d) (hb : b ≠ 0)
    (hd : d ≠ 0) : q = r ↔ a * d = c * b := by
  have hqden : (q.den : Int) ≠ 0 := (Int.natCast_pos.2 hq.pos).ne'
  have hrden : (r.den : Int) ≠ 0 := (Int.natCast_pos.2 hr.pos).ne'
  constructor
  · rintro rfl
    refine Int.eq_of_mul_eq_mul_right hqden ?_
    calc a * d * q.den = a * q.den * d := by ring
      _ = q.num * b * d := by rw [hq.exact]
      _ = q.num * d * b := by ring
      _ = c * q.den * b := by rw [hr.exact]
      _ = c * b * q.den := by ring
  · intro h
    refine eq_of_cross hq.reduced hr.reduced hq.pos ?_
    refine Int.eq_of_mul_eq_mul_right (Int.mul_ne_zero hb hd) ?_
    calc q.num * r.den * (b * d) = q.num * b * (r.den * d) := by ring
      _ = a * d * (q.den * r.den) := by rw [hq.exact]; ring
      _ = c * r.den * (q.den * b) := by rw [h]; ring
      _ = r.num * q.den * (b * d) := by rw [← hr.exact]; ring

/-- The quotient of two integers is zero if the second is, and else their quotient in lowest terms
over a positive denominator: it is the quotient of any other two just where these are in the same
proportion, and its integer part is rounded toward zero. Between words of 128 bits whose opposites
are words as well, no step of its computation leaves these words. -/
theorem quotient_canonical (num den : Int) :
    (den = 0 → quotient num den = ⟨0, 1⟩) ∧
      (den ≠ 0 → (quotient num den).IsQuotient num den ∧
        (∀ c d, d ≠ 0 → (quotient num den = quotient c d ↔ num * d = c * den)) ∧
        (quotient num den).truncate = num.tdiv den) ∧
      (num.natAbs < 2 ^ 127 → den.natAbs < 2 ^ 127 →
        Trapping.quotient num den = .ok (quotient num den) ∧
        Trapping.truncate (quotient num den) = .ok (quotient num den).truncate) := by
  refine ⟨fun hden => if_pos (.inl hden), fun hden => ?_, fun hnum hden => ?_⟩
  · have hquotient := quotient_isQuotient num hden
    exact ⟨hquotient, fun c d hd => hquotient.eq_iff (quotient_isQuotient c hd) hden hd,
      hquotient.truncate hden⟩
  · obtain ⟨hle, hpos⟩ := quotient_shrinks num den
    exact ⟨Trapping.quotient_eq_ok hnum hden, Trapping.truncate_eq_ok (hle.trans_lt hnum) hpos⟩

/-- The largest word over minus the largest but one, and three halves below zero in two ways. -/
theorem quotient_canonical_largest :
    let top : Int := 2 ^ 127 - 1
    (Trapping.quotient top (1 - top) = .ok ⟨-top, (2 ^ 127 - 2 : Nat)⟩ ∧
      Trapping.truncate ⟨-top, (2 ^ 127 - 2 : Nat)⟩ = .ok (-1)) ∧
      (3 * 2 ^ 125 : Int).natAbs < 2 ^ 127 ∧ (-2 ^ 126 : Int).natAbs < 2 ^ 127 ∧
      Trapping.quotient (3 * 2 ^ 125) (-2 ^ 126) = .ok (quotient (-9) 6) ∧
      (quotient (-9) 6).IsQuotient (3 * 2 ^ 125) (-2 ^ 126) ∧
      (quotient (-9) 6).truncate = -1 ∧ quotient 5 0 = ⟨0, 1⟩ := by
  intro top
  obtain ⟨-, -, hlargest⟩ := quotient_canonical top (1 - top)
  obtain ⟨-, hnonzero, hwords⟩ := quotient_canonical (3 * 2 ^ 125) (-2 ^ 126)
  obtain ⟨hquotient, hsame, -⟩ := hnonzero (by decide)
  have hnine : quotient (3 * 2 ^ 125) (-2 ^ 126) = quotient (-9) 6 :=
    (hsame (-9) 6 (by decide)).2 (by decide)
  have htop : quotient top (1 - top) = ⟨-top, (2 ^ 127 - 2 : Nat)⟩ := by decide +kernel
  obtain ⟨hword, hinteger⟩ := hlargest (by decide) (by decide)
  rw [htop] at hword hinteger
  refine ⟨⟨hword, hinteger.trans ?_⟩, by decide, by decide, ?_, ?_, ?_, ?_⟩
  · decide +kernel
  · rw [(hwords (by decide) (by decide)).1, hnine]
  · rw [← hnine]
    exact hquotient
  · rw [((quotient_canonical (-9) 6).2.1 (by decide)).2.2]
    decide
  · exact (quotient_canonical 5 0).1 rfl

example : Trapping.quotient (-2 ^ 127) (-1) = .error .overflow := by decide +kernel

end Dissect.Ratio
