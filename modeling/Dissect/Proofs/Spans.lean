import Dissect.Format.Program

/-! Spans of flat programs. The flat form of a nested program has every marker at its place, so a
search that counts the markers of one kind finds the end marker that closes a body. -/
namespace Dissect
variable {ρ : Type}

/-- What a list of steps with only whole bodies in it adds to the way to a closing marker. -/
def Balanced (kind : SpanKind) (steps : List (Step ρ)) : Prop :=
  ∀ depth xs, stepsToClose kind depth (steps ++ xs) =
    (stepsToClose kind depth xs).map (· + steps.length)

theorem map_add_map (o : Option Nat) (m n : Nat) :
    (o.map (· + m)).map (· + n) = o.map (· + (m + n)) := by
  cases o with
  | none => rfl
  | some k => simp only [Option.map_some, Nat.add_assoc]

theorem Balanced.append {kind : SpanKind} {a b : List (Step ρ)} (ha : Balanced kind a)
    (hb : Balanced kind b) : Balanced kind (a ++ b) := by
  intro depth xs
  rw [List.append_assoc, ha, hb, map_add_map, List.length_append, Nat.add_comm]

theorem Balanced.enclosed {kind : SpanKind} {body : List (Step ρ)} (first last : Step ρ)
    (hfirst : first.closes kind = false) (hlast : last.opens kind = false)
    (hpair : first.opens kind = last.closes kind) (hbody : Balanced kind body) :
    Balanced kind (first :: (body ++ [last])) := by
  intro depth xs
  rw [List.cons_append, List.append_assoc, List.singleton_append]
  have hlen : (first :: (body ++ [last])).length = 1 + body.length + 1 := by
    simp only [List.length_cons, List.length_append, List.length_nil]
    omega
  cases ho : first.opens kind with
  | true =>
    have hl : last.closes kind = true := hpair ▸ ho
    simp only [stepsToClose, ho, if_true, hbody (depth + 1), hlast, hl, Bool.false_eq_true,
      if_false, map_add_map, hlen]
  | false =>
    have hl : last.closes kind = false := hpair ▸ ho
    simp only [stepsToClose, ho, hfirst, Bool.false_eq_true, if_false, hbody depth, hlast, hl,
      map_add_map, hlen]

theorem balanced_flatten (kind : SpanKind) (p : Program ρ) : Balanced kind p.flatten := by
  induction p with
  | done =>
    intro depth xs
    simp [Program.flatten]
  | act a rest ih =>
    intro depth xs
    simp only [Program.flatten, List.cons_append, stepsToClose, Step.opens, Step.closes,
      Bool.false_eq_true, if_false, ih depth xs, List.length_cons, map_add_map]
  | guarded g body rest ihb ihr =>
    have h := ihb.enclosed (.matchStart g) .matchEnd (by cases kind <;> rfl)
      (by cases kind <;> rfl) (by cases kind <;> rfl)
    simpa [Program.flatten] using h.append ihr
  | loop g body rest ihb ihr =>
    have h := ihb.enclosed (.loopStart g) .loopEnd (by cases kind <;> rfl)
      (by cases kind <;> rfl) (by cases kind <;> rfl)
    simpa [Program.flatten] using h.append ihr
  | selection body rest ihb ihr =>
    have h := ihb.enclosed .selectionStart .selectionEnd
      (by cases kind <;> rfl) (by cases kind <;> rfl) (by cases kind <;> rfl)
    simpa [Program.flatten] using h.append ihr

/-- From anywhere between the constructs of a body, its span ends right behind its end marker. -/
theorem skipSpan_flatten {kind : SpanKind} {p : Program ρ} {last : Step ρ}
    {steps post : List (Step ρ)} {start : Nat} (hlast : last.opens kind = false)
    (hclose : last.closes kind = true) (h : steps.drop start = p.flatten ++ last :: post) :
    skipSpan steps start kind = start + (p.flatten.length + 1) := by
  simp only [skipSpan, h, balanced_flatten kind p 0, stepsToClose, hlast, hclose, if_true,
    Bool.false_eq_true, if_false, Option.map_some]
  omega

end Dissect
