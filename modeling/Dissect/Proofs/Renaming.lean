import Dissect.Format.Definition

/-! Programs under other references: a renaming goes through every part of a program, two of them
make one, and where a body ends does not depend on the names in it. -/
namespace Dissect.Renaming
variable {ρ σ τ : Type}

def step (r : Renaming ρ σ) : Step ρ → Step σ
  | .act a => .act (r.action a)
  | .matchStart g => .matchStart (r.guard g)
  | .matchEnd => .matchEnd
  | .loopStart g => .loopStart (r.loopGuard g)
  | .loopEnd => .loopEnd
  | .selectionStart => .selectionStart
  | .selectionEnd => .selectionEnd

def fieldStep (r : Renaming ρ σ) (s : FieldStep ρ) : FieldStep σ :=
  ⟨r.field s.field, s.var.map r.var, s.offset.map r.operand, s.limit.map r.operand, s.tab⟩

def printStep (r : Renaming ρ σ) (s : PrintStep ρ) : PrintStep σ :=
  ⟨s.label, r.var s.var, s.tab, s.suppress, s.hex⟩

def execStep (r : Renaming ρ σ) (s : ExecStep ρ) : ExecStep σ :=
  ⟨r.var s.var, s.op, s.signed, r.operand s.operand, s.width⟩

def comp (q : Renaming σ τ) (r : Renaming ρ σ) : Renaming ρ τ where
  color := q.color ∘ r.color
  field := q.field ∘ r.field
  block := q.block ∘ r.block
  var := q.var ∘ r.var

section Comp
variable (q : Renaming σ τ) (r : Renaming ρ σ)

theorem operand_comp (o : Operand ρ) : (q.comp r).operand o = q.operand (r.operand o) := by
  cases o <;> rfl

theorem map_operand_comp (o : Option (Operand ρ)) :
    o.map (q.comp r).operand = (o.map r.operand).map q.operand := by
  rw [Option.map_map]
  congr 1
  funext o
  exact operand_comp q r o

theorem test_comp (t : VarTest ρ) : (q.comp r).test t = q.test (r.test t) := by
  cases t <;> simp only [test, operand_comp]

theorem guard_comp (g : Guard ρ) : (q.comp r).guard g = q.guard (r.guard g) := by
  cases g with
  | var id t =>
    simp only [guard, test_comp]
    rfl
  | bytes pattern convert => rfl

theorem loopGuard_comp (g : LoopGuard ρ) :
    (q.comp r).loopGuard g = q.loopGuard (r.loopGuard g) := by
  obtain ⟨condition, count⟩ := g
  cases condition with
  | below id target =>
    simp only [loopGuard, condition, operand_comp]
    rfl
  | _ => rfl

theorem action_comp (a : Action ρ) : (q.comp r).action a = q.action (r.action a) := by
  cases a with
  | field s =>
    simp only [action, map_operand_comp]
    simp only [Option.map_map]
    rfl
  | exec s =>
    simp only [action, operand_comp]
    rfl
  | _ => rfl

theorem program_comp (p : Program ρ) : (q.comp r).program p = q.program (r.program p) := by
  induction p with
  | done => rfl
  | act a rest ih => simp only [program, action_comp, ih]
  | guarded g body rest ihb ih => simp only [program, guard_comp, ihb, ih]
  | loop g body rest ihb ih => simp only [program, loopGuard_comp, ihb, ih]
  | selection body rest ihb ih => simp only [program, ihb, ih]

theorem endianness_comp (e : Endianness ρ) :
    (q.comp r).endianness e = q.endianness (r.endianness e) := by
  cases e <;> rfl

theorem magicStep_comp (m : MagicStep ρ) :
    (q.comp r).magicStep m = q.magicStep (r.magicStep m) := by
  cases m with
  | pattern bytes offset => simp only [magicStep, map_operand_comp]
  | capture var width offset =>
    simp only [magicStep, map_operand_comp]
    rfl

theorem signature_comp (s : Signature ρ) :
    (q.comp r).signature s = q.signature (r.signature s) := by
  rw [signature, signature, signature, List.map_map]
  exact List.map_congr_left fun m _ => magicStep_comp q r m

end Comp

variable (r : Renaming ρ σ)

theorem flatten_program (p : Program ρ) : (r.program p).flatten = p.flatten.map r.step := by
  induction p with
  | done => rfl
  | act a rest ih => simp only [program, Program.flatten, ih, List.map_cons, step]
  | guarded g body rest ihb ih =>
    simp only [program, Program.flatten, ihb, ih, List.map_cons, List.map_append, step]
  | loop g body rest ihb ih =>
    simp only [program, Program.flatten, ihb, ih, List.map_cons, List.map_append, step]
  | selection body rest ihb ih =>
    simp only [program, Program.flatten, ihb, ih, List.map_cons, List.map_append, step]

theorem stepsToClose_map (kind : SpanKind) (depth : Nat) (steps : List (Step ρ)) :
    stepsToClose kind depth (steps.map r.step) = stepsToClose kind depth steps := by
  have hopens (s : Step ρ) : (r.step s).opens kind = s.opens kind := by
    cases s <;> cases kind <;> rfl
  have hcloses (s : Step ρ) : (r.step s).closes kind = s.closes kind := by
    cases s <;> cases kind <;> rfl
  induction steps generalizing depth with
  | nil => rfl
  | cons s steps ih =>
    cases depth with
    | zero => simp only [List.map_cons, stepsToClose, hopens, hcloses, ih]
    | succ depth => simp only [List.map_cons, stepsToClose, hopens, hcloses, ih]

theorem skipSpan_map (steps : List (Step ρ)) (start : Nat) (kind : SpanKind) :
    skipSpan (steps.map r.step) start kind = skipSpan steps start kind := by
  rw [skipSpan, ← List.map_drop, stepsToClose_map, List.length_map, skipSpan]

end Dissect.Renaming
