import Dissect.Format.Step

/-! Programs as they are nested in a document, and their flat form. -/
namespace Dissect

inductive Program (ρ : Type) where
  | done
  | act (action : Action ρ) (rest : Program ρ)
  | guarded (guard : Guard ρ) (body rest : Program ρ)
  | loop (guard : LoopGuard ρ) (body rest : Program ρ)
  | selection (body rest : Program ρ)
  deriving DecidableEq, Repr

/-- Each body goes between its markers. -/
def Program.flatten {ρ : Type} : Program ρ → List (Step ρ)
  | .done => []
  | .act a rest => .act a :: rest.flatten
  | .guarded g body rest => .matchStart g :: (body.flatten ++ .matchEnd :: rest.flatten)
  | .loop g body rest => .loopStart g :: (body.flatten ++ .loopEnd :: rest.flatten)
  | .selection body rest => .selectionStart :: (body.flatten ++ .selectionEnd :: rest.flatten)

/-- Functions that take the place of references of each kind. -/
structure Renaming (ρ σ : Type) where
  color : ρ → σ
  field : ρ → σ
  block : ρ → σ
  var : ρ → σ

namespace Renaming
variable {ρ σ : Type} (r : Renaming ρ σ)

def operand : Operand ρ → Operand σ
  | .literal v => .literal v
  | .var id => .var (r.var id)

def test : VarTest ρ → VarTest σ
  | .equals o => .equals (r.operand o)
  | .greater o => .greater (r.operand o)
  | .bit o => .bit (r.operand o)
  | .defined => .defined

def guard : Guard ρ → Guard σ
  | .var id t => .var (r.var id) (r.test t)
  | .bytes pattern convert => .bytes pattern convert

def condition : LoopCondition ρ → LoopCondition σ
  | .remaining => .remaining
  | .below id target => .below (r.var id) (r.operand target)
  | .always => .always

def loopGuard (g : LoopGuard ρ) : LoopGuard σ := ⟨r.condition g.condition, g.count⟩

def action : Action ρ → Action σ
  | .field s =>
    .field ⟨r.field s.field, s.var.map r.var, s.offset.map r.operand, s.limit.map r.operand, s.tab⟩
  | .block id => .block (r.block id)
  | .print s => .print ⟨s.label, r.var s.var, s.tab, s.suppress, s.hex⟩
  | .exec s => .exec ⟨r.var s.var, s.op, s.signed, r.operand s.operand, s.width⟩
  | .title text => .title text
  | .insert tab => .insert tab

def program : Program ρ → Program σ
  | .done => .done
  | .act a rest => .act (r.action a) (program rest)
  | .guarded g body rest => .guarded (r.guard g) (program body) (program rest)
  | .loop g body rest => .loop (r.loopGuard g) (program body) (program rest)
  | .selection body rest => .selection (program body) (program rest)

end Renaming

end Dissect
