import Dissect.Number.Store

/-! What a program does, step by step. Fields, blocks and variables are references of type `ρ`:
identifiers with the place that mentions them in a document, numbers in a definition. A flat
program is a list of steps in which a body stands between a start and an end marker. -/
namespace Dissect

inductive Operand (ρ : Type) where
  | literal (value : Int64)
  | var (id : ρ)
  deriving DecidableEq, Repr

inductive VarTest (ρ : Type) where
  | equals (operand : Operand ρ)
  | greater (operand : Operand ρ)
  | bit (operand : Operand ρ)
  | defined
  deriving DecidableEq, Repr

inductive Guard (ρ : Type) where
  | var (id : ρ) (test : VarTest ρ)
  /-- The buffer goes on with a pattern, which is turned round for little-endian data if
  `convert`. -/
  | bytes (pattern : List UInt8) (convert : Bool)
  deriving DecidableEq, Repr

inductive LoopCondition (ρ : Type) where
  | remaining
  /-- The variable is undefined or below the target. -/
  | below (id : ρ) (target : Operand ρ)
  | always
  deriving DecidableEq, Repr

structure LoopGuard (ρ : Type) where
  condition : LoopCondition ρ
  count : Option Nat
  deriving DecidableEq, Repr

structure FieldStep (ρ : Type) where
  field : ρ
  var : Option ρ
  /-- Where the field is, if not at the cursor; the cursor then stays where it is. -/
  offset : Option (Operand ρ)
  limit : Option (Operand ρ)
  tab : Option String
  deriving DecidableEq, Repr

structure PrintStep (ρ : Type) where
  label : String
  var : ρ
  tab : Option String
  suppress : Bool
  hex : Bool
  deriving DecidableEq, Repr

structure ExecStep (ρ : Type) where
  var : ρ
  op : ArithOp
  signed : Bool
  operand : Operand ρ
  width : Option Width
  deriving DecidableEq, Repr

inductive Action (ρ : Type) where
  | field (step : FieldStep ρ)
  | block (id : ρ)
  | print (step : PrintStep ρ)
  | exec (step : ExecStep ρ)
  | title (text : String)
  /-- Delivers an open tab. -/
  | insert (tab : String)
  deriving DecidableEq, Repr

inductive Step (ρ : Type) where
  | act (action : Action ρ)
  | matchStart (guard : Guard ρ)
  | matchEnd
  | loopStart (guard : LoopGuard ρ)
  | loopEnd
  | selectionStart
  | selectionEnd
  deriving DecidableEq, Repr

inductive SpanKind where
  | guarded
  | loop
  | selection
  deriving DecidableEq, Repr

def Step.opens {ρ : Type} : Step ρ → SpanKind → Bool
  | .matchStart _, .guarded => true
  | .loopStart _, .loop => true
  | .selectionStart, .selection => true
  | _, _ => false

def Step.closes {ρ : Type} : Step ρ → SpanKind → Bool
  | .matchEnd, .guarded => true
  | .loopEnd, .loop => true
  | .selectionEnd, .selection => true
  | _, _ => false

/-- How many steps there are up to and with the marker that closes one more body of a kind than
were opened, when `depth` bodies of the kind are open already. -/
def stepsToClose {ρ : Type} (kind : SpanKind) : Nat → List (Step ρ) → Option Nat
  | _, [] => none
  | depth, s :: rest =>
    if s.opens kind then (stepsToClose kind (depth + 1) rest).map (· + 1)
    else if s.closes kind then
      match depth with
      | 0 => some 1
      | depth + 1 => (stepsToClose kind depth rest).map (· + 1)
    else (stepsToClose kind depth rest).map (· + 1)

/-- The index just past the end of the body of a kind that is open at index `start`, or the length
of the program if the body does not end. -/
def skipSpan {ρ : Type} (steps : List (Step ρ)) (start : Nat) (kind : SpanKind) : Nat :=
  match stepsToClose kind 0 (steps.drop start) with
  | some n => start + n
  | none => steps.length

end Dissect
