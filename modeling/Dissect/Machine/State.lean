import Dissect.Detect
import Dissect.Output.Description

/-! The state of a run. A flat program is executed by an index into it; bodies, loops, selections
and calls that are under way are kept on stacks, the innermost first. -/
namespace Dissect

inductive Code where
  | main
  | block (id : Nat)
  deriving DecidableEq, Repr

def Definition.code (d : Definition) : Code → List (Step Nat)
  | .main => d.program
  | .block id => (d.block id).steps

structure Place where
  code : Code
  pc : Nat
  deriving DecidableEq, Repr

def Definition.step? (d : Definition) (p : Place) : Option (Step Nat) := (d.code p.code)[p.pc]?

structure LoopFrame where
  start : Place
  callDepth : Nat
  iterations : Nat
  deriving DecidableEq, Repr

/-- A selection, and how deep everything else was nested when it was opened. -/
structure SelectionFrame where
  matchDepth : Nat
  loopDepth : Nat
  callDepth : Nat
  /-- One of its own guarded bodies was entered. -/
  satisfied : Bool
  deriving DecidableEq, Repr

/-- A tab that is being written, the last line first. -/
structure OpenTab where
  name : String
  written : List Line
  deriving DecidableEq, Repr

def OpenTab.close (t : OpenTab) : Tab := ⟨t.name, t.written.reverse⟩

structure State where
  place : Place
  cursor : Nat
  store : Store
  /-- In the order in which they were opened. -/
  tabs : List OpenTab
  loops : List LoopFrame
  selections : List SelectionFrame
  returns : List Place
  matchDepth : Nat
  steps : Nat
  deriving DecidableEq, Repr

def State.initial (d : Definition) : State where
  place := ⟨.main, 0⟩
  cursor := 0
  store := Store.empty d.vars.length
  tabs := []
  loops := []
  selections := []
  returns := []
  matchDepth := 0
  steps := 0

inductive Outcome where
  | completed
  | exhausted (offset : Nat) (field : String)
  | unknownValue (offset : Nat) (field : String)
  | stepLimit (steps : Nat)
  | blockDepth (block : String)
  deriving DecidableEq, Repr

/-- What can be told about the way of a run besides its events. -/
inductive Note where
  | returned (pc : Nat)
  | entered (block : String)
  | matchFailed (pc target : Nat)
  | selectionLeft (target : Nat)
  | loopLeft (pc iterations : Nat)
  | executed (op : ArithOp) (name : String) (value : Option Value)
  deriving DecidableEq, Repr

structure Effect where
  state : State
  events : List Event := []
  note : Option Note := none
  halted : Option Outcome := none

namespace OpenTab

/-- Writes into the open tab of a name, or opens one behind the others. -/
def write (name : String) (line : Line) : List OpenTab → List OpenTab
  | [] => [⟨name, [line]⟩]
  | t :: tabs =>
    if t.name = name then { t with written := line :: t.written } :: tabs
    else t :: write name line tabs

def take (name : String) : List OpenTab → Option (OpenTab × List OpenTab)
  | [] => none
  | t :: tabs =>
    if t.name = name then some (t, tabs)
    else (take name tabs).map fun (found, tabs) => (found, t :: tabs)

end OpenTab

namespace State

def jump (s : State) (pc : Nat) : State := { s with place := { s.place with pc := pc } }

def next (s : State) : State := s.jump (s.place.pc + 1)

def operand (s : State) : Operand Nat → Int
  | .literal v => v.toInt
  | .var id => (s.store.integer? id).getD 0

/-- The operand of an arithmetic step, which keeps an exact quotient. -/
def operandValue (s : State) : Operand Nat → Value
  | .literal v => if v < 0 then .signed v else .unsigned v.toUInt64
  | .var id => ((s.store.get? id).map (·.value)).getD (.unsigned 0)

/-- Lines without a tab are events at once; the others wait in their tab. -/
def writeLines (s : State) (tab : Option String) (lines : List Line) : State × List Event :=
  match tab with
  | none => (s, lines.map Event.line)
  | some name =>
    ({ s with tabs := lines.foldl (fun tabs l => OpenTab.write name l tabs) s.tabs }, [])

end State

end Dissect
