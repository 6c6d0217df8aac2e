import Dissect.Machine.Step

/-! Whole runs. Every step is counted against a limit; returning from a block that has ended costs
nothing. Whatever ends a run, the tabs still open are delivered. -/
namespace Dissect

structure Config where
  stepLimit : Nat := 1000000
  maxBlockDepth : Nat := 64
  fillGaps : Bool := true
  deriving DecidableEq, Repr

def Outcome.isComplete (o : Outcome) : Bool := o == .completed

def Outcome.text : Outcome → String
  | .completed => "completed"
  | .exhausted offset field =>
    "out of data reading '" ++ field ++ "' at offset 0x" ++ Text.hexLower offset
  | .unknownValue offset field =>
    "unknown value for '" ++ field ++ "' at offset 0x" ++ Text.hexLower offset
  | .stepLimit steps => "stopped after " ++ toString steps ++ " steps"
  | .blockDepth block => "block calls nested too deeply entering '" ++ block ++ "'"

structure Run where
  events : List Event
  notes : List Note
  outcome : Outcome
  steps : Nat
  deriving DecidableEq, Repr

namespace Definition
variable (d : Definition) (data : Buffer)

/-- Leaves blocks that have no step left. The place comes with the returns that remain. -/
def unwind (here : Place) : List Place → Place × List Place
  | [] => (here, [])
  | r :: rest => if (d.step? here).isSome then (here, r :: rest) else unwind r rest

def unwound (here : Place) : List Place → List Place
  | [] => []
  | r :: rest => if (d.step? here).isSome then [] else r :: unwound r rest

def settle (s : State) : State :=
  let (place, returns) := d.unwind s.place s.returns
  { s with place := place, returns := returns }

def finish (s : State) (outcome : Outcome) (events : List Event) (notes : List Note) : Run where
  events := (s.tabs.reverse.map (Event.tab ·.close) ++ events).reverse
  notes := notes.reverse
  outcome := outcome
  steps := s.steps

/-- Runs on with at most `budget` more steps. Events and notes come last first. -/
def runFrom (maxDepth : Nat) (events : List Event) (notes : List Note) : Nat → State → Run
  | budget, s =>
    let notes := (d.unwound s.place s.returns).foldl (fun ns r => .returned r.pc :: ns) notes
    let s := d.settle s
    match d.step? s.place with
    | none => finish s .completed events notes
    | some step =>
      match budget with
      | 0 => finish s (.stepLimit s.steps) events notes
      | budget + 1 =>
        let s := { s with steps := s.steps + 1 }
        let effect := d.perform data maxDepth s step
        let events := effect.events.reverseAux events
        let notes := effect.note.toList ++ notes
        match effect.halted with
        | some outcome => finish effect.state outcome events notes
        | none => runFrom maxDepth events notes budget effect.state

/-- The run over a buffer; its first group has the name of the format. -/
def run (config : Config) : Run :=
  d.runFrom data config.maxBlockDepth [.title d.name] [] config.stepLimit (State.initial d)

end Definition

structure Analysis where
  ranges : List TaggedRange
  description : Description
  outcome : Outcome
  steps : Nat
  deriving DecidableEq, Repr

def Definition.analysisOf (d : Definition) (config : Config) (data : Buffer) (r : Run) : Analysis :=
  let ranges := rangesOf r.events
  { ranges :=
      if config.fillGaps then
        TaggedRange.fillGaps (d.taggedRange d.unusedField) data.size ranges
      else ranges
    description := Description.ofEvents r.events
    outcome := r.outcome
    steps := r.steps }

def Definition.analyze (d : Definition) (config : Config) (data : Buffer) : Analysis :=
  d.analysisOf config data (d.run data config)

end Dissect
