import Dissect.Machine.Run

/-! Runs over nested programs, by recursion on their structure. No step counter points into a list
and no stack is kept: a body is run by running it, a loop by running its body again, a call by
running the block. What is left of the step limit bounds the recursion. -/
namespace Dissect

/-- What steps work on. Nothing of it says where in a program a run is. -/
structure Memory where
  cursor : Nat
  store : Store
  tabs : List OpenTab

/-- Where a run is: the part of a state that steps without a body leave as it is. -/
structure Control where
  place : Place
  loops : List LoopFrame
  selections : List SelectionFrame
  returns : List Place
  matchDepth : Nat

def Control.state (c : Control) (m : Memory) (steps : Nat) : State where
  place := c.place
  cursor := m.cursor
  store := m.store
  tabs := m.tabs
  loops := c.loops
  selections := c.selections
  returns := c.returns
  matchDepth := c.matchDepth
  steps := steps

def State.memory (s : State) : Memory := ⟨s.cursor, s.store, s.tabs⟩

def Control.start : Control := ⟨⟨.main, 0⟩, [], [], [], 0⟩

def Memory.bare (m : Memory) : State := Control.start.state m 0

inductive Ending where
  | through
  /-- A guarded body was run that is the choice of the selection it is directly in. -/
  | decided
  /-- There is a next step, but the limit does not allow it. -/
  | spent
  | halted (outcome : Outcome)

structure Stretch where
  memory : Memory
  events : List Event
  steps : Nat
  ending : Ending

namespace Stretch

def stay (m : Memory) : Stretch := ⟨m, [], 0, .through⟩

/-- The end marker of a body, if `left` steps are left. -/
def marker (left : Nat) (m : Memory) : Stretch :=
  match left with
  | 0 => ⟨m, [], 0, .spent⟩
  | _ + 1 => ⟨m, [], 1, .through⟩

def andThen (r : Stretch) (next : Memory → Stretch) : Stretch :=
  match r.ending with
  | .through =>
    let t := next r.memory
    ⟨t.memory, r.events ++ t.events, r.steps + t.steps, t.ending⟩
  | _ => r

def counted (r : Stretch) : Stretch := { r with steps := r.steps + 1 }

def closed (r : Stretch) (left : Nat) : Stretch := r.andThen (marker (left - r.steps))

def chosen (r : Stretch) : Stretch :=
  match r.ending with
  | .through => { r with ending := .decided }
  | _ => r

/-- The children of a selection. If one of them was chosen, the end marker is skipped. -/
def selected (r : Stretch) (left : Nat) : Stretch :=
  match r.ending with
  | .decided => { r with ending := .through }
  | _ => r.closed left

def ofEffect (e : Effect) : Stretch where
  memory := e.state.memory
  events := e.events
  steps := 1
  ending := match e.halted with
    | some outcome => .halted outcome
    | none => .through

end Stretch

structure Tree where
  main : Program Nat
  block : Nat → Program Nat

namespace Definition
variable (d : Definition) (data : Buffer)

/-- What a step without a body does to a memory; calls are not among them. -/
def leaf (m : Memory) : Action Nat → Effect
  | .field step => d.fieldStep data m.bare step
  | .print step => printStep m.bare step
  | .exec step => d.execStep m.bare step
  | .title text => { state := m.bare, events := [.title text] }
  | .insert tab => insertStep m.bare tab
  | .block _ => { state := m.bare }

def goesOn (m : Memory) (guard : LoopGuard Nat) (turns : Nat) : Bool :=
  (match guard.count with
    | some count => turns < count
    | none => true) && continues data m.bare guard.condition

variable (tree : Tree) (maxDepth : Nat)

mutual

/-- Runs a program in which `depth` calls are pending, with `left` steps left. `direct` says that
the program is the children of a selection, of which the first guarded body that is entered is the
last thing to be run. -/
def walk (depth : Nat) (direct : Bool) : Nat → Memory → Program Nat → Stretch
  | _, m, .done => .stay m
  | 0, m, _ => ⟨m, [], 0, .spent⟩
  | left + 1, m, .act (.block id) rest =>
    if maxDepth ≤ depth then ⟨m, [], 1, .halted (.blockDepth (d.block id).id)⟩
    else
      let called := walk (depth + 1) false left m (tree.block id)
      (called.andThen fun m => walk depth direct (left - called.steps) m rest).counted
  | left + 1, m, .act action rest =>
    (Stretch.ofEffect (d.leaf data m action)).andThen fun m => walk depth direct left m rest
  | left + 1, m, .guarded guard body rest =>
    if d.holds data m.bare guard then
      let inner := (walk depth false left m body).closed left
      if direct then inner.chosen.counted
      else (inner.andThen fun m => walk depth direct (left - inner.steps) m rest).counted
    else (walk depth direct left m rest).counted
  | left + 1, m, .loop guard body rest =>
    let inner := turn depth guard body 0 (left + 1) m
    inner.andThen fun m => walk depth direct (left + 1 - inner.steps) m rest
  | left + 1, m, .selection body rest =>
    let inner := (walk depth true left m body).selected left
    (inner.andThen fun m => walk depth direct (left - inner.steps) m rest).counted
termination_by left _ p => (left, sizeOf p)
decreasing_by
  all_goals
    simp_wf
    omega

/-- Runs a loop that has run `turns` times since it was entered. -/
def turn (depth : Nat) (guard : LoopGuard Nat) (body : Program Nat) (turns : Nat) :
    Nat → Memory → Stretch
  | 0, m => ⟨m, [], 0, .spent⟩
  | left + 1, m =>
    if goesOn data m guard turns then
      let inner := (walk depth false left m body).closed left
      (inner.andThen fun m => turn depth guard body (turns + 1) (left - inner.steps) m).counted
    else ⟨m, [], 1, .through⟩
termination_by left _ => (left, sizeOf body)

end

end Definition

def Control.lift (c : Control) (steps : Nat) (e : Effect) : Effect :=
  { e with state := c.state e.state.memory steps }

namespace Definition
variable {d : Definition} {data : Buffer} {maxDepth : Nat}

theorem writeLines_state (c : Control) (m : Memory) (steps : Nat) (tab : Option String)
    (lines : List Line) :
    (c.state m steps).writeLines tab lines =
      (c.state (m.bare.writeLines tab lines).1.memory steps, (m.bare.writeLines tab lines).2) := by
  cases tab <;> rfl

theorem operand_state (c : Control) (m : Memory) (steps : Nat) :
    (c.state m steps).operand = m.bare.operand := rfl

theorem readField_state (c : Control) (m : Memory) (steps : Nat) (f : FieldDef Nat)
    (step : FieldStep Nat) :
    d.readField data (c.state m steps) f step = c.lift steps (d.readField data m.bare f step) := by
  have hc : (c.state m steps).cursor = m.bare.cursor := rfl
  have hs : (c.state m steps).store = m.bare.store := rfl
  simp only [readField, operand_state, hc, hs, writeLines_state]
  cases f.size.resolve data m.bare.cursor (step.limit.map m.bare.operand) with
  | none => rfl
  | some size =>
    cases size with
    | zero => rfl
    | succ size => rfl

theorem fieldStep_state (c : Control) (m : Memory) (steps : Nat) (step : FieldStep Nat) :
    d.fieldStep data (c.state m steps) step = c.lift steps (d.fieldStep data m.bare step) := by
  simp only [fieldStep, operand_state]
  cases step.offset.map m.bare.operand with
  | none => exact readField_state c m steps _ step
  | some target =>
    by_cases h : 0 ≤ target ∧ target ≤ data.size
    · simp only [if_pos h]
      have hr : d.readField data (c.state { m with cursor := target.toNat } steps) _ step = _ :=
        readField_state c { m with cursor := target.toNat } steps (d.field step.field) step
      exact congrArg (fun e : Effect => { e with state := { e.state with cursor := m.cursor } }) hr
    · simp only [if_neg h]
      rfl

theorem printStep_state (c : Control) (m : Memory) (steps : Nat) (step : PrintStep Nat) :
    printStep (c.state m steps) step = c.lift steps (printStep m.bare step) := by
  have hs : (c.state m steps).store = m.bare.store := rfl
  simp only [printStep, hs, writeLines_state]
  split <;> rfl

theorem insertStep_state (c : Control) (m : Memory) (steps : Nat) (tab : String) :
    insertStep (c.state m steps) tab = c.lift steps (insertStep m.bare tab) := by
  have ht : (c.state m steps).tabs = m.bare.tabs := rfl
  simp only [insertStep, ht]
  cases OpenTab.take tab m.bare.tabs <;> rfl

end Definition

structure Course where
  events : List Event
  outcome : Outcome
  steps : Nat

def Run.course (r : Run) : Course := ⟨r.events, r.outcome, r.steps⟩

def Stretch.course (r : Stretch) (title : String) : Course where
  events := .title title :: r.events ++ r.memory.tabs.map (Event.tab ·.close)
  outcome := match r.ending with
    | .halted outcome => outcome
    | .spent => .stepLimit r.steps
    | _ => .completed
  steps := r.steps

def Definition.courseOf (d : Definition) (tree : Tree) (data : Buffer) (config : Config) : Course :=
  (d.walk data tree config.maxBlockDepth 0 false config.stepLimit
    ⟨0, Store.empty d.vars.length, []⟩ tree.main).course d.name

end Dissect
