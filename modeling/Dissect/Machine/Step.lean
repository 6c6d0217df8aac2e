import Dissect.Machine.Reading
import Dissect.Machine.State

/-! One step of a run. -/
namespace Dissect

def findByte (data : Buffer) (byte : UInt8) (start : Nat) : Nat → Option Nat
  | 0 => none
  | window + 1 =>
    if data[start]? = some byte then some start else findByte data byte (start + 1) window

/-- How many bytes a field at `cursor` takes, if the buffer has them. A limit below zero counts as
zero. -/
def SizeRule.resolve (size : SizeRule) (data : Buffer) (cursor : Nat) (limit : Option Int) :
    Option Nat :=
  let left := data.size - cursor
  let limit := limit.map Int.toNat
  let ifLeft (n : Nat) : Option Nat := if n ≤ left then some n else none
  match size with
  | .fixed n => ifLeft n
  | .remaining =>
    match limit with
    | none => some left
    | some l => ifLeft l
  | .terminated byte =>
    match findByte data byte cursor ((limit.map (min left)).getD left) with
    | some i => some (i + 1 - cursor)
    | none => limit.bind ifLeft

namespace Definition
variable (d : Definition) (data : Buffer)

def taggedRange (f : FieldDef Nat) (start length : Nat) : TaggedRange :=
  let (color, background) := d.colorStyle f.color
  { start := start
    length := length
    color := color
    background := background
    label := f.name
    navLabel := f.tag
    accent := (f.accent.bind (d.colors[·]?)).map (·.index) }

/-- Reads a field at the cursor. A field cut to bits has no range and leaves the cursor where it
is; an empty one leaves everything as it is but for its line. -/
def readField (s : State) (f : FieldDef Nat) (step : FieldStep Nat) : Effect :=
  match f.size.resolve data s.cursor (step.limit.map s.operand) with
  | none => { state := s, halted := some (.exhausted s.cursor f.name) }
  | some 0 =>
    let (s, events) := s.writeLines step.tab [⟨f.name, "", none⟩]
    { state := s, events := events }
  | some size =>
    let bytes := (data.extract s.cursor (s.cursor + size)).toList
    let order := d.endianness.resolve s.store
    let reading := f.read order bytes
    let ranges := if f.bits.isSome then [] else [Event.range (d.taggedRange f s.cursor size)]
    let (t, events) := s.writeLines step.tab (⟨f.name, reading.value, f.tooltip⟩ :: reading.extra)
    let store := match step.var with
      | some id => s.store.set id (f.capture order bytes)
      | none => s.store
    let cursor := if f.bits.isSome then s.cursor else s.cursor + size
    { state := { t with store := store, cursor := cursor }
      events := ranges ++ events
      halted := if reading.known then none else some (.unknownValue s.cursor f.name) }

/-- A field with an offset is read there, and the cursor comes back afterwards. -/
def fieldStep (s : State) (step : FieldStep Nat) : Effect :=
  let f := d.field step.field
  match step.offset.map s.operand with
  | none => d.readField data s f step
  | some target =>
    if 0 ≤ target ∧ target ≤ data.size then
      let effect := d.readField data { s with cursor := target.toNat } f step
      { effect with state := { effect.state with cursor := s.cursor } }
    else { state := s, halted := some (.exhausted s.cursor f.name) }

def printedValue (store : Store) (step : PrintStep Nat) : Option String :=
  match store.get? step.var with
  | none => if step.suppress then none else some ""
  | some v =>
    if step.hex then some (Text.hexUpper v.asUnsigned.toNat)
    else
      match v.value with
      | .rational r => some r.text
      | _ => some (toString v.integer)

def printStep (s : State) (step : PrintStep Nat) : Effect :=
  match printedValue s.store step with
  | none => { state := s }
  | some value =>
    let (s, events) := s.writeLines step.tab [⟨step.label, value, none⟩]
    { state := s, events := events }

def execStep (s : State) (step : ExecStep Nat) : Effect :=
  let store :=
    s.store.apply step.var step.op step.signed (some (s.operandValue step.operand)) step.width
  { state := { s with store := store }
    note := some
      (.executed step.op (d.variableName step.var) ((store.get? step.var).map (·.value))) }

def insertStep (s : State) (tab : String) : Effect :=
  match OpenTab.take tab s.tabs with
  | none => { state := s }
  | some (found, tabs) => { state := { s with tabs := tabs }, events := [.tab found.close] }

def holds (s : State) : Guard Nat → Bool
  | .var id test =>
    match s.store.integer? id with
    | none => false
    | some value =>
      match test with
      | .equals o => value == s.operand o
      | .greater o => s.operand o < value
      | .bit o => UInt64.ofInt value &&& UInt64.ofInt (s.operand o) != 0
      | .defined => true
  | .bytes pattern convert =>
    let expected := if convert then (d.endianness.resolve s.store).msbFirst pattern else pattern
    slice? data s.cursor expected.length == some expected

def continues (s : State) : LoopCondition Nat → Bool
  | .remaining => s.cursor < data.size
  | .below id target =>
    match s.store.integer? id with
    | none => true
    | some value => value < s.operand target
  | .always => true

end Definition

namespace State

/-- Does the innermost selection have the current body, at this depth of bodies, for its own? -/
def decides (s : State) (matchDepth : Nat) (sel : SelectionFrame) : Bool :=
  sel.matchDepth == matchDepth && sel.loopDepth == s.loops.length &&
    sel.callDepth == s.returns.length

def markSatisfied (s : State) : State :=
  match s.selections with
  | [] => s
  | sel :: rest =>
    if s.decides s.matchDepth sel then
      { s with selections := { sel with satisfied := true } :: rest }
    else s

def pushSelection (s : State) : State :=
  let sel := ⟨s.matchDepth, s.loops.length, s.returns.length, false⟩
  { s with selections := sel :: s.selections }

/-- The frame of the loop that starts here, if control comes back to it from its end. -/
def resumed? (s : State) : Option (LoopFrame × List LoopFrame) :=
  match s.loops with
  | [] => none
  | l :: rest =>
    if l.start = s.place ∧ l.callDepth = s.returns.length then some (l, rest) else none

end State

namespace Definition
variable (d : Definition) (data : Buffer)

def matchStart (s : State) (guard : Guard Nat) : Effect :=
  if d.holds data s guard then
    let s := s.markSatisfied
    { state := { s with matchDepth := s.matchDepth + 1 }.next }
  else
    let target := skipSpan (d.code s.place.code) (s.place.pc + 1) .guarded
    { state := s.jump target, note := some (.matchFailed s.place.pc target) }

/-- The end of a guarded body that a selection has for its own is the end of the selection. -/
def matchEnd (s : State) : Effect :=
  let s := { s with matchDepth := s.matchDepth - 1 }
  match s.selections with
  | [] => { state := s.next }
  | sel :: rest =>
    if s.decides s.matchDepth sel && sel.satisfied then
      let target := skipSpan (d.code s.place.code) (s.place.pc + 1) .selection
      { state := { s with selections := rest }.jump target, note := some (.selectionLeft target) }
    else { state := s.next }

def loopStart (s : State) (guard : LoopGuard Nat) : Effect :=
  let (iterations, outer) :=
    match s.resumed? with
    | some (l, rest) => (l.iterations, rest)
    | none => (0, s.loops)
  let below := match guard.count with
    | some count => iterations < count
    | none => true
  if below && continues data s guard.condition then
    let frame := ⟨s.place, s.returns.length, iterations + 1⟩
    { state := { s with loops := frame :: outer }.next }
  else
    let target := skipSpan (d.code s.place.code) (s.place.pc + 1) .loop
    { state := { s with loops := outer }.jump target
      note := some (.loopLeft s.place.pc iterations) }

def loopEnd (s : State) : Effect :=
  match s.loops with
  | [] => { state := s.next }
  | l :: _ =>
    if l.start.code = s.place.code then { state := s.jump l.start.pc } else { state := s.next }

def call (maxDepth : Nat) (s : State) (id : Nat) : Effect :=
  let name := (d.block id).id
  if maxDepth ≤ s.returns.length then { state := s, halted := some (.blockDepth name) }
  else
    { state := { s with returns := s.next.place :: s.returns, place := ⟨.block id, 0⟩ }
      note := some (.entered name) }

def thenNext (e : Effect) : Effect := { e with state := e.state.next }

def perform (maxDepth : Nat) (s : State) : Step Nat → Effect
  | .act (.field step) => thenNext (d.fieldStep data s step)
  | .act (.block id) => d.call maxDepth s id
  | .act (.print step) => thenNext (printStep s step)
  | .act (.exec step) => thenNext (d.execStep s step)
  | .act (.title text) => thenNext { state := s, events := [.title text] }
  | .act (.insert tab) => thenNext (insertStep s tab)
  | .matchStart guard => d.matchStart data s guard
  | .matchEnd => d.matchEnd s
  | .loopStart guard => d.loopStart data s guard
  | .loopEnd => loopEnd s
  | .selectionStart => { state := s.pushSelection.next }
  | .selectionEnd => { state := { s with selections := s.selections.drop 1 }.next }

end Definition

end Dissect
