import Dissect.Proofs.Tiling
import Dissect.Proofs.Traps

/-! Runs on a machine that traps. Every function of a run is given once more, with the operations
that can trap where they stand; on a state that is sound none does, and what comes out is the same
as without them. -/
namespace Dissect

namespace Trapping

/-! ## Bytes of a field -/

def slice (data : Buffer) (start stop : Nat) : Except Trap (List UInt8) :=
  if start ≤ stop ∧ stop ≤ data.size then .ok (data.extract start stop).toList else .error .slice

def dropNuls (bytes : List UInt8) : Except Trap (List UInt8) := do
  let stop ←
    match bytes.reverse.findIdx? (!· == 0) with
    | some i => add (bytes.length - 1 - i) 1
    | none => .ok 0
  if stop ≤ bytes.length then .ok (bytes.take stop) else .error .slice

def decode (encoding : Encoding) (bytes : List UInt8) : Except Trap (List Char) :=
  match encoding with
  | .ascii => do
    return (← dropNuls bytes).map fun b =>
      if 0x20 ≤ b.toNat ∧ b.toNat < 0x7F then Char.ofNat b.toNat else '.'
  | .utf8 => do return Text.Utf8.decodeLossy (← dropNuls bytes)
  | .latin1 => do return (← dropNuls bytes).map fun b => Char.ofNat b.toNat
  | .utf16le | .utf16be => .ok (encoding.decode bytes)

/-- Besides the ends of texts only the sign of a number can trap. -/
def read (f : FieldDef Nat) (order : ByteOrder) (bytes : List UInt8) : Except Trap Reading :=
  match f.print with
  | .text => do return { value := String.ofList (← decode f.encoding bytes) }
  | .signed =>
    if f.bits.isSome = false ∧ bytes.length ≤ 8 then do
      return { value := toString (← signExtend (f.word order bytes) bytes.length).toInt }
    else .ok (f.read order bytes)
  | _ => .ok (f.read order bytes)

def capture (f : FieldDef Nat) (order : ByteOrder) (bytes : List UInt8) : Except Trap Variable := do
  let width := Width.fitting bytes.length
  let word := f.word order bytes
  let value ←
    if f.print = .signed ∧ f.bits = none then do
      pure (Value.signed (← wrapSigned width (← signExtend word (min bytes.length 8))))
    else do pure (Value.unsigned (← wrapUnsigned width word))
  return ⟨width, value, bytes⟩

theorem slice_eq_ok {data : Buffer} {start stop : Nat} (h : start ≤ stop) (h' : stop ≤ data.size) :
    slice data start stop = .ok (data.extract start stop).toList := if_pos ⟨h, h'⟩

theorem dropNuls_eq_ok {bytes : List UInt8} (h : bytes.length < 2 ^ 64) :
    dropNuls bytes = .ok (Dissect.dropNuls bytes) := by
  rw [dropNuls, Dissect.dropNuls, List.dropWhile_eq_drop_findIdx_not, List.reverse_drop,
    List.reverse_reverse, List.length_reverse]
  cases hi : bytes.reverse.findIdx? (!· == 0) with
  | none =>
    rw [List.findIdx?_eq_none_iff_findIdx_eq] at hi
    rw [hi, List.length_reverse, Nat.sub_self]
    rfl
  | some i =>
    obtain ⟨hlt, hi⟩ := List.findIdx?_eq_some_iff_findIdx_eq.1 hi
    rw [List.length_reverse] at hlt
    have hstop : bytes.length - 1 - i + 1 = bytes.length - i := by omega
    rw [hi]
    simp only [add_eq_ok (show bytes.length - 1 - i + 1 < 2 ^ 64 by omega), ok_bind, hstop]
    exact if_pos (Nat.sub_le ..)

theorem decode_eq_ok (encoding : Encoding) {bytes : List UInt8} (h : bytes.length < 2 ^ 64) :
    decode encoding bytes = .ok (encoding.decode bytes) := by
  cases encoding <;> simp only [decode, dropNuls_eq_ok h, ok_bind] <;> rfl

theorem read_eq_ok (f : FieldDef Nat) (order : ByteOrder) {bytes : List UInt8}
    (h : bytes.length < 2 ^ 64) : read f order bytes = .ok (f.read order bytes) := by
  rw [read]
  split
  case h_1 hp =>
    rw [decode_eq_ok _ h, FieldDef.read, hp]
    rfl
  case h_2 hp =>
    split
    · obtain ⟨hbits, hlength⟩ := ‹_ ∧ _›
      rw [signExtend_eq_ok, FieldDef.read, hp]
      simp only [hbits, hlength, decide_true, Bool.or_true, if_true, Bool.false_eq_true, if_false]
      rfl
    · rfl
  case h_3 => rfl

theorem capture_eq_ok (f : FieldDef Nat) (order : ByteOrder) (bytes : List UInt8) :
    capture f order bytes = .ok (f.capture order bytes) := by
  rw [capture, FieldDef.capture]
  simp only [wrapSigned_eq_ok, wrapUnsigned_eq_ok, signExtend_eq_ok, ok_bind]
  split <;> rfl

end Trapping

theorem FieldDef.capture_bounded (f : FieldDef Nat) (order : ByteOrder) (bytes : List UInt8) :
    (f.capture order bytes).value.Bounded := by
  rw [capture, Variable.withRaw]
  split <;> trivial

namespace Trapping

/-! ## Variables and tables of a run -/

section Reading
variable (d : Definition) (data : Buffer)

def integer? (s : Store) (id : Nat) : Except Trap (Option Int) := (s.get? id).mapM integer

def operand (s : State) : Operand Nat → Except Trap Int
  | .literal v => .ok v.toInt
  | .var id => do return (← integer? s.store id).getD 0

def colorStyle : Option Nat → Except Trap (Nat × Bool)
  | none => .ok (0, false)
  | some id => do
    let color ← index d.colors id
    return (color.index, color.background)

def taggedRange (f : FieldDef Nat) (start length : Nat) : Except Trap TaggedRange := do
  let (color, background) ← colorStyle d f.color
  return {
    start := start
    length := length
    color := color
    background := background
    label := f.name
    navLabel := f.tag
    accent := ← f.accent.mapM fun id => do return (← index d.colors id).index }

/-- How many bytes a field takes. A limit is a word, and one that does not fit counts as the
greatest. -/
def resolve (size : SizeRule) (cursor : Nat) (limit : Option Int) : Except Trap (Option Nat) := do
  let left := data.size - cursor
  let limit := limit.map fun l => min l.toNat (2 ^ 64 - 1)
  match size with
  | .fixed n => return if n ≤ left then some n else none
  | .remaining =>
    match limit with
    | none => return some left
    | some l => return if l ≤ left then some l else none
  | .terminated byte =>
    let window := (limit.map (min · left)).getD left
    let scanned ← slice data cursor (← add cursor window)
    match scanned.findIdx? (· == byte) with
    | some i => return some (← add i 1)
    | none => return limit.filter (· ≤ left)

def captured (s : Store) (f : FieldDef Nat) (order : ByteOrder) (bytes : List UInt8) :
    Option Nat → Except Trap Store
  | none => .ok s
  | some id => do set s id (← capture f order bytes)

def readBytes (s : State) (f : FieldDef Nat) (step : FieldStep Nat) (size : Nat) :
    Except Trap Effect := do
  let stop ← add s.cursor size
  let bytes ← slice data s.cursor stop
  let order := d.endianness.resolve s.store
  let reading ← read f order bytes
  let range ← taggedRange d f s.cursor size
  let (t, events) := s.writeLines step.tab (⟨f.name, reading.value, f.tooltip⟩ :: reading.extra)
  let store ← captured s.store f order bytes step.var
  return {
    state := { t with store := store, cursor := if f.bits.isSome then s.cursor else stop }
    events := (if f.bits.isSome then [] else [Event.range range]) ++ events
    halted := if reading.known then none else some (.unknownValue s.cursor f.name) }

def readField (s : State) (f : FieldDef Nat) (step : FieldStep Nat) : Except Trap Effect := do
  let limit ← step.limit.mapM (operand s)
  match ← resolve data f.size s.cursor limit with
  | none => return { state := s, halted := some (.exhausted s.cursor f.name) }
  | some 0 =>
    let (s, events) := s.writeLines step.tab [⟨f.name, "", none⟩]
    return { state := s, events := events }
  | some size => readBytes d data s f step size

def fieldStep (s : State) (step : FieldStep Nat) : Except Trap Effect := do
  let f ← index d.fields step.field
  match ← step.offset.mapM (operand s) with
  | none => readField d data s f step
  | some target =>
    if 0 ≤ target ∧ target ≤ data.size then
      let effect ← readField d data { s with cursor := target.toNat } f step
      return { effect with state := { effect.state with cursor := s.cursor } }
    else return { state := s, halted := some (.exhausted s.cursor f.name) }

def printedValue (store : Store) (step : PrintStep Nat) : Except Trap (Option String) :=
  match store.get? step.var with
  | none => .ok (if step.suppress then none else some "")
  | some v =>
    if step.hex then do return some (Text.hexUpper (← asUnsigned v).toNat)
    else
      match v.value with
      | .rational r => .ok (some r.text)
      | _ => do return some (toString (← integer v))

def printStep (s : State) (step : PrintStep Nat) : Except Trap Effect := do
  match ← printedValue s.store step with
  | none => return { state := s }
  | some value =>
    let (s, events) := s.writeLines step.tab [⟨step.label, value, none⟩]
    return { state := s, events := events }

def execStep (s : State) (step : ExecStep Nat) : Except Trap Effect := do
  let store ←
    applyTo s.store step.var step.op step.signed (some (s.operandValue step.operand)) step.width
  let name ← index d.vars step.var
  return {
    state := { s with store := store }
    note := some (.executed step.op name ((store.get? step.var).map (·.value))) }

def insertStep (s : State) (tab : String) : Except Trap Effect := do
  match s.tabs.findIdx? (·.name == tab) with
  | none => return { state := s }
  | some i =>
    let found ← index s.tabs i
    return { state := { s with tabs := s.tabs.eraseIdx i }, events := [.tab found.close] }

/-- A pattern whose end is no word is not looked for. -/
def holds (s : State) : Guard Nat → Except Trap Bool
  | .var id test => do
    match ← integer? s.store id with
    | none => return false
    | some value =>
      match test with
      | .equals o => return value == (← operand s o)
      | .greater o => return (← operand s o) < value
      | .bit o => return UInt64.ofInt value &&& UInt64.ofInt (← operand s o) != 0
      | .defined => return true
  | .bytes pattern convert =>
    let expected := if convert then (d.endianness.resolve s.store).msbFirst pattern else pattern
    .ok (s.cursor + expected.length < 2 ^ 64 &&
      slice? data s.cursor expected.length == some expected)

def continues (s : State) : LoopCondition Nat → Except Trap Bool
  | .remaining => .ok (s.cursor < data.size)
  | .below id target => do
    match ← integer? s.store id with
    | none => return true
    | some value => return value < (← operand s target)
  | .always => .ok true

end Reading

/-! ## Steps and turns -/

section Control
variable (d : Definition) (data : Buffer) (config : Config)

/-- Goes over the steps from the one at index `i` when `depth` bodies of a kind are open, up to the
marker that closes one more. -/
def skipFrom (kind : SpanKind) : Nat → Nat → List (Step Nat) → Except Trap (Option Nat)
  | _, _, [] => .ok none
  | depth, i, s :: rest => do
    if s.opens kind then skipFrom kind (← add depth 1) (← add i 1) rest
    else if s.closes kind then
      if depth = 0 then return some (← add i 1)
      else skipFrom kind (← sub depth 1) (← add i 1) rest
    else skipFrom kind depth (← add i 1) rest

def skipSpan (steps : List (Step Nat)) (start : Nat) (kind : SpanKind) : Except Trap Nat := do
  return (← skipFrom kind 0 start (steps.drop start)).getD steps.length

def next (s : State) : Except Trap State := do return s.jump (← add s.place.pc 1)

def thenNext (e : Effect) : Except Trap Effect := do return { e with state := ← next e.state }

def matchStart (steps : List (Step Nat)) (s : State) (guard : Guard Nat) : Except Trap Effect := do
  if ← holds d data s guard then
    let s := s.markSatisfied
    let depth ← add s.matchDepth 1
    return { state := ← next { s with matchDepth := depth } }
  else
    let target ← skipSpan steps (← add s.place.pc 1) .guarded
    return { state := s.jump target, note := some (.matchFailed s.place.pc target) }

def matchEnd (steps : List (Step Nat)) (s : State) : Except Trap Effect := do
  let s := { s with matchDepth := s.matchDepth - 1 }
  match s.selections with
  | [] => return { state := ← next s }
  | sel :: rest =>
    if s.decides s.matchDepth sel && sel.satisfied then
      let target ← skipSpan steps (← add s.place.pc 1) .selection
      return {
        state := { s with selections := rest }.jump target
        note := some (.selectionLeft target) }
    else return { state := ← next s }

def goesOn (s : State) (guard : LoopGuard Nat) (iterations : Nat) : Except Trap Bool :=
  if guard.count.all (iterations < ·) then continues data s guard.condition else .ok false

def loopAt (steps : List (Step Nat)) (s : State) (guard : LoopGuard Nat) (iterations : Nat)
    (outer : List LoopFrame) : Except Trap Effect := do
  if ← goesOn data s guard iterations then
    let frame := ⟨s.place, s.returns.length, ← add iterations 1⟩
    return { state := ← next { s with loops := frame :: outer } }
  else
    let target ← skipSpan steps (← add s.place.pc 1) .loop
    return {
      state := { s with loops := outer }.jump target
      note := some (.loopLeft s.place.pc iterations) }

def loopStart (steps : List (Step Nat)) (s : State) (guard : LoopGuard Nat) : Except Trap Effect :=
  match s.resumed? with
  | some (l, rest) => loopAt data steps s guard l.iterations rest
  | none => loopAt data steps s guard 0 s.loops

def loopEnd (s : State) : Except Trap Effect := do
  match s.loops with
  | [] => return { state := ← next s }
  | l :: _ =>
    if l.start.code = s.place.code then return { state := s.jump l.start.pc }
    else return { state := ← next s }

def call (maxDepth : Nat) (s : State) (id : Nat) : Except Trap Effect := do
  let name := (← index d.blocks id).id
  if maxDepth ≤ s.returns.length then return { state := s, halted := some (.blockDepth name) }
  else
    let back ← next s
    return {
      state := { s with returns := back.place :: s.returns, place := ⟨.block id, 0⟩ }
      note := some (.entered name) }

def perform (maxDepth : Nat) (steps : List (Step Nat)) (s : State) :
    Step Nat → Except Trap Effect
  | .act (.field step) => do thenNext (← fieldStep d data s step)
  | .act (.block id) => call d maxDepth s id
  | .act (.print step) => do thenNext (← printStep s step)
  | .act (.exec step) => do thenNext (← execStep d s step)
  | .act (.title text) => thenNext { state := s, events := [.title text] }
  | .act (.insert tab) => do thenNext (← insertStep s tab)
  | .matchStart guard => matchStart d data steps s guard
  | .matchEnd => matchEnd steps s
  | .loopStart guard => loopStart data steps s guard
  | .loopEnd => loopEnd s
  | .selectionStart => do return { state := ← next s.pushSelection }
  | .selectionEnd => do return { state := ← next { s with selections := s.selections.drop 1 } }

def code : Code → Except Trap (List (Step Nat))
  | .main => .ok d.program
  | .block id => do return (← index d.blocks id).steps

def proceed (m : Moment) : Except Trap Moment := do
  let steps ← code d m.state.place.code
  match steps[m.state.place.pc]? with
  | none =>
    match m.state.returns with
    | [] => return { m with ended := some .completed }
    | r :: rest => return { m with state := m.state.returnTo r rest }
  | some step =>
    if config.stepLimit ≤ m.state.steps then
      return { m with ended := some (.stepLimit m.state.steps) }
    else
      let count ← add m.state.steps 1
      let effect ← perform d data config.maxBlockDepth steps { m.state with steps := count } step
      return ⟨effect.state, m.events ++ effect.events, effect.halted⟩

def moment : Nat → Except Trap Moment
  | 0 => .ok ⟨State.initial d, [.title d.name], none⟩
  | n + 1 => do
    let m ← moment n
    if m.ended.isSome then return m else proceed d data config m

/-- The whole course of a run, for which twice as many turns as there may be steps and one more are
enough. -/
def run : Except Trap (Option Course) := do
  let m ← moment d data config (2 * config.stepLimit + 1)
  return m.ended.map m.close

end Control

def sweep (filler : Nat → Nat → Except Trap TaggedRange) (len : Nat) :
    Nat → List TaggedRange → Except Trap (List TaggedRange)
  | covered, [] => do
    if covered < len then return [← filler covered (← sub len covered)] else return []
  | covered, r :: rest => do
    let stop := min (← add r.start r.length) len
    if r.length = 0 ∨ len ≤ r.start ∨ stop ≤ covered then sweep filler len covered rest
    else if covered < r.start then
      let gap ← filler covered (← sub r.start covered)
      let kept := { r with length := ← sub stop r.start }
      return gap :: kept :: (← sweep filler len stop rest)
    else
      let kept := { r with start := covered, length := ← sub stop covered }
      return kept :: (← sweep filler len stop rest)

def fillGaps (d : Definition) (len : Nat) (ranges : List TaggedRange) :
    Except Trap (List TaggedRange) := do
  let unused ← index d.fields d.unused
  sweep (taggedRange d unused) len 0 (ranges.mergeSort fun a b => a.start ≤ b.start)

end Trapping

end Dissect
