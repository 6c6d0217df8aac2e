import Dissect.Proofs.Trapping

/-! On a sound state of a closed definition no operation of a step traps: references have their
entries, the cursor is in the buffer, the counters of bodies are no greater than the count of steps
and every quotient is one of two words. -/
namespace Dissect

structure FieldDef.Colored (f : FieldDef Nat) (d : Definition) : Prop where
  color : ∀ id ∈ f.color, id < d.colors.length
  accent : ∀ id ∈ f.accent, id < d.colors.length

def Step.Closed (d : Definition) : Step Nat → Prop
  | .act (.field step) => step.field < d.fields.length ∧ ∀ id ∈ step.var, id < d.vars.length
  | .act (.block id) => id < d.blocks.length
  | .act (.exec step) => step.var < d.vars.length
  | _ => True

def Code.Closed (d : Definition) : Code → Prop
  | .main => True
  | .block id => id < d.blocks.length

/-- What is looked up in a definition has its entry, and places in its code are words. -/
structure Definition.Closed (d : Definition) : Prop where
  field : ∀ f ∈ d.fields, f.Colored d
  step : ∀ code, ∀ step ∈ d.code code, step.Closed d
  length : ∀ code, (d.code code).length < 2 ^ 64
  unused : d.unused < d.fields.length

namespace Definition
variable {d : Definition} {i : Nat}

theorem getElem?_field (h : i < d.fields.length) : d.fields[i]? = some (d.field i) := by
  rw [field, List.getElem?_eq_getElem h, Option.getD_some]

theorem getElem?_block (h : i < d.blocks.length) : d.blocks[i]? = some (d.block i) := by
  rw [block, List.getElem?_eq_getElem h, Option.getD_some]

theorem getElem?_vars (h : i < d.vars.length) : d.vars[i]? = some (d.variableName i) := by
  rw [variableName, List.getElem?_eq_getElem h, Option.getD_some]

theorem Closed.colored (hd : d.Closed) (h : i < d.fields.length) : (d.field i).Colored d :=
  hd.field _ (List.mem_of_getElem? (getElem?_field h))

end Definition

/-- A state from which a run goes on without a trap. -/
structure State.Sound (s : State) (d : Definition) (data : Buffer) : Prop where
  cursor : s.cursor ≤ data.size
  store : s.store.Bounded d.vars.length
  matchDepth : s.matchDepth ≤ s.steps
  iterations : ∀ l ∈ s.loops, l.iterations ≤ s.steps
  code : s.place.code.Closed d
  returns : ∀ r ∈ s.returns, r.code.Closed d

theorem State.Sound.counted {s : State} {d : Definition} {data : Buffer} (h : s.Sound d data) :
    s.counted.Sound d data where
  cursor := h.cursor
  store := h.store
  matchDepth := Nat.le_succ_of_le h.matchDepth
  iterations l hl := Nat.le_succ_of_le (h.iterations l hl)
  code := h.code
  returns := h.returns

theorem State.loops_of_resumed? {s : State} {l : LoopFrame} {rest : List LoopFrame}
    (h : s.resumed? = some (l, rest)) : s.loops = l :: rest := by
  rw [resumed?] at h
  split at h
  · cases h
  · split at h
    · cases h
      assumption
    · cases h

namespace Trapping
variable {d : Definition} {data : Buffer} {s : State}

theorem integer?_eq_ok {store : Store} {count : Nat} (h : store.Bounded count) (id : Nat) :
    integer? store id = .ok (store.integer? id) :=
  mapM_eq_ok fun v hv => integer_eq_ok (h.value id v hv)

theorem operand_eq_ok {count : Nat} (h : s.store.Bounded count) (o : Operand Nat) :
    operand s o = .ok (s.operand o) := by
  cases o with
  | literal v => rfl
  | var id =>
    rw [operand, integer?_eq_ok h]
    rfl

theorem colorStyle_eq_ok {color : Option Nat} (h : ∀ id ∈ color, id < d.colors.length) :
    colorStyle d color = .ok (d.colorStyle color) := by
  cases color with
  | none => rfl
  | some id =>
    have hc := List.getElem?_eq_getElem (h id rfl)
    rw [colorStyle, index_eq_ok hc, ok_bind, Definition.colorStyle, Option.bind_some, hc]
    rfl

theorem taggedRange_eq_ok {f : FieldDef Nat} (h : f.Colored d) (start length : Nat) :
    taggedRange d f start length = .ok (d.taggedRange f start length) := by
  have haccent : f.accent.mapM (fun id => do return (← index d.colors id).index) =
      Except.ok (ε := Trap) ((f.accent.bind (d.colors[·]?)).map (·.index)) := by
    cases ha : f.accent with
    | none => rfl
    | some id =>
      have hc := List.getElem?_eq_getElem (h.accent id ha)
      rw [Option.mapM_some, index_eq_ok hc, Option.bind_some, hc]
      rfl
  rw [taggedRange, colorStyle_eq_ok h.color, ok_bind, haccent]
  rfl

/-- A byte is found first where it stands first among the bytes that are scanned. -/
theorem findByte_eq (byte : UInt8) {start window : Nat} (h : start + window ≤ data.size) :
    findByte data byte start window =
      ((data.extract start (start + window)).toList.findIdx? (· == byte)).map (start + ·) := by
  induction window generalizing start with
  | zero => simp [findByte]
  | succ window ih =>
    have hlt : start < data.size := by omega
    have hcons : (data.extract start (start + (window + 1))).toList =
        data[start] :: (data.extract (start + 1) (start + 1 + window)).toList := by
      have hdrop := List.drop_eq_getElem_cons (l := data.toList) (i := start) hlt
      rw [Array.toList_extract, Array.toList_extract, List.extract_eq_take_drop,
        List.extract_eq_take_drop, Nat.add_sub_cancel_left, Nat.add_sub_cancel_left, hdrop,
        List.take_succ_cons, Array.getElem_toList]
    rw [findByte, Array.getElem?_eq_getElem hlt, hcons, List.findIdx?_cons, ih (by omega)]
    by_cases hb : data[start] = byte
    · simp [hb]
    · have hadd (i : Nat) : start + 1 + i = start + (i + 1) := by omega
      simp [hb, hadd, Function.comp_def]

theorem clamped_le {left : Nat} (h : left < 2 ^ 63) (limit : Nat) :
    min limit (2 ^ 64 - 1) ≤ left ↔ limit ≤ left := by
  omega

theorem clamped_eq {left limit : Nat} (h : left < 2 ^ 63) (hl : limit ≤ left) :
    min limit (2 ^ 64 - 1) = limit := by
  omega

theorem resolve_eq_ok (size : SizeRule) {cursor : Nat} (h : cursor ≤ data.size)
    (hdata : data.size < 2 ^ 63) (limit : Option Int) :
    resolve data size cursor limit = .ok (size.resolve data cursor limit) := by
  have hleft : data.size - cursor < 2 ^ 63 := by omega
  cases size with
  | fixed n => rfl
  | remaining =>
    cases limit with
    | none => rfl
    | some l =>
      simp only [resolve, SizeRule.resolve, Option.map_some, clamped_le hleft]
      split
      · rw [clamped_eq hleft ‹_›]
        rfl
      · rfl
  | terminated byte =>
    have hwindow : ((limit.map fun l => min l.toNat (2 ^ 64 - 1)).map
          (min · (data.size - cursor))).getD (data.size - cursor) =
        ((limit.map Int.toNat).map (min (data.size - cursor))).getD (data.size - cursor) := by
      cases limit with
      | none => rfl
      | some l =>
        simp only [Option.map_some, Option.getD_some]
        omega
    have hwhole : (limit.map fun l => min l.toNat (2 ^ 64 - 1)).filter (· ≤ data.size - cursor) =
        (limit.map Int.toNat).bind fun n => if n ≤ data.size - cursor then some n else none := by
      cases limit with
      | none => rfl
      | some l =>
        simp only [Option.map_some, Option.bind_some, Option.filter_some, clamped_le hleft,
          decide_eq_true_eq]
        split
        · rw [clamped_eq hleft ‹_›]
        · rfl
    have hle : ((limit.map Int.toNat).map (min (data.size - cursor))).getD (data.size - cursor) ≤
        data.size - cursor := by
      cases limit with
      | none => exact Nat.le_refl _
      | some l => exact Nat.min_le_left ..
    simp only [resolve, SizeRule.resolve, hwindow, hwhole]
    generalize ((limit.map Int.toNat).map (min (data.size - cursor))).getD (data.size - cursor) =
      window at hle
    rw [add_eq_ok (by omega), ok_bind, slice_eq_ok (by omega) (by omega), ok_bind,
      findByte_eq byte (by omega)]
    cases hi : (data.extract cursor (cursor + window)).toList.findIdx? (· == byte) with
    | none => rfl
    | some i =>
      have hlt := (List.findIdx?_eq_some_iff_findIdx_eq.1 hi).1
      rw [Array.length_toList, Array.size_extract] at hlt
      simp only [Option.map_some]
      rw [add_eq_ok (by omega), ok_bind, show cursor + i + 1 - cursor = i + 1 by omega]
      rfl

theorem captured_eq_ok {store : Store} (h : store.Bounded d.vars.length) (f : FieldDef Nat)
    (order : ByteOrder) (bytes : List UInt8) (var : Option Nat) :
    (∀ id ∈ var, id < d.vars.length) →
    captured store f order bytes var = .ok (match var with
      | some id => store.set id (f.capture order bytes)
      | none => store) := by
  intro hv
  cases var with
  | none => rfl
  | some id => rw [captured, capture_eq_ok, ok_bind, set_eq_ok h (hv id rfl)]

theorem readField_eq_ok (hs : s.store.Bounded d.vars.length) (hc : s.cursor ≤ data.size)
    (hdata : data.size < 2 ^ 63) {f : FieldDef Nat} (hf : f.Colored d) {step : FieldStep Nat}
    (hv : ∀ id ∈ step.var, id < d.vars.length) :
    readField d data s f step = .ok (d.readField data s f step) := by
  rw [readField, Definition.readField, mapM_eq_ok fun o _ => operand_eq_ok hs o, ok_bind,
    resolve_eq_ok _ hc hdata, ok_bind]
  cases hsize : f.size.resolve data s.cursor (step.limit.map s.operand) with
  | none => rfl
  | some size =>
    have hle := SizeRule.resolve_le hsize
    cases size with
    | zero => rfl
    | succ size =>
      have hlength : (data.extract s.cursor (s.cursor + (size + 1))).toList.length < 2 ^ 64 := by
        rw [Array.length_toList, Array.size_extract]
        omega
      change readBytes d data s f step (size + 1) = _
      rw [readBytes, add_eq_ok (by omega), ok_bind, slice_eq_ok (by omega) (by omega), ok_bind]
      dsimp only
      rw [read_eq_ok _ _ hlength, ok_bind, taggedRange_eq_ok hf, ok_bind,
        captured_eq_ok hs _ _ _ _ hv]
      rfl

theorem fieldStep_eq_ok (h : s.Sound d data) (hd : d.Closed) (hdata : data.size < 2 ^ 63)
    {step : FieldStep Nat} (hstep : (Step.act (.field step)).Closed d) :
    fieldStep d data s step = .ok (d.fieldStep data s step) := by
  obtain ⟨hfield, hv⟩ := hstep
  have hcolored := hd.colored hfield
  rw [fieldStep, index_eq_ok (Definition.getElem?_field hfield), ok_bind,
    mapM_eq_ok fun o _ => operand_eq_ok h.store o, ok_bind, Definition.fieldStep]
  cases step.offset.map s.operand with
  | none => exact readField_eq_ok h.store h.cursor hdata hcolored hv
  | some target =>
    by_cases ht : 0 ≤ target ∧ target ≤ data.size
    · have hat : target.toNat ≤ data.size := by omega
      have hread :=
        readField_eq_ok (s := { s with cursor := target.toNat }) h.store hat hdata hcolored hv
      simp only [if_pos ht, hread, ok_bind]
      rfl
    · simp only [if_neg ht]
      rfl

theorem printedValue_eq_ok {store : Store} {count : Nat} (h : store.Bounded count)
    (step : PrintStep Nat) :
    printedValue store step = .ok (Definition.printedValue store step) := by
  rw [printedValue, Definition.printedValue]
  cases hv : store.get? step.var with
  | none => rfl
  | some v =>
    have hbounded := h.value _ v hv
    simp only [asUnsigned_eq_ok hbounded, integer_eq_ok hbounded, ok_bind]
    split
    · rfl
    · cases v.value <;> rfl

theorem printStep_eq_ok (h : s.Sound d data) (step : PrintStep Nat) :
    printStep s step = .ok (Definition.printStep s step) := by
  rw [printStep, printedValue_eq_ok h.store, ok_bind, Definition.printStep]
  cases Definition.printedValue s.store step <;> rfl

theorem operandValue_bounded {count : Nat} (h : s.store.Bounded count) (o : Operand Nat) :
    (s.operandValue o).Bounded := by
  cases o with
  | literal v =>
    rw [State.operandValue]
    split <;> trivial
  | var id =>
    rw [State.operandValue]
    cases hv : s.store.get? id with
    | none => trivial
    | some v => exact h.value id v hv

theorem execStep_eq_ok (h : s.Sound d data) {step : ExecStep Nat}
    (hstep : (Step.act (.exec step)).Closed d) :
    execStep d s step = .ok (d.execStep s step) := by
  have hrhs : ∀ rhs ∈ some (s.operandValue step.operand), rhs.Bounded := by
    rintro rhs ⟨⟩
    exact operandValue_bounded h.store step.operand
  rw [execStep, applyTo_eq_ok h.store hstep _ _ hrhs, ok_bind,
    index_eq_ok (Definition.getElem?_vars hstep)]
  rfl

theorem take_eq (name : String) (tabs : List OpenTab) :
    OpenTab.take name tabs = (tabs.findIdx? (·.name == name)).bind fun i =>
      tabs[i]?.map fun found => (found, tabs.eraseIdx i) := by
  induction tabs with
  | nil => rfl
  | cons t tabs ih =>
    rw [OpenTab.take, List.findIdx?_cons]
    by_cases hname : t.name = name
    · simp [hname]
    · simp [hname, ih, Option.map_bind, Option.bind_map, Function.comp_def]

theorem insertStep_eq_ok (s : State) (tab : String) :
    insertStep s tab = .ok (Definition.insertStep s tab) := by
  rw [insertStep, Definition.insertStep, take_eq]
  cases hi : s.tabs.findIdx? (·.name == tab) with
  | none => rfl
  | some i =>
    have hlt := (List.findIdx?_eq_some_iff_findIdx_eq.1 hi).1
    have hfound := List.getElem?_eq_getElem hlt
    simp only [Option.bind_some, hfound, Option.map_some, index_eq_ok hfound, ok_bind]
    rfl

theorem holds_eq_ok (h : s.Sound d data) (hdata : data.size < 2 ^ 63) (guard : Guard Nat) :
    holds d data s guard = .ok (d.holds data s guard) := by
  cases guard with
  | var id test =>
    rw [holds, integer?_eq_ok h.store, ok_bind, Definition.holds]
    cases s.store.integer? id with
    | none => rfl
    | some value =>
      cases test <;> simp only [operand_eq_ok h.store, ok_bind] <;> rfl
  | bytes pattern convert =>
    rw [holds, Definition.holds]
    refine congrArg _ ?_
    generalize (if convert then (d.endianness.resolve s.store).msbFirst pattern else pattern) =
      expected
    by_cases hlt : s.cursor + expected.length < 2 ^ 64
    · rw [decide_eq_true hlt, Bool.true_and]
    · have hnone : slice? data s.cursor expected.length = none := if_neg (by omega)
      rw [decide_eq_false hlt, Bool.false_and, hnone]
      rfl

theorem continues_eq_ok (h : s.Sound d data) (condition : LoopCondition Nat) :
    continues data s condition = .ok (Definition.continues data s condition) := by
  cases condition with
  | remaining => rfl
  | below id target =>
    rw [continues, integer?_eq_ok h.store, ok_bind, Definition.continues]
    cases s.store.integer? id with
    | none => rfl
    | some value =>
      simp only [operand_eq_ok h.store, ok_bind]
      rfl
  | always => rfl

theorem skipFrom_eq_ok (kind : SpanKind) {depth i : Nat} {steps : List (Step Nat)}
    (hdepth : depth + steps.length < 2 ^ 64) (hi : i + steps.length < 2 ^ 64) :
    skipFrom kind depth i steps = .ok ((stepsToClose kind depth steps).map (i + ·)) := by
  induction steps generalizing depth i with
  | nil => rfl
  | cons step rest ih =>
    rw [List.length_cons] at hdepth hi
    have hnext (n : Option Nat) : n.map (i + 1 + ·) = (n.map (· + 1)).map (i + ·) := by
      rw [Option.map_map]
      refine congrArg (Option.map · n) (funext fun k => ?_)
      simp only [Function.comp_apply]
      omega
    have hi1 : add i 1 = .ok (i + 1) := add_eq_ok (by omega)
    rw [skipFrom, stepsToClose.eq_def]
    dsimp only
    by_cases hopens : step.opens kind = true
    · rw [if_pos hopens, if_pos hopens, add_eq_ok (by omega), ok_bind, hi1, ok_bind,
        ih (by omega) (by omega), hnext]
    · rw [if_neg hopens, if_neg hopens]
      by_cases hcloses : step.closes kind = true
      · rw [if_pos hcloses, if_pos hcloses]
        cases depth with
        | zero =>
          rw [if_pos rfl, hi1]
          rfl
        | succ depth =>
          rw [if_neg (Nat.succ_ne_zero _), sub_eq_ok (by omega), ok_bind, hi1, ok_bind,
            Nat.add_sub_cancel, ih (by omega) (by omega), hnext]
      · rw [if_neg hcloses, if_neg hcloses, hi1, ok_bind, ih (by omega) (by omega), hnext]

theorem skipSpan_eq_ok (kind : SpanKind) {steps : List (Step Nat)} {start : Nat}
    (hstart : start ≤ steps.length) (hlength : steps.length < 2 ^ 64) :
    skipSpan steps start kind = .ok (Dissect.skipSpan steps start kind) := by
  have hdrop : (steps.drop start).length = steps.length - start := List.length_drop
  rw [skipSpan, Dissect.skipSpan, skipFrom_eq_ok kind (by omega) (by omega), ok_bind]
  cases stepsToClose kind 0 (steps.drop start) <;> rfl

/-! ## One step -/

theorem next_eq_ok (h : s.place.pc + 1 < 2 ^ 64) : next s = .ok s.next := by
  rw [next, add_eq_ok h]
  rfl

theorem thenNext_eq_ok {e : Effect} (h : e.state.place.pc + 1 < 2 ^ 64) :
    thenNext e = .ok (Definition.thenNext e) := by
  rw [thenNext, next_eq_ok h]
  rfl

section Markers
variable {steps : List (Step Nat)} (hcode : d.code s.place.code = steps)
  (hpc : s.place.pc < steps.length) (hlength : steps.length < 2 ^ 64)
include hcode hpc hlength

theorem matchStart_eq_ok (h : s.Sound d data) (hdata : data.size < 2 ^ 63)
    (hdepth : s.matchDepth + 1 < 2 ^ 64) (guard : Guard Nat) :
    matchStart d data steps s guard = .ok (d.matchStart data s guard) := by
  rw [matchStart, holds_eq_ok h hdata, ok_bind, Definition.matchStart, hcode]
  split
  · have hmarked : s.markSatisfied.matchDepth = s.matchDepth ∧ s.markSatisfied.place = s.place := by
      rw [Definition.markSatisfied_eq]
      exact ⟨rfl, rfl⟩
    dsimp only
    rw [hmarked.1, add_eq_ok hdepth, ok_bind, next_eq_ok]
    · rfl
    · rw [hmarked.2]
      omega
  · rw [add_eq_ok (by omega), ok_bind, skipSpan_eq_ok _ (by omega) hlength]
    rfl

theorem matchEnd_eq_ok : matchEnd steps s = .ok (d.matchEnd s) := by
  have hnext : next { s with matchDepth := s.matchDepth - 1 } =
      .ok { s with matchDepth := s.matchDepth - 1 }.next := next_eq_ok (by
    dsimp only
    omega)
  rw [matchEnd, Definition.matchEnd]
  dsimp only
  rw [hcode, hnext]
  cases s.selections with
  | nil => rfl
  | cons sel rest =>
    dsimp only
    split
    · rw [add_eq_ok (by omega), ok_bind, skipSpan_eq_ok _ (by omega) hlength]
      rfl
    · rfl

theorem loopAt_eq_ok (h : s.Sound d data) {iterations : Nat} (hcount : iterations + 1 < 2 ^ 64)
    (guard : LoopGuard Nat) (outer : List LoopFrame) :
    loopAt data steps s guard iterations outer = .ok
      (if guard.count.all (iterations < ·) && Definition.continues data s guard.condition then
        { state := { s with loops := ⟨s.place, s.returns.length, iterations + 1⟩ :: outer }.next }
      else
        let target := Dissect.skipSpan (d.code s.place.code) (s.place.pc + 1) .loop
        { state := { s with loops := outer }.jump target
          note := some (.loopLeft s.place.pc iterations) }) := by
  have hgoes : goesOn data s guard iterations =
      .ok (guard.count.all (iterations < ·) && Definition.continues data s guard.condition) := by
    rw [goesOn]
    cases guard.count.all (iterations < ·) with
    | false => rfl
    | true => exact continues_eq_ok h guard.condition
  have hnext : s.place.pc + 1 < 2 ^ 64 := by omega
  rw [loopAt, hgoes, ok_bind, hcode]
  split
  · rw [add_eq_ok hcount, ok_bind]
    dsimp only
    rw [next_eq_ok]
    · rfl
    · exact hnext
  · rw [add_eq_ok (by omega), ok_bind, skipSpan_eq_ok _ (by omega) hlength]
    rfl

theorem loopStart_eq_ok (h : s.Sound d data) (hcount : ∀ l ∈ s.loops, l.iterations + 1 < 2 ^ 64)
    (guard : LoopGuard Nat) :
    loopStart data steps s guard = .ok (d.loopStart data s guard) := by
  rw [loopStart, Definition.loopStart]
  cases hr : s.resumed? with
  | none =>
    dsimp only
    rw [loopAt_eq_ok hcode hpc hlength h (by decide)]
    cases guard.count <;> rfl
  | some frame =>
    have hl : frame.1 ∈ s.loops := State.loops_of_resumed? hr ▸ List.mem_cons_self
    dsimp only
    rw [loopAt_eq_ok hcode hpc hlength h (hcount _ hl)]
    cases guard.count <;> rfl

omit hcode in
theorem loopEnd_eq_ok : loopEnd s = .ok (Definition.loopEnd s) := by
  have hnext : next s = .ok s.next := next_eq_ok (by omega)
  rw [loopEnd, Definition.loopEnd, hnext]
  cases s.loops with
  | nil => rfl
  | cons l rest =>
    dsimp only
    split <;> rfl

omit hcode in
theorem call_eq_ok (maxDepth : Nat) {id : Nat} (hid : id < d.blocks.length) :
    call d maxDepth s id = .ok (d.call maxDepth s id) := by
  have hnext : next s = .ok s.next := next_eq_ok (by omega)
  rw [call, index_eq_ok (Definition.getElem?_block hid), ok_bind, hnext, Definition.call]
  dsimp only
  split <;> rfl

/-- A sound state performs a step without a trap. -/
theorem perform_eq_ok (h : s.Sound d data) (hd : d.Closed) (hdata : data.size < 2 ^ 63)
    (hdepth : s.matchDepth + 1 < 2 ^ 64) (hcount : ∀ l ∈ s.loops, l.iterations + 1 < 2 ^ 64)
    (maxDepth : Nat) {step : Step Nat} (hstep : step.Closed d) :
    perform d data maxDepth steps s step = .ok (d.perform data maxDepth s step) := by
  have hnext : s.place.pc + 1 < 2 ^ 64 := by omega
  cases step with
  | act action =>
    cases action with
    | field step =>
      have hplace : (d.fieldStep data s step).state.place = s.place :=
        congrArg (·.state.place) (Definition.fieldStep_state s.control s.memory s.steps step)
      rw [perform, fieldStep_eq_ok h hd hdata hstep, ok_bind, thenNext_eq_ok (hplace ▸ hnext)]
      rfl
    | block id => exact call_eq_ok hpc hlength maxDepth hstep
    | print step =>
      have hplace : (Definition.printStep s step).state.place = s.place :=
        congrArg (·.state.place) (Definition.printStep_state s.control s.memory s.steps step)
      rw [perform, printStep_eq_ok h, ok_bind, thenNext_eq_ok (hplace ▸ hnext)]
      rfl
    | exec step =>
      rw [perform, execStep_eq_ok h hstep, ok_bind, thenNext_eq_ok hnext]
      rfl
    | title text => exact thenNext_eq_ok hnext
    | insert tab =>
      have hplace : (Definition.insertStep s tab).state.place = s.place :=
        congrArg (·.state.place) (Definition.insertStep_state s.control s.memory s.steps tab)
      rw [perform, insertStep_eq_ok, ok_bind, thenNext_eq_ok (hplace ▸ hnext)]
      rfl
  | matchStart guard => exact matchStart_eq_ok hcode hpc hlength h hdata hdepth guard
  | matchEnd => exact matchEnd_eq_ok hcode hpc hlength
  | loopStart guard => exact loopStart_eq_ok hcode hpc hlength h hcount guard
  | loopEnd => exact loopEnd_eq_ok hpc hlength
  | selectionStart =>
    rw [perform, next_eq_ok]
    · rfl
    · exact hnext
  | selectionEnd =>
    rw [perform, next_eq_ok]
    · rfl
    · exact hnext

end Markers

theorem code_eq_ok {c : Code} (h : c.Closed d) : code d c = .ok (d.code c) := by
  cases c with
  | main => rfl
  | block id =>
    rw [code, index_eq_ok (Definition.getElem?_block h)]
    rfl

theorem proceed_eq_ok {config : Config} {m : Moment} (h : m.state.Sound d data) (hd : d.Closed)
    (hdata : data.size < 2 ^ 63) (hconfig : config.stepLimit < 2 ^ 64) :
    proceed d data config m = .ok (d.proceed data config m) := by
  rw [proceed, code_eq_ok h.code, ok_bind, Definition.proceed, Definition.step?]
  cases hstep : (d.code m.state.place.code)[m.state.place.pc]? with
  | none => cases m.state.returns <;> rfl
  | some step =>
    dsimp only
    split
    · rfl
    · have hsteps : m.state.steps + 1 < 2 ^ 64 := by omega
      have hcount (l : LoopFrame) (hl : l ∈ m.state.loops) : l.iterations + 1 < 2 ^ 64 := by
        have hle := h.iterations l hl
        omega
      have hperform := perform_eq_ok (s := m.state.counted) rfl
        (List.getElem?_eq_some_iff.1 hstep).1 (hd.length _) h.counted hd hdata
        ((Nat.add_le_add_right h.matchDepth 1).trans_lt hsteps) hcount config.maxBlockDepth
        (hd.step _ step (List.mem_of_getElem? hstep))
      rw [add_eq_ok hsteps, ok_bind]
      exact congrArg (· >>= _) hperform

end Trapping

end Dissect
