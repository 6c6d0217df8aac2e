import Dissect.Machine.Run
import Dissect.Proofs.Renaming

/-! Definitions that are alike but for the numbers of their colors, fields, blocks and variables
recognise the same buffers, and their runs are the same. -/
namespace Dissect

namespace Store

@[simp] theorem get?_empty (count id : Nat) : (empty count).get? id = none := by
  rw [get?, empty]
  by_cases h : id < count
  · simp [h]
  · simp [h]

theorem get?_set (s : Store) (id : Nat) (v : Variable) (other : Nat) :
    (s.set id v).get? other = if other = id then some v else s.get? other := by
  obtain ⟨slots⟩ := s
  simp only [get?, set]
  induction id generalizing slots other with
  | zero =>
    cases slots <;> cases other <;> simp [put]
  | succ id ih =>
    cases other with
    | zero => cases slots <;> simp [put]
    | succ other =>
      cases slots with
      | nil =>
        have h := ih other []
        simpa [put] using h
      | cons slot slots =>
        have h := ih other slots
        simpa [put] using h

theorem forall_get?_set {s : Store} {P : Variable → Prop} (h : ∀ id v, s.get? id = some v → P v)
    {id : Nat} {v : Variable} (hv : P v) : ∀ other w, (s.set id v).get? other = some w → P w := by
  intro other w hw
  rw [get?_set] at hw
  split at hw
  · cases hw
    exact hv
  · exact h other w hw

def Renumbered (number : Nat → Nat) (s s' : Store) : Prop :=
  ∀ id, s'.get? (number id) = s.get? id

namespace Renumbered
variable {number : Nat → Nat} {s s' : Store}

theorem empty (count count' : Nat) :
    Renumbered number (Store.empty count) (Store.empty count') := by
  intro id
  rw [get?_empty, get?_empty]

theorem integer? (h : Renumbered number s s') (id : Nat) :
    s'.integer? (number id) = s.integer? id := by
  rw [Store.integer?, h id, Store.integer?]

theorem set (h : Renumbered number s s') (hn : Function.Injective number) (id : Nat)
    (v : Variable) : Renumbered number (s.set id v) (s'.set (number id) v) := by
  intro other
  rw [get?_set, get?_set, h other]
  by_cases hid : other = id
  · rw [if_pos hid, if_pos (congrArg number hid)]
  · rw [if_neg hid, if_neg (hn.ne hid)]

theorem apply (h : Renumbered number s s') (hn : Function.Injective number) (id : Nat)
    (op : ArithOp) (signed : Bool) (operand : Option Value) (width : Option Width) :
    Renumbered number (s.apply id op signed operand width)
      (s'.apply (number id) op signed operand width) := by
  rw [Store.apply, Store.apply, h id]
  exact h.set hn id _

end Renumbered
end Store

/-- The same signature, events, ranges, description, outcome and steps for every buffer. -/
structure Definition.Indistinguishable (d d' : Definition) : Prop where
  signature : ∀ data, d'.matchingSignature? data = d.matchingSignature? data
  run : ∀ data config, d'.run data config = d.run data config
  analysis : ∀ data config, d'.analyze config data = d.analyze config data

/-- Alike but for the numbers in it. What two blocks or two variables are called stays apart, but
one color may well have the number of another that looks the same. -/
structure Definition.Renumbered (τ : Renaming Nat Nat) (d d' : Definition) : Prop where
  name : d'.name = d.name
  endianness : d'.endianness = τ.endianness d.endianness
  color : ∀ i, d'.colors[τ.color i]? = d.colors[i]?
  field : ∀ i, d'.field (τ.field i) = (d.field i).map τ.color
  signatures : d'.signatures = d.signatures.map τ.signature
  block : ∀ i, d'.block (τ.block i) = ⟨(d.block i).id, (d.block i).steps.map τ.step⟩
  program : d'.program = d.program.map τ.step
  variableName : ∀ i, d'.variableName (τ.var i) = d.variableName i
  unused : d'.unused = τ.field d.unused
  blocks : Function.Injective τ.block
  vars : Function.Injective τ.var

def Code.renumber (τ : Renaming Nat Nat) : Code → Code
  | .main => .main
  | .block id => .block (τ.block id)

def Place.renumber (τ : Renaming Nat Nat) (p : Place) : Place := ⟨p.code.renumber τ, p.pc⟩

def LoopFrame.renumber (τ : Renaming Nat Nat) (l : LoopFrame) : LoopFrame :=
  { l with start := l.start.renumber τ }

def State.renumber (τ : Renaming Nat Nat) (store : Store) (s : State) : State :=
  { s with
    place := s.place.renumber τ
    store := store
    loops := s.loops.map (LoopFrame.renumber τ)
    returns := s.returns.map (Place.renumber τ) }

def Effect.Renumbered (τ : Renaming Nat Nat) (e e' : Effect) : Prop :=
  ∃ store, e.state.store.Renumbered τ.var store ∧ e' = { e with state := e.state.renumber τ store }

theorem Effect.Renumbered.ite {τ : Renaming Nat Nat} {p : Prop} [Decidable p]
    {a a' b b' : Effect} (ha : a.Renumbered τ a') (hb : b.Renumbered τ b') :
    Effect.Renumbered τ (if p then a else b) (if p then a' else b') := by
  by_cases hp : p
  · rw [if_pos hp, if_pos hp]
    exact ha
  · rw [if_neg hp, if_neg hp]
    exact hb

theorem Effect.Renumbered.thenNext {τ : Renaming Nat Nat} {e e' : Effect}
    (he : Effect.Renumbered τ e e') :
    Effect.Renumbered τ (Definition.thenNext e) (Definition.thenNext e') := by
  obtain ⟨store, hstore, rfl⟩ := he
  exact ⟨store, hstore, rfl⟩

section Reading
variable {τ : Renaming Nat Nat} {s : State} {store : Store}
variable (hs : s.store.Renumbered τ.var store)
include hs

theorem operand_renumber (o : Operand Nat) :
    (s.renumber τ store).operand (τ.operand o) = s.operand o := by
  cases o with
  | literal v => rfl
  | var id => exact congrArg (fun v => Option.getD v 0) (hs.integer? id)

theorem map_operand_renumber (o : Option (Operand Nat)) :
    (o.map τ.operand).map (s.renumber τ store).operand = o.map s.operand := by
  cases o with
  | none => rfl
  | some o => exact congrArg some (operand_renumber hs o)

theorem operandValue_renumber (o : Operand Nat) :
    (s.renumber τ store).operandValue (τ.operand o) = s.operandValue o := by
  cases o with
  | literal v => rfl
  | var id => exact congrArg (fun v => ((Option.map (·.value) v).getD (.unsigned 0))) (hs id)

theorem continues_renumber (data : Buffer) (c : LoopCondition Nat) :
    Definition.continues data (s.renumber τ store) (τ.condition c) =
      Definition.continues data s c := by
  cases c with
  | below id target =>
    have hid : (s.renumber τ store).store.integer? (τ.var id) = s.store.integer? id :=
      hs.integer? id
    simp only [Renaming.condition, Definition.continues, hid, operand_renumber hs]
  | _ => rfl

end Reading

namespace State
variable {τ : Renaming Nat Nat}

theorem decides_renumber (s : State) (store : Store) (matchDepth : Nat) (sel : SelectionFrame) :
    (s.renumber τ store).decides matchDepth sel = s.decides matchDepth sel := by
  simp only [decides, renumber, List.length_map]

theorem markSatisfied_renumber (s : State) (store : Store) :
    (s.renumber τ store).markSatisfied = s.markSatisfied.renumber τ store := by
  have hselections : (s.renumber τ store).selections = s.selections := rfl
  have hdepth : (s.renumber τ store).matchDepth = s.matchDepth := rfl
  simp only [markSatisfied, hselections, hdepth, decides_renumber]
  cases s.selections with
  | nil => rfl
  | cons sel rest =>
    by_cases hd : s.decides s.matchDepth sel
    · simp only [hd, if_true]
      rfl
    · simp only [hd, if_false, Bool.false_eq_true]

theorem markSatisfied_store (s : State) : s.markSatisfied.store = s.store := by
  rw [markSatisfied]
  cases s.selections with
  | nil => rfl
  | cons sel rest => by_cases hd : s.decides s.matchDepth sel <;> simp [hd]

end State

namespace Definition.Renumbered
variable {τ : Renaming Nat Nat} {d d' : Definition} (h : Renumbered τ d d')
include h

theorem resolve {store store' : Store} (hs : store.Renumbered τ.var store') :
    d'.endianness.resolve store' = d.endianness.resolve store := by
  rw [h.endianness]
  cases d.endianness with
  | captured id msbMark lsbMark => simp only [Renaming.endianness, Endianness.resolve, hs id]
  | _ => rfl

theorem taggedRange (f : FieldDef Nat) (start length : Nat) :
    d'.taggedRange (f.map τ.color) start length = d.taggedRange f start length := by
  have hbind (o : Option Nat) : (o.map τ.color).bind (d'.colors[·]?) = o.bind (d.colors[·]?) := by
    cases o with
    | none => rfl
    | some i => exact h.color i
  have hcolor : (f.map τ.color).color = f.color.map τ.color := rfl
  have haccent : (f.map τ.color).accent = f.accent.map τ.color := rfl
  simp only [Definition.taggedRange, colorStyle, hcolor, haccent, hbind]
  rfl

theorem code (c : Code) : d'.code (c.renumber τ) = (d.code c).map τ.step := by
  cases c with
  | main => exact h.program
  | block id => exact congrArg Block.steps (h.block id)

theorem step? (p : Place) : d'.step? (p.renumber τ) = (d.step? p).map τ.step := by
  rw [Definition.step?, Place.renumber, h.code, List.getElem?_map, Definition.step?]

theorem skipSpan (p : Place) (kind : SpanKind) :
    Dissect.skipSpan (d'.code (p.renumber τ).code) ((p.renumber τ).pc + 1) kind =
      Dissect.skipSpan (d.code p.code) (p.pc + 1) kind := by
  rw [Place.renumber, h.code, Renaming.skipSpan_map]

theorem code_injective : Function.Injective (Code.renumber τ) := by
  intro c c' hc
  cases c with
  | main =>
    cases c' with
    | main => rfl
    | block id => cases hc
  | block id =>
    cases c' with
    | main => cases hc
    | block id' => rw [h.blocks (Code.block.inj hc)]

theorem place_injective : Function.Injective (Place.renumber τ) := by
  intro p q hpq
  obtain ⟨hcode, hpc⟩ := Place.mk.inj hpq
  obtain ⟨code, pc⟩ := p
  obtain ⟨code', pc'⟩ := q
  exact Place.mk.injEq _ _ _ _ ▸ ⟨h.code_injective hcode, hpc⟩

section Effects
variable (data : Buffer) {s : State} {store : Store}
variable (hs : s.store.Renumbered τ.var store)
include hs

theorem readField (f : FieldDef Nat) (step : FieldStep Nat) :
    Effect.Renumbered τ (d.readField data s f step)
      (d'.readField data (s.renumber τ store) (f.map τ.color)
        (τ.fieldStep step)) := by
  have hsize : (f.map τ.color).size.resolve data (s.renumber τ store).cursor
      ((step.limit.map τ.operand).map (s.renumber τ store).operand) =
        f.size.resolve data s.cursor (step.limit.map s.operand) := by
    rw [map_operand_renumber hs]
    rfl
  have horder : d'.endianness.resolve (s.renumber τ store).store = d.endianness.resolve s.store :=
    h.resolve hs
  obtain ⟨id, var, offset, limit, tab⟩ := step
  simp only [Definition.readField, Renaming.fieldStep, hsize, horder, h.taggedRange]
  cases f.size.resolve data s.cursor (limit.map s.operand) with
  | none => exact ⟨store, hs, rfl⟩
  | some size =>
    cases size with
    | zero => cases tab <;> exact ⟨store, hs, rfl⟩
    | succ size =>
      cases var with
      | none => cases tab <;> exact ⟨store, hs, rfl⟩
      | some var => cases tab <;> exact ⟨_, hs.set h.vars var _, rfl⟩

theorem fieldStep (step : FieldStep Nat) :
    Effect.Renumbered τ (d.fieldStep data s step)
      (d'.fieldStep data (s.renumber τ store)
        (τ.fieldStep step)) := by
  have hname (i : Nat) : (d'.field (τ.field i)).name = (d.field i).name := by
    rw [h.field]
    rfl
  simp only [Definition.fieldStep, Renaming.fieldStep, map_operand_renumber hs, hname]
  cases step.offset.map s.operand with
  | none =>
    simp only [h.field]
    exact h.readField data hs _ step
  | some target =>
    simp only [h.field]
    have hs' : Store.Renumbered τ.var { s with cursor := target.toNat }.store store := hs
    obtain ⟨store', hstore, he⟩ := h.readField data hs' (d.field step.field) step
    have hback := congrArg
      (fun e : Effect => { e with state := { e.state with cursor := s.cursor } }) he
    exact .ite ⟨store', hstore, hback⟩ ⟨store, hs, rfl⟩

omit h in
theorem printStep (step : PrintStep Nat) :
    Effect.Renumbered τ (Definition.printStep s step)
      (Definition.printStep (s.renumber τ store)
        (τ.printStep step)) := by
  have hvar : (s.renumber τ store).store.get? (τ.printStep step).var = s.store.get? step.var :=
    hs step.var
  have hvalue : printedValue (s.renumber τ store).store (τ.printStep step) =
      printedValue s.store step := by
    rw [printedValue, printedValue, hvar]
    rfl
  rw [Definition.printStep, Definition.printStep, hvalue]
  cases printedValue s.store step with
  | none => exact ⟨store, hs, rfl⟩
  | some value =>
    simp only [Renaming.printStep]
    cases step.tab <;> exact ⟨store, hs, rfl⟩

theorem execStep (step : ExecStep Nat) :
    Effect.Renumbered τ (d.execStep s step)
      (d'.execStep (s.renumber τ store)
        (τ.execStep step)) := by
  have hstore := hs.apply h.vars step.var step.op step.signed
    (some (s.operandValue step.operand)) step.width
  have hkept : (s.renumber τ store).store = store := rfl
  refine ⟨_, hstore, ?_⟩
  simp only [Definition.execStep, Renaming.execStep, operandValue_renumber hs, h.variableName,
    hkept, hstore step.var]
  rfl

omit h in
theorem insertStep (tab : String) :
    Effect.Renumbered τ (Definition.insertStep s tab)
      (Definition.insertStep (s.renumber τ store) tab) := by
  have htabs : (s.renumber τ store).tabs = s.tabs := rfl
  rw [Definition.insertStep, Definition.insertStep, htabs]
  cases OpenTab.take tab s.tabs with
  | none => exact ⟨store, hs, rfl⟩
  | some found => exact ⟨store, hs, rfl⟩

theorem holds (guard : Guard Nat) :
    d'.holds data (s.renumber τ store) (τ.guard guard) = d.holds data s guard := by
  cases guard with
  | var id test =>
    have hid : (s.renumber τ store).store.integer? (τ.var id) = s.store.integer? id :=
      hs.integer? id
    simp only [Renaming.guard, Definition.holds, hid]
    cases s.store.integer? id with
    | none => rfl
    | some value => cases test <;> simp only [Renaming.test, operand_renumber hs]
  | bytes pattern convert =>
    have horder : d'.endianness.resolve (s.renumber τ store).store =
        d.endianness.resolve s.store := h.resolve hs
    simp only [Renaming.guard, Definition.holds, horder]
    rfl

theorem matchStart (guard : Guard Nat) :
    Effect.Renumbered τ (d.matchStart data s guard)
      (d'.matchStart data (s.renumber τ store) (τ.guard guard)) := by
  have hplace : (s.renumber τ store).place = s.place.renumber τ := rfl
  simp only [Definition.matchStart, h.holds data hs, State.markSatisfied_renumber, hplace,
    h.skipSpan]
  have hkept : s.markSatisfied.store.Renumbered τ.var store := s.markSatisfied_store ▸ hs
  exact .ite ⟨store, hkept, rfl⟩ ⟨store, hs, rfl⟩

theorem matchEnd : Effect.Renumbered τ (d.matchEnd s) (d'.matchEnd (s.renumber τ store)) := by
  have hselections : (s.renumber τ store).selections = s.selections := rfl
  have hdepth : (s.renumber τ store).matchDepth = s.matchDepth := rfl
  have hloops : (s.renumber τ store).loops.length = s.loops.length := List.length_map _
  have hreturns : (s.renumber τ store).returns.length = s.returns.length := List.length_map _
  have hcode : Dissect.skipSpan (d'.code (s.renumber τ store).place.code)
      ((s.renumber τ store).place.pc + 1) .selection =
        Dissect.skipSpan (d.code s.place.code) (s.place.pc + 1) .selection :=
    h.skipSpan s.place .selection
  cases hsel : s.selections with
  | nil =>
    simp only [Definition.matchEnd, hselections, hsel]
    exact ⟨store, hs, rfl⟩
  | cons sel rest =>
    simp only [Definition.matchEnd, State.decides, hselections, hdepth, hloops, hreturns, hsel,
      hcode]
    exact .ite ⟨store, hs, rfl⟩ ⟨store, hs, rfl⟩

omit hs in
theorem resumed? (s : State) (store : Store) : (s.renumber τ store).resumed? =
    s.resumed?.map fun l => (l.1.renumber τ, l.2.map (LoopFrame.renumber τ)) := by
  have hloops : (s.renumber τ store).loops = s.loops.map (LoopFrame.renumber τ) := rfl
  have hplace : (s.renumber τ store).place = s.place.renumber τ := rfl
  have hreturns : (s.renumber τ store).returns.length = s.returns.length := List.length_map _
  rw [State.resumed?, State.resumed?, hloops, hplace, hreturns]
  cases s.loops with
  | nil => rfl
  | cons l rest =>
    have hstart : (l.renumber τ).start = s.place.renumber τ ↔ l.start = s.place :=
      h.place_injective.eq_iff
    have hcall : (l.renumber τ).callDepth = l.callDepth := rfl
    simp only [List.map_cons, hstart, hcall]
    by_cases hl : l.start = s.place ∧ l.callDepth = s.returns.length
    · rw [if_pos hl, if_pos hl]
      rfl
    · rw [if_neg hl, if_neg hl]
      rfl

theorem loopStart (guard : LoopGuard Nat) :
    Effect.Renumbered τ (d.loopStart data s guard)
      (d'.loopStart data (s.renumber τ store) (τ.loopGuard guard)) := by
  have hplace : (s.renumber τ store).place = s.place.renumber τ := rfl
  have hloops : (s.renumber τ store).loops = s.loops.map (LoopFrame.renumber τ) := rfl
  have hreturns : (s.renumber τ store).returns.length = s.returns.length := List.length_map _
  have hcount : (τ.loopGuard guard).count = guard.count := rfl
  have hcondition : (τ.loopGuard guard).condition = τ.condition guard.condition := rfl
  simp only [Definition.loopStart, h.resumed?, hplace, hloops, hreturns, hcount, hcondition,
    continues_renumber hs, h.skipSpan]
  cases s.resumed? with
  | none => exact .ite ⟨store, hs, rfl⟩ ⟨store, hs, rfl⟩
  | some l => exact .ite ⟨store, hs, rfl⟩ ⟨store, hs, rfl⟩

theorem loopEnd : Effect.Renumbered τ (Definition.loopEnd s)
    (Definition.loopEnd (s.renumber τ store)) := by
  have hplace : (s.renumber τ store).place = s.place.renumber τ := rfl
  have hloops : (s.renumber τ store).loops = s.loops.map (LoopFrame.renumber τ) := rfl
  rw [Definition.loopEnd, Definition.loopEnd, hloops, hplace]
  cases s.loops with
  | nil => exact ⟨store, hs, rfl⟩
  | cons l rest =>
    have hcode : (l.renumber τ).start.code = (s.place.renumber τ).code ↔
        l.start.code = s.place.code := h.code_injective.eq_iff
    simp only [List.map_cons, hcode]
    exact .ite ⟨store, hs, rfl⟩ ⟨store, hs, rfl⟩

theorem call (maxDepth id : Nat) : Effect.Renumbered τ (d.call maxDepth s id)
    (d'.call maxDepth (s.renumber τ store) (τ.block id)) := by
  have hname : (d'.block (τ.block id)).id = (d.block id).id := by rw [h.block]
  have hreturns : (s.renumber τ store).returns.length = s.returns.length := List.length_map _
  simp only [Definition.call, hname, hreturns]
  exact .ite ⟨store, hs, rfl⟩ ⟨store, hs, rfl⟩

theorem perform (maxDepth : Nat) (step : Step Nat) :
    Effect.Renumbered τ (d.perform data maxDepth s step)
      (d'.perform data maxDepth (s.renumber τ store) (τ.step step)) := by
  cases step with
  | act a =>
    cases a with
    | field step => exact (h.fieldStep data hs step).thenNext
    | block id => exact h.call hs maxDepth id
    | print step => exact (printStep hs step).thenNext
    | exec step => exact (h.execStep hs step).thenNext
    | title text => exact ⟨store, hs, rfl⟩
    | insert tab => exact (insertStep hs tab).thenNext
  | matchStart guard => exact h.matchStart data hs guard
  | matchEnd => exact h.matchEnd hs
  | loopStart guard => exact h.loopStart data hs guard
  | loopEnd => exact h.loopEnd hs
  | selectionStart =>
    have hpush : (s.renumber τ store).pushSelection = s.pushSelection.renumber τ store := by
      simp only [State.pushSelection, State.renumber, List.length_map]
    refine ⟨store, hs, ?_⟩
    show Effect.mk (s.renumber τ store).pushSelection.next _ _ _ = _
    rw [hpush]
    rfl
  | selectionEnd => exact ⟨store, hs, rfl⟩

end Effects

theorem unwind (here : Place) (returns : List Place) :
    d'.unwind (here.renumber τ) (returns.map (Place.renumber τ)) =
      ((d.unwind here returns).1.renumber τ, (d.unwind here returns).2.map (Place.renumber τ)) := by
  induction returns generalizing here with
  | nil => rfl
  | cons r rest ih =>
    simp only [List.map_cons, Definition.unwind, h.step?, Option.isSome_map]
    by_cases hstep : (d.step? here).isSome
    · simp only [hstep, if_true, List.map_cons]
    · simp only [hstep, Bool.false_eq_true, if_false, ih]

theorem unwound (here : Place) (returns : List Place) :
    d'.unwound (here.renumber τ) (returns.map (Place.renumber τ)) =
      (d.unwound here returns).map (Place.renumber τ) := by
  induction returns generalizing here with
  | nil => rfl
  | cons r rest ih =>
    simp only [List.map_cons, Definition.unwound, h.step?, Option.isSome_map]
    by_cases hstep : (d.step? here).isSome
    · simp only [hstep, if_true, List.map_nil]
    · simp only [hstep, Bool.false_eq_true, if_false, ih, List.map_cons]

theorem settle (s : State) (store : Store) :
    d'.settle (s.renumber τ store) = (d.settle s).renumber τ store := by
  have hplace : (s.renumber τ store).place = s.place.renumber τ := rfl
  have hreturns : (s.renumber τ store).returns = s.returns.map (Place.renumber τ) := rfl
  simp only [Definition.settle, hplace, hreturns, h.unwind]
  rfl

theorem returned (s : State) (store : Store) (notes : List Note) :
    (d'.unwound (s.renumber τ store).place (s.renumber τ store).returns).foldl
        (fun ns r => Note.returned r.pc :: ns) notes =
      (d.unwound s.place s.returns).foldl (fun ns r => .returned r.pc :: ns) notes := by
  have hunwound : d'.unwound (s.renumber τ store).place (s.renumber τ store).returns =
      (d.unwound s.place s.returns).map (Place.renumber τ) := h.unwound s.place s.returns
  rw [hunwound, List.foldl_map]
  rfl

theorem runFrom (data : Buffer) (maxDepth budget : Nat) (events : List Event) (notes : List Note)
    {s : State} {store : Store} (hs : s.store.Renumbered τ.var store) :
    d'.runFrom data maxDepth events notes budget (s.renumber τ store) =
      d.runFrom data maxDepth events notes budget s := by
  have hfront (s : State) : d'.step? ((d.settle s).renumber τ store).place =
      (d.step? (d.settle s).place).map τ.step := h.step? _
  induction budget generalizing events notes s store with
  | zero =>
    unfold Definition.runFrom
    simp only [h.settle, h.returned, hfront]
    cases d.step? (d.settle s).place with
    | none => rfl
    | some step => rfl
  | succ budget ih =>
    unfold Definition.runFrom
    simp only [h.settle, h.returned, hfront]
    cases d.step? (d.settle s).place with
    | none => rfl
    | some step =>
      have hs' : Store.Renumbered τ.var
        { d.settle s with steps := (d.settle s).steps + 1 }.store store := hs
      obtain ⟨store', hstore, he⟩ := h.perform data hs' maxDepth step
      have hperform : d'.perform data maxDepth
          { (d.settle s).renumber τ store with
            steps := ((d.settle s).renumber τ store).steps + 1 } (τ.step step) = _ := he
      simp only [Option.map_some, hperform]
      cases (d.perform data maxDepth
        { d.settle s with steps := (d.settle s).steps + 1 } step).halted with
      | some outcome => rfl
      | none => exact ih _ _ hstore fun s => h.step? _

theorem run (config : Config) (data : Buffer) : d'.run data config = d.run data config := by
  have hstore : (State.initial d).store.Renumbered τ.var (State.initial d').store := .empty _ _
  have hinitial : State.initial d' = (State.initial d).renumber τ (State.initial d').store := rfl
  rw [Definition.run, Definition.run, h.name, hinitial]
  exact h.runFrom data _ _ _ _ hstore

theorem analyze (config : Config) (data : Buffer) :
    d'.analyze config data = d.analyze config data := by
  have hfiller : d'.taggedRange d'.unusedField = d.taggedRange d.unusedField := by
    funext start length
    rw [unusedField, h.unused, h.field, h.taggedRange]
    rfl
  rw [Definition.analyze, Definition.analyze, h.run, analysisOf, analysisOf, hfiller]

theorem judge (data : Buffer) (cursor index : Nat) {store store' : Store}
    (hs : store.Renumbered τ.var store') (signature : Signature Nat) :
    Dissect.judge d'.endianness data cursor store' index (τ.signature signature) =
      Dissect.judge d.endianness data cursor store index signature := by
  have hplace (cursor : Nat) {store store' : Store} (hs : store.Renumbered τ.var store')
      (offset : Option (Operand Nat)) : MagicStep.place (offset.map τ.operand) cursor store' =
        MagicStep.place offset cursor store := by
    cases offset with
    | none => rfl
    | some o =>
      cases o with
      | literal v => rfl
      | var id => simp only [Option.map_some, Renaming.operand, MagicStep.place, hs.integer?]
  induction signature generalizing cursor index store store' with
  | nil => rfl
  | cons step rest ih =>
    have hcons : τ.signature (step :: rest) = τ.magicStep step :: τ.signature rest := rfl
    have hoffset : (τ.magicStep step).offset = step.offset.map τ.operand := by
      cases step <;> rfl
    simp only [hcons, Dissect.judge, hoffset, hplace cursor hs]
    cases MagicStep.place step.offset cursor store with
    | none => rfl
    | some pos =>
      cases step with
      | pattern bytes offset =>
        simp only [Renaming.magicStep, MagicStep.run]
        by_cases hmatch : slice? data pos bytes.length = some bytes
        · simp only [hmatch, if_true]
          exact ih _ _ hs
        · simp only [hmatch, if_false]
      | capture var width offset =>
        simp only [Renaming.magicStep, MagicStep.run, h.resolve hs]
        cases slice? data pos width.bytes with
        | none => rfl
        | some bytes => exact ih _ _ (hs.set h.vars var _)

theorem matchingSignature? (data : Buffer) :
    d'.matchingSignature? data = d.matchingSignature? data := by
  have hverdict (s : Signature Nat) : d'.verdict data (τ.signature s) = d.verdict data s :=
    h.judge data 0 0 (.empty _ _) s
  rw [Definition.matchingSignature?, h.signatures, List.findIdx?_map, Definition.matchingSignature?]
  simp only [Function.comp_def, hverdict]

theorem indistinguishable : d.Indistinguishable d' :=
  ⟨h.matchingSignature?, fun data config => h.run config data,
    fun data config => h.analyze config data⟩

end Definition.Renumbered

end Dissect
