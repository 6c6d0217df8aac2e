import Dissect.Proofs.Closed

/-! Runs of definitions that were compiled never trap: every turn leads from a sound state to a
sound state, and what is shown lies in the buffer. -/
namespace Dissect

def TaggedRange.Inside (r : TaggedRange) (data : Buffer) : Prop := 0 < r.length ∧ r.stop ≤ data.size

def Effect.Inside (e : Effect) (data : Buffer) : Prop := ∀ r ∈ rangesOf e.events, r.Inside data

/-- One more body may have been entered since a state, and one more turn of a loop begun. -/
structure State.Deepens (t s : State) : Prop where
  matchDepth : t.matchDepth ≤ s.matchDepth + 1
  iterations : ∀ bound, (∀ l ∈ s.loops, l.iterations ≤ bound) →
    ∀ l ∈ t.loops, l.iterations ≤ bound + 1

namespace State.Deepens
variable {s t : State}

theorem fewer (h : ∀ l ∈ t.loops, l ∈ s.loops) (hd : t.matchDepth ≤ s.matchDepth + 1) :
    t.Deepens s :=
  ⟨hd, fun _ hbound l hl => Nat.le_succ_of_le (hbound l (h l hl))⟩

theorem same (h : t.loops = s.loops) (hd : t.matchDepth ≤ s.matchDepth + 1) : t.Deepens s :=
  fewer (fun _ hl => h ▸ hl) hd

theorem turn {frame : LoopFrame} {outer : List LoopFrame} (h : t.loops = frame :: outer)
    (hframe : frame.iterations = 1 ∨ ∃ l ∈ s.loops, frame.iterations = l.iterations + 1)
    (houter : ∀ l ∈ outer, l ∈ s.loops) (hd : t.matchDepth = s.matchDepth) : t.Deepens s := by
  refine ⟨hd.le.trans (Nat.le_succ _), fun bound hbound l hl => ?_⟩
  rw [h] at hl
  obtain rfl | hl := List.mem_cons.1 hl
  · obtain hone | ⟨l', hl', hmore⟩ := hframe
    · omega
    · have hle := hbound l' hl'
      omega
  · exact Nat.le_succ_of_le (hbound l (houter l hl))

theorem ite {p : Prop} [Decidable p] {e e' : Effect} (h : e.state.Deepens s)
    (h' : e'.state.Deepens s) : (if p then e else e').state.Deepens s := by
  split <;> assumption

end State.Deepens

namespace Definition
variable {d : Definition} {data : Buffer} {config : Config} {maxDepth : Nat} {s : State}

/-! ## What a step leaves -/

theorem Stores.bounded {step : Step Nat} {store : Store} (hstores : Stores s step store)
    (h : s.store.Bounded d.vars.length) (hstep : step.Closed d) :
    store.Bounded d.vars.length := by
  cases hstores with
  | kept => exact h
  | captured step id hid f order bytes => exact h.set (hstep.2 id hid) (f.capture_bounded _ _)
  | computed step =>
    refine h.apply hstep _ _ ?_ _
    rintro rhs ⟨⟩
    exact Trapping.operandValue_bounded h step.operand

theorem perform_bounded (h : s.store.Bounded d.vars.length) {step : Step Nat}
    (hstep : step.Closed d) :
    (d.perform data maxDepth s step).state.store.Bounded d.vars.length :=
  (perform_stores maxDepth s step).bounded h hstep

theorem perform_deepens (step : Step Nat) :
    (d.perform data maxDepth s step).state.Deepens s := by
  induction step using step_sorts with
  | action a hb =>
    rw [perform_action hb]
    exact .same rfl (Nat.le_succ _)
  | block id =>
    rw [perform_block]
    exact .ite (.same rfl (Nat.le_succ _)) (.same rfl (Nat.le_succ _))
  | marker step hm =>
    cases step with
    | act a => exact absurd rfl (hm a)
    | matchStart guard =>
      rw [perform, matchStart, markSatisfied_eq]
      exact .ite (.same rfl (Nat.le_refl _)) (.same rfl (Nat.le_succ _))
    | matchEnd =>
      have hle : s.matchDepth - 1 ≤ s.matchDepth + 1 := by omega
      rw [perform, matchEnd]
      dsimp only
      cases s.selections with
      | nil => exact .same rfl hle
      | cons sel rest => exact .ite (.same rfl hle) (.same rfl hle)
    | loopStart guard =>
      rw [perform, loopStart]
      cases hr : s.resumed? with
      | none =>
        exact .ite (.turn rfl (.inl rfl) (fun _ hl => hl) rfl) (.same rfl (Nat.le_succ _))
      | some frame =>
        have hl := State.loops_of_resumed? hr
        have hrest : ∀ l ∈ frame.2, l ∈ s.loops := fun l hmem => hl ▸ List.mem_cons_of_mem _ hmem
        exact .ite (.turn rfl (.inr ⟨frame.1, hl ▸ List.mem_cons_self, rfl⟩) hrest rfl)
          (.fewer hrest (Nat.le_succ _))
    | loopEnd =>
      rw [perform, loopEnd]
      cases s.loops with
      | nil => exact .same rfl (Nat.le_succ _)
      | cons l rest => exact .ite (.same rfl (Nat.le_succ _)) (.same rfl (Nat.le_succ _))
    | selectionStart => exact .same rfl (Nat.le_succ _)
    | selectionEnd => exact .same rfl (Nat.le_succ _)

theorem perform_code (hcode : s.place.code.Closed d) (hreturns : ∀ r ∈ s.returns, r.code.Closed d)
    {step : Step Nat} (hstep : step.Closed d) :
    (d.perform data maxDepth s step).state.place.code.Closed d ∧
      ∀ r ∈ (d.perform data maxDepth s step).state.returns, r.code.Closed d := by
  induction step using step_sorts with
  | action a hb =>
    rw [perform_action hb]
    exact ⟨hcode, hreturns⟩
  | block id =>
    rw [perform_block]
    split
    · exact ⟨hcode, hreturns⟩
    · exact ⟨hstep, List.forall_mem_cons.2 ⟨hcode, hreturns⟩⟩
  | marker step hm =>
    have hmoves : (d.perform data maxDepth s step).Moves s := perform_marker hm
    rw [hmoves.code, hmoves.returns]
    exact ⟨hcode, hreturns⟩

/-- Whatever step is performed, a sound state leads to a sound one. -/
theorem perform_sound (h : s.Sound d data) {step : Step Nat} (hstep : step.Closed d) :
    (d.perform data maxDepth s.counted step).state.Sound d data := by
  have hsteps : (d.perform data maxDepth s.counted step).state.steps = s.steps + 1 :=
    perform_steps maxDepth s.counted step
  have hdeepens : (d.perform data maxDepth s.counted step).state.Deepens s.counted :=
    perform_deepens step
  obtain ⟨hcode, hreturns⟩ := perform_code (s := s.counted) h.code h.returns hstep
  constructor
  case cursor => exact perform_cursor_le step h.cursor
  case store => exact perform_bounded (s := s.counted) h.store hstep
  case matchDepth =>
    rw [hsteps]
    exact hdeepens.matchDepth.trans (Nat.add_le_add_right h.matchDepth 1)
  case iterations =>
    rw [hsteps]
    exact hdeepens.iterations _ h.iterations
  case code => exact hcode
  case returns => exact hreturns

theorem Turn.sound {m m' : Moment} (h : d.Turn data config m m') (hd : d.Closed)
    (hm : m.state.Sound d data) : m'.state.Sound d data := by
  cases h with
  | completed hs hr => exact hm
  | returned r rest hs hr =>
    have hreturns := List.forall_mem_cons.1 (hr ▸ hm.returns)
    exact { hm with code := hreturns.1, returns := hreturns.2 }
  | limited step hs hl => exact hm
  | performed step effect hs hl he =>
    subst he
    exact perform_sound hm (hd.step _ step (List.mem_of_getElem? hs))

theorem moment_sound (hd : d.Closed) (n : Nat) : (d.moment data config n).state.Sound d data := by
  refine moment_induct (P := fun m => m.state.Sound d data) ?_ (fun _ _ _ ht => ht.sound hd) n
  constructor
  case cursor => exact Nat.zero_le _
  case store => exact .empty _
  case matchDepth => exact Nat.le_refl _
  case iterations => exact fun l hl => (List.not_mem_nil hl).elim
  case code => trivial
  case returns => exact fun r hr => (List.not_mem_nil hr).elim

/-! ## What a step shows -/

theorem readField_inside (h : s.cursor ≤ data.size) (f : FieldDef Nat) (step : FieldStep Nat) :
    (d.readField data s f step).Inside data := by
  have hcursor : (d.readField data s f step).state.cursor ≤ data.size :=
    readField_cursor_le f step h
  obtain hrests | ⟨-, -, r, hr, -, hpos, hstop⟩ := readField_covers d data s f step
  · intro r hr
    rw [hrests.2] at hr
    cases hr
  · intro r' hr'
    rw [hr, List.mem_singleton] at hr'
    exact hr' ▸ ⟨hpos, hstop ▸ hcursor⟩

theorem perform_inside (h : s.cursor ≤ data.size) (step : Step Nat) :
    (d.perform data maxDepth s step).Inside data := by
  by_cases hf : ∃ field, step = .act (.field field)
  · obtain ⟨field, rfl⟩ := hf
    change (d.fieldStep data s field).Inside data
    rw [fieldStep]
    cases field.offset.map s.operand with
    | none => exact readField_inside h _ field
    | some target =>
      dsimp only
      split
      · have hat : target.toNat ≤ data.size := by omega
        exact readField_inside (s := { s with cursor := target.toNat }) hat _ field
      · exact fun r hr => (List.not_mem_nil hr).elim
  · have hrests : (d.perform data maxDepth s step).Rests s.cursor :=
      perform_rests fun field he => hf ⟨field, he⟩
    intro r hr
    rw [hrests.2] at hr
    cases hr

theorem moment_inside (n : Nat) :
    ∀ r ∈ rangesOf (d.moment data config n).events, r.Inside data := by
  suffices h : (d.moment data config n).state.memory.cursor ≤ data.size ∧
      ∀ r ∈ rangesOf (d.moment data config n).events, r.Inside data from h.2
  refine moment_memory_induct
    (P := fun memory events => memory.cursor ≤ data.size ∧ ∀ r ∈ rangesOf events, r.Inside data)
    ⟨Nat.zero_le _, fun r hr => (List.not_mem_nil hr).elim⟩ ?_ n
  rintro s events step ⟨hcursor, hinside⟩
  refine ⟨perform_cursor_le step hcursor, ?_⟩
  rw [rangesOf_append]
  exact List.forall_mem_append.2 ⟨hinside, perform_inside hcursor step⟩

end Definition

/-! ## Whole runs -/

namespace Trapping
variable {d : Definition} {data : Buffer} {config : Config}

theorem moment_eq_ok (hd : d.Closed) (hdata : data.size < 2 ^ 63)
    (hconfig : config.stepLimit < 2 ^ 64) (n : Nat) :
    moment d data config n = .ok (d.moment data config n) := by
  induction n with
  | zero => rfl
  | succ n ih =>
    rw [moment, ih, ok_bind, proceed_eq_ok (d.moment_sound hd n) hd hdata hconfig,
      Definition.moment]
    split <;> rfl

theorem run_eq_ok (hd : d.Closed) (hdata : data.size < 2 ^ 63)
    (hconfig : config.stepLimit < 2 ^ 64) :
    run d data config = .ok (some (d.run data config).course) := by
  obtain ⟨outcome, hend⟩ := Definition.exists_ended d data config
  rw [run, moment_eq_ok hd hdata hconfig, ok_bind, hend, Definition.run_of_ended hend]
  rfl

theorem sweep_eq_ok {filler : Nat → Nat → Except Trap TaggedRange}
    {total : Nat → Nat → TaggedRange}
    (hfiller : ∀ start length, filler start length = .ok (total start length)) {len : Nat}
    {rs : List TaggedRange} (h : ∀ r ∈ rs, r.stop < 2 ^ 64) (covered : Nat) :
    sweep filler len covered rs = .ok (TaggedRange.sweep total len covered rs) := by
  induction rs generalizing covered with
  | nil =>
    rw [sweep, TaggedRange.sweep]
    split
    · rw [sub_eq_ok (Nat.le_of_lt ‹_›), ok_bind, hfiller]
      rfl
    · rfl
  | cons r rest ih =>
    obtain ⟨hr, hrest⟩ := List.forall_mem_cons.1 h
    have hstop : r.start + r.length = r.stop := rfl
    rw [sweep, TaggedRange.sweep, add_eq_ok hr, ok_bind, hstop]
    dsimp only
    by_cases hskip : r.length = 0 ∨ len ≤ r.start ∨ min r.stop len ≤ covered
    · rw [if_pos hskip, if_pos hskip, ih hrest]
    · rw [if_neg hskip, if_neg hskip]
      by_cases hgap : covered < r.start
      · rw [if_pos hgap, if_pos hgap, sub_eq_ok (Nat.le_of_lt hgap), ok_bind, hfiller, ok_bind,
          sub_eq_ok (by omega), ok_bind, ih hrest]
        rfl
      · rw [if_neg hgap, if_neg hgap, sub_eq_ok (by omega), ok_bind, ih hrest]
        rfl

theorem fillGaps_eq_ok (hd : d.Closed) {len : Nat} {rs : List TaggedRange}
    (h : ∀ r ∈ rs, r.stop < 2 ^ 64) :
    fillGaps d len rs = .ok (TaggedRange.fillGaps (d.taggedRange d.unusedField) len rs) := by
  rw [fillGaps, index_eq_ok (Definition.getElem?_field hd.unused), ok_bind, TaggedRange.fillGaps]
  exact sweep_eq_ok (taggedRange_eq_ok (hd.colored hd.unused))
    (fun r hr => h r (List.mem_mergeSort.1 hr)) 0

end Trapping

/-- A run and the filling of its gaps come to their end without a trap. At every moment the cursor
is in the buffer, and what is shown are bytes of it. -/
structure Definition.Safe (d : Definition) (data : Buffer) (config : Config) : Prop where
  moments : ∀ n, Trapping.moment d data config n = .ok (d.moment data config n)
  run : Trapping.run d data config = .ok (some (d.run data config).course)
  filled : Trapping.fillGaps d data.size (rangesOf (d.run data config).events) =
    .ok (TaggedRange.fillGaps (d.taggedRange d.unusedField) data.size
      (rangesOf (d.run data config).events))
  cursor : ∀ n, (d.moment data config n).state.cursor ≤ data.size
  inside : ∀ r ∈ rangesOf (d.run data config).events, r.Inside data

/-- Whatever document compiles, no run of its definition traps. Source and buffer are no longer than
an array can be, and the step limit is a word. -/
theorem Document.compile_safe {source : List Char} {d : Definition} (h : compile source = .ok d)
    (hsource : source.length < 2 ^ 63) (data : Buffer) (hdata : data.size < 2 ^ 63)
    (config : Config) (hconfig : config.stepLimit < 2 ^ 64) : d.Safe data config := by
  have hd : d.Closed := closed_of_compile h hsource
  have hinside : ∀ r ∈ rangesOf (d.run data config).events, r.Inside data := by
    obtain ⟨outcome, hend⟩ := Definition.exists_ended d data config
    have hevents : (d.run data config).events = _ :=
      congrArg Course.events (Definition.run_of_ended hend)
    rw [hevents, Definition.rangesOf_close]
    exact Definition.moment_inside _
  constructor
  case moments => exact Trapping.moment_eq_ok hd hdata hconfig
  case run => exact Trapping.run_eq_ok hd hdata hconfig
  case filled =>
    refine Trapping.fillGaps_eq_ok hd fun r hr => ?_
    have hstop := (hinside r hr).2
    omega
  case cursor => exact Definition.moment_cursor_le
  case inside => exact hinside

/-- Not every definition is safe: this one calls a block that is not there. -/
example : let d : Definition := ⟨"", "", .big, [], [], [], [], [.act (.block 0)], [], 0⟩
    Trapping.proceed d #[] {} (d.moment #[] {} 0) = .error .index := rfl

/-- A quotient that may be by zero, an offset that may lie outside the buffer, a loop that may go
on for ever and a block that calls itself. -/
def Document.adverseSample : String :=
  "<format name='n' short='s'><endianness order='little'/>
   <magic><signature><match value='00'/></signature></magic><colors/>
   <field-defs><field id='f'><size fixed='1'/></field>
   <field id='t'><size terminator='00'/></field></field-defs>
   <block-defs><block-def id='b'><block ref='b'/></block-def></block-defs>
   <run><field ref='f' var='v'/><exec var='q' op='div' value='v' signed='true'/>
   <loop remaining='true'><field ref='t' offset='q' limit='v'/><field ref='t' limit='q'/></loop>
   <block ref='b'/></run></format>"

set_option maxRecDepth 4000 in
theorem Document.compile_safe_adverseSample : ∃ d, compile adverseSample.toList = .ok d ∧
    adverseSample.toList.length < 2 ^ 63 ∧ d.Safe #[0, 1, 0, 5, 0] {} := by
  have hc : (compile adverseSample.toList).isOk = true := by
    rw [show adverseSample.toList = _ from String.toList_ofList]
    decide +kernel
  have hlength : adverseSample.toList.length < 2 ^ 63 := by
    rw [show adverseSample.toList = _ from String.toList_ofList]
    decide +kernel
  obtain ⟨d, hd⟩ := exists_ok hc
  exact ⟨d, hd, hlength, compile_safe hd hlength #[0, 1, 0, 5, 0] (by decide) {} (by decide)⟩

end Dissect
