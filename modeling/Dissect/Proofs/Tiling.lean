import Dissect.Proofs.Moments
import Dissect.Proofs.Partition

/-! The cursor and the ranges behind it. A field that is read in place and takes up bytes of its own
gets the range from the cursor to where it leaves the cursor; nothing else moves the cursor. So the
ranges read in place tile the buffer up to the cursor, and where every field is read in place there
is no gap to fill but the one behind the last range. -/
namespace Dissect

namespace TaggedRange

theorem Tiles.append {first mid last : Nat} {xs ys : List TaggedRange} (hx : Tiles first mid xs)
    (hy : Tiles mid last ys) : Tiles first last (xs ++ ys) := by
  induction xs generalizing first with
  | nil =>
    have he : first = mid := hx
    rwa [he, List.nil_append]
  | cons r rest ih =>
    obtain ⟨hstart, hpos, htail⟩ := hx
    exact ⟨hstart, hpos, ih htail⟩

theorem Tiles.le_start {first last : Nat} {ranges : List TaggedRange}
    (h : Tiles first last ranges) : ∀ r ∈ ranges, first ≤ r.start := by
  induction ranges generalizing first with
  | nil => simp
  | cons r rest ih =>
    obtain ⟨hstart, _, htail⟩ := h
    intro b hb
    rcases List.mem_cons.mp hb with rfl | hb
    · exact Nat.le_of_eq hstart.symm
    · have hle := ih htail b hb
      have hstop : r.stop = r.start + r.length := rfl
      omega

theorem Tiles.pairwise {first last : Nat} {ranges : List TaggedRange}
    (h : Tiles first last ranges) : ranges.Pairwise fun a b => a.start ≤ b.start := by
  induction ranges generalizing first with
  | nil => exact .nil
  | cons r rest ih =>
    obtain ⟨_, _, htail⟩ := h
    refine .cons ?_ (ih htail)
    intro b hb
    have hle := htail.le_start b hb
    have hstop : r.stop = r.start + r.length := rfl
    omega

/-- Ranges that tile the bytes up to `last` are left as they are; what is missing is one filler. -/
theorem sweep_of_tiles (filler : Nat → Nat → TaggedRange) {len first last : Nat}
    {ranges : List TaggedRange} (h : Tiles first last ranges) (hlast : last ≤ len) :
    sweep filler len first ranges =
      ranges ++ if last < len then [filler last (len - last)] else [] := by
  induction ranges generalizing first with
  | nil =>
    have he : first = last := h
    rw [sweep, he, List.nil_append]
  | cons r rest ih =>
    obtain ⟨hstart, hpos, htail⟩ := h
    have hle := htail.le
    have hstop : r.stop = r.start + r.length := rfl
    have hmin : min r.stop len = r.stop := Nat.min_eq_left (by omega)
    have hr : { r with start := first, length := r.stop - first } = r := by
      rw [hstop, ← hstart, Nat.add_sub_cancel_left]
    rw [sweep, hmin, if_neg (by omega), if_neg (by omega), ih htail, hr, List.cons_append]

theorem fillGaps_of_tiles (filler : Nat → Nat → TaggedRange) {len last : Nat}
    {ranges : List TaggedRange} (h : Tiles 0 last ranges) (hlast : last ≤ len) :
    fillGaps filler len ranges =
      ranges ++ if last < len then [filler last (len - last)] else [] := by
  have hsorted : (ranges.mergeSort fun a b => a.start ≤ b.start) = ranges :=
    List.mergeSort_of_pairwise (h.pairwise.imp fun hab => decide_eq_true hab)
  rw [fillGaps, hsorted, sweep_of_tiles filler h hlast]

end TaggedRange

def Step.inPlace : Step Nat → Bool
  | .act (.field step) => step.offset.isNone
  | _ => false

theorem findByte_lt {data : Buffer} {byte : UInt8} {start window i : Nat}
    (h : findByte data byte start window = some i) : start ≤ i ∧ i < start + window := by
  induction window generalizing start with
  | zero => simp [findByte] at h
  | succ window ih =>
    rw [findByte] at h
    split at h
    · cases h
      omega
    · have hi := ih h
      omega

theorem SizeRule.resolve_le {size : SizeRule} {data : Buffer} {cursor n : Nat} {limit : Option Int}
    (h : size.resolve data cursor limit = some n) : n ≤ data.size - cursor := by
  have hif {k : Nat} (hk : (if k ≤ data.size - cursor then some k else none) = some n) :
      n ≤ data.size - cursor := by
    split at hk
    · cases hk
      assumption
    · cases hk
  cases size with
  | fixed k => exact hif h
  | remaining =>
    cases limit with
    | none => exact Nat.le_of_eq (Option.some.inj h).symm
    | some l => exact hif h
  | terminated byte =>
    rw [resolve] at h
    split at h
    case h_1 i hi =>
      cases h
      have hlt := findByte_lt hi
      cases limit with
      | none =>
        simp only [Option.map_none, Option.getD_none] at hlt
        omega
      | some l =>
        simp only [Option.map_some, Option.getD_some] at hlt
        omega
    case h_2 =>
      cases limit with
      | none => cases h
      | some l => exact hif h

theorem rangesOf_append (a b : List Event) : rangesOf (a ++ b) = rangesOf a ++ rangesOf b :=
  List.filterMap_append

theorem rangesOf_writeLines (s : State) (tab : Option String) (lines : List Line) :
    rangesOf (s.writeLines tab lines).2 = [] := by
  cases tab with
  | none => simp [State.writeLines, rangesOf, List.filterMap_map, Function.comp_def, Event.range?]
  | some name => rfl

theorem cursor_writeLines (s : State) (tab : Option String) (lines : List Line) :
    (s.writeLines tab lines).1.cursor = s.cursor := by
  cases tab <;> rfl

def Effect.Rests (e : Effect) (cursor : Nat) : Prop :=
  e.state.cursor = cursor ∧ rangesOf e.events = []

/-- One range is shown, from where the cursor was to where it is now. -/
def Effect.Covers (e : Effect) (cursor : Nat) : Prop :=
  ∃ r, rangesOf e.events = [r] ∧ r.start = cursor ∧ 0 < r.length ∧ r.stop = e.state.cursor

namespace Definition
variable (d : Definition) (data : Buffer) (config : Config)

/-- A field step that moves the cursor: its field is read in place, is not cut to bits and takes
some bytes. -/
def Advances (s : State) : Step Nat → Prop
  | .act (.field step) =>
    step.offset = none ∧ (d.field step.field).bits = none ∧ ∃ size,
      (d.field step.field).size.resolve data s.cursor (step.limit.map s.operand) = some (size + 1)
  | _ => False

def performs? (m : Moment) : Option (Step Nat × List Event) :=
  match d.step? m.state.place with
  | none => none
  | some step =>
    if config.stepLimit ≤ m.state.steps then none
    else some (step, (d.perform data config.maxBlockDepth m.state.counted step).events)

/-- The steps performed in so many turns, each with what was shown by it. -/
def trace : Nat → List (Step Nat × List Event)
  | 0 => []
  | n + 1 =>
    if (d.moment data config n).ended.isSome then trace n
    else trace n ++ (d.performs? data config (d.moment data config n)).toList

variable {d data config}

variable (d data) in
theorem readField_covers (s : State) (f : FieldDef Nat) (step : FieldStep Nat) :
    (d.readField data s f step).Rests s.cursor ∨ f.bits = none ∧
      (∃ size, f.size.resolve data s.cursor (step.limit.map s.operand) = some (size + 1)) ∧
      (d.readField data s f step).Covers s.cursor := by
  rw [readField]
  cases hsize : f.size.resolve data s.cursor (step.limit.map s.operand) with
  | none => exact .inl ⟨rfl, rfl⟩
  | some size =>
    cases size with
    | zero => exact .inl ⟨cursor_writeLines .., rangesOf_writeLines ..⟩
    | succ size =>
      cases hbits : f.bits with
      | some bits =>
        refine .inl ⟨rfl, ?_⟩
        simp only [Option.isSome_some, if_true, List.nil_append]
        exact rangesOf_writeLines ..
      | none =>
        refine .inr ⟨rfl, ⟨size, rfl⟩, d.taggedRange f s.cursor (size + 1), ?_, rfl, ?_, rfl⟩
        · simp only [Option.isSome_none, Bool.false_eq_true, if_false, rangesOf_append,
            rangesOf_writeLines, List.append_nil]
          rfl
        · exact Nat.succ_pos size

theorem fieldStep_cursor {s : State} {step : FieldStep Nat} (h : step.offset.isSome) :
    (d.fieldStep data s step).state.cursor = s.cursor := by
  obtain ⟨operand, ho⟩ := Option.isSome_iff_exists.1 h
  simp only [fieldStep, ho, Option.map_some]
  split <;> rfl

theorem leaf_rests (m : Memory) {action : Action Nat} (h : ∀ step, action ≠ .field step) :
    (d.leaf data m action).Rests m.cursor := by
  cases action with
  | field step => exact absurd rfl (h step)
  | block id => exact ⟨rfl, rfl⟩
  | print step =>
    simp only [leaf, printStep]
    split
    · exact ⟨rfl, rfl⟩
    · exact ⟨cursor_writeLines .., rangesOf_writeLines ..⟩
  | exec step => exact ⟨rfl, rfl⟩
  | title text => exact ⟨rfl, rfl⟩
  | insert tab =>
    simp only [leaf, insertStep]
    split <;> exact ⟨rfl, rfl⟩

theorem perform_rests {maxDepth : Nat} {s : State} {step : Step Nat}
    (h : ∀ field, step ≠ .act (.field field)) :
    (d.perform data maxDepth s step).Rests s.cursor := by
  induction step using step_sorts with
  | action a hb =>
    rw [perform_action hb]
    exact leaf_rests s.memory fun field hf => h field (congrArg _ hf)
  | block id =>
    rw [perform_block]
    split <;> exact ⟨rfl, rfl⟩
  | marker step hm =>
    have hmoves : (d.perform data maxDepth s step).Moves s := perform_marker hm
    refine ⟨congrArg Memory.cursor hmoves.memory, ?_⟩
    rw [hmoves.events]
    rfl

variable (d data) in
theorem perform_inPlace (maxDepth : Nat) (s : State) {step : FieldStep Nat}
    (h : step.offset = none) :
    (d.perform data maxDepth s (.act (.field step))).Rests s.cursor ∨
      d.Advances data s (.act (.field step)) ∧
        (d.perform data maxDepth s (.act (.field step))).Covers s.cursor := by
  have hf : d.fieldStep data s step = d.readField data s (d.field step.field) step := by
    simp only [fieldStep, h, Option.map_none]
  simp only [perform, hf]
  obtain hr | ⟨hbits, hsize, hc⟩ :=
    readField_covers d data s (d.field step.field) step
  · exact .inl hr
  · exact .inr ⟨⟨h, hbits, hsize⟩, hc⟩

/-- Only fields that are read in place and take bytes of their own move the cursor, whatever comes
of the step. -/
theorem perform_stays {maxDepth : Nat} {s : State} {step : Step Nat} (h : ¬d.Advances data s step) :
    (d.perform data maxDepth s step).state.cursor = s.cursor := by
  by_cases hf : ∃ field, step = .act (.field field)
  · obtain ⟨field, rfl⟩ := hf
    cases ho : field.offset with
    | some operand =>
      exact fieldStep_cursor (by rw [ho, Option.isSome_some])
    | none =>
      obtain hr | ⟨ha, -⟩ := perform_inPlace d data maxDepth s ho
      · exact hr.1
      · exact absurd ha h
  · exact (perform_rests fun field he => hf ⟨field, he⟩).1

theorem readField_cursor_le {s : State} (f : FieldDef Nat) (step : FieldStep Nat)
    (h : s.cursor ≤ data.size) : (d.readField data s f step).state.cursor ≤ data.size := by
  rw [readField]
  cases hsize : f.size.resolve data s.cursor (step.limit.map s.operand) with
  | none => exact h
  | some size =>
    have hle := SizeRule.resolve_le hsize
    cases size with
    | zero => exact (cursor_writeLines ..).trans_le h
    | succ size =>
      change (if f.bits.isSome then s.cursor else s.cursor + (size + 1)) ≤ data.size
      split <;> omega

theorem perform_cursor_le {maxDepth : Nat} {s : State} (step : Step Nat)
    (h : s.cursor ≤ data.size) : (d.perform data maxDepth s step).state.cursor ≤ data.size := by
  by_cases ha : d.Advances data s step
  · cases step with
    | act action =>
      cases action with
      | field field =>
        have hf : d.fieldStep data s field = d.readField data s (d.field field.field) field := by
          simp only [fieldStep, ha.1, Option.map_none]
        simp only [perform, hf]
        exact readField_cursor_le _ field h
      | _ => exact ha.elim
    | _ => exact ha.elim
  · rw [perform_stays ha]
    exact h

theorem moment_cursor_le (n : Nat) : (d.moment data config n).state.cursor ≤ data.size :=
  moment_memory_induct (P := fun memory _ => memory.cursor ≤ data.size) (Nat.zero_le _)
    (fun _ _ step h => perform_cursor_le step h) n

/-! ### What was shown by which step -/

theorem Turn.performs?_eq {m m' : Moment} (h : d.Turn data config m m') :
    (d.performs? data config m = none ∧ m'.state.cursor = m.state.cursor ∧ m'.events = m.events ∧
      m'.state.steps = m.state.steps) ∨
    ∃ step effect, d.performs? data config m = some (step, effect.events) ∧
      d.step? m.state.place = some step ∧
      d.perform data config.maxBlockDepth m.state.counted step = effect ∧
      m' = ⟨effect.state, m.events ++ effect.events, effect.halted⟩ := by
  cases h with
  | completed hs hr => exact .inl ⟨by rw [performs?, hs], rfl, rfl, rfl⟩
  | returned r rest hs hr => exact .inl ⟨by rw [performs?, hs], rfl, rfl, rfl⟩
  | limited step hs hl =>
    refine .inl ⟨?_, rfl, rfl, rfl⟩
    rw [performs?, hs]
    exact if_pos hl
  | performed step effect hs hl he =>
    refine .inr ⟨step, effect, ?_, hs, he, rfl⟩
    rw [performs?, hs, ← he]
    exact if_neg (Nat.not_le_of_lt hl)

theorem trace_induct {P : Moment → List (Step Nat × List Event) → Prop}
    (start : P (d.moment data config 0) [])
    (turn : ∀ m m' t, m.ended = none → d.Turn data config m m' → P m t →
      P m' (t ++ (d.performs? data config m).toList)) (n : Nat) :
    P (d.moment data config n) (d.trace data config n) := by
  induction n with
  | zero => exact start
  | succ n ih =>
    cases h : (d.moment data config n).ended with
    | none =>
      have ht := turn _ _ _ h (turn_proceed _) ih
      simpa only [moment_succ h, trace, h, Option.isSome_none, Bool.false_eq_true, if_false]
        using ht
    | some outcome => simpa only [moment, trace, h, Option.isSome_some, if_true] using ih

/-- The trace is the run: every step counts once, and what was shown behind the name of the format
was shown by a step. -/
theorem events_trace (n : Nat) : (d.moment data config n).events =
    .title d.name :: (d.trace data config n).flatMap Prod.snd ∧
      (d.moment data config n).state.steps = (d.trace data config n).length := by
  refine trace_induct (P := fun m t => m.events = .title d.name :: t.flatMap Prod.snd ∧
    m.state.steps = t.length) ⟨rfl, rfl⟩ ?_ n
  intro m m' t _ ht ih
  obtain ⟨hp, -, he, hs⟩ | ⟨step, effect, hp, -, hperform, rfl⟩ := ht.performs?_eq
  · rw [hp, Option.toList_none, List.append_nil, he, hs]
    exact ih
  · have hsteps : effect.state.steps = m.state.steps + 1 := by
      rw [← hperform, perform_steps]
      rfl
    simp [hp, ih.1, hsteps, ih.2]

def inPlaceRanges (trace : List (Step Nat × List Event)) : List TaggedRange :=
  rangesOf ((trace.filter (·.1.inPlace)).flatMap Prod.snd)

theorem inPlaceRanges_append (t t' : List (Step Nat × List Event)) :
    inPlaceRanges (t ++ t') = inPlaceRanges t ++ inPlaceRanges t' := by
  simp only [inPlaceRanges, List.filter_append, List.flatMap_append, rangesOf_append]

theorem inPlaceRanges_single (step : Step Nat) (events : List Event) :
    inPlaceRanges [(step, events)] = if step.inPlace then rangesOf events else [] := by
  cases h : step.inPlace <;> simp [inPlaceRanges, h, rangesOf]

theorem tiles_step {maxDepth : Nat} (s : State) (step : Step Nat) :
    TaggedRange.Tiles s.cursor (d.perform data maxDepth s step).state.cursor
      (if step.inPlace then rangesOf (d.perform data maxDepth s step).events else []) := by
  cases hin : step.inPlace with
  | false =>
    have hstay : ¬d.Advances data s step := by
      intro ha
      cases step with
      | act action =>
        cases action with
        | field field => simp [Step.inPlace, ha.1] at hin
        | _ => exact ha
      | _ => exact ha
    exact (perform_stays hstay).symm
  | true =>
    obtain ⟨field, rfl, ho⟩ : ∃ field, step = .act (.field field) ∧ field.offset = none := by
      cases step with
      | act action =>
        cases action with
        | field field => exact ⟨field, rfl, Option.isNone_iff_eq_none.1 hin⟩
        | _ => cases hin
      | _ => cases hin
    rw [if_pos rfl]
    obtain ⟨hc, hr⟩ | ⟨-, r, hr, hstart, hpos, hstop⟩ :=
      perform_inPlace d data maxDepth s ho
    · rw [hc, hr]
      exact rfl
    · rw [hr]
      exact ⟨hstart, hpos, hstop⟩

variable (d data config) in
theorem tiles_trace (n : Nat) : TaggedRange.Tiles 0 (d.moment data config n).state.cursor
    (inPlaceRanges (d.trace data config n)) := by
  refine trace_induct (P := fun m t => TaggedRange.Tiles 0 m.state.cursor (inPlaceRanges t))
    rfl ?_ n
  intro m m' t _ ht ih
  obtain ⟨hp, hc, -, -⟩ | ⟨step, effect, hp, -, he, rfl⟩ := ht.performs?_eq
  · rw [hp, Option.toList_none, List.append_nil, hc]
    exact ih
  · rw [hp, Option.toList_some, inPlaceRanges_append, inPlaceRanges_single, ← he]
    exact ih.append (tiles_step m.state.counted step)

theorem rangesOf_close (m : Moment) (outcome : Outcome) :
    rangesOf (m.close outcome).events = rangesOf m.events := by
  have htabs : rangesOf (m.state.tabs.map (Event.tab ·.close)) = [] := by
    simp [rangesOf, List.filterMap_map, Function.comp_def, Event.range?]
  rw [Moment.close, rangesOf_append, htabs, List.append_nil]

variable (d) in
def NoOffsets : Prop := ∀ code step, .act (.field step) ∈ d.code code → step.offset = none

theorem ranges_inPlace (h : d.NoOffsets) (n : Nat) :
    rangesOf (d.moment data config n).events = inPlaceRanges (d.trace data config n) := by
  refine trace_induct (P := fun m t => rangesOf m.events = inPlaceRanges t) rfl ?_ n
  intro m m' t _ ht ih
  obtain ⟨hp, -, he, -⟩ | ⟨step, effect, hp, hstep, hperform, rfl⟩ := ht.performs?_eq
  · rw [hp, Option.toList_none, List.append_nil, he, ih]
  · rw [hp, Option.toList_some, inPlaceRanges_append, inPlaceRanges_single, rangesOf_append, ih]
    cases hin : step.inPlace with
    | true => rfl
    | false =>
      have hfield (field : FieldStep Nat) : step ≠ .act (.field field) := by
        rintro rfl
        have ho := h _ field (List.mem_of_getElem? hstep)
        simp [Step.inPlace, ho] at hin
      rw [← hperform, (perform_rests hfield).2]
      rfl

structure Tiled (d : Definition) (data : Buffer) (config : Config) : Prop where
  traced : ∀ n, (d.moment data config n).events =
    .title d.name :: (d.trace data config n).flatMap Prod.snd ∧
      (d.moment data config n).state.steps = (d.trace data config n).length
  tiles : ∀ n, TaggedRange.Tiles 0 (d.moment data config n).state.cursor
    (inPlaceRanges (d.trace data config n))
  stays : ∀ s step, ¬d.Advances data s step →
    (d.perform data config.maxBlockDepth s step).state.cursor = s.cursor
  filled : d.NoOffsets → config.fillGaps = true → ∃ last ≤ data.size,
    TaggedRange.Tiles 0 last (rangesOf (d.run data config).events) ∧
      (d.analyze config data).ranges = rangesOf (d.run data config).events ++
        if last < data.size then [d.taggedRange d.unusedField last (data.size - last)] else []

/-- The ranges read in place tile the buffer from its start to the cursor whenever a run is looked
at. If there are no others, gap filling adds at most what lies behind the last one. -/
theorem run_tiled (d : Definition) (data : Buffer) (config : Config) : d.Tiled data config := by
  constructor
  case traced => exact events_trace
  case tiles => exact tiles_trace d data config
  case stays => exact fun _ _ => perform_stays
  case filled =>
    intro hno hfill
    obtain ⟨outcome, hend⟩ := exists_ended d data config
    have hevents : (d.run data config).events = _ := congrArg Course.events (run_of_ended hend)
    have htiles := tiles_trace d data config (2 * config.stepLimit + 1)
    rw [← ranges_inPlace hno, ← rangesOf_close _ outcome, ← hevents] at htiles
    refine ⟨_, moment_cursor_le _, htiles, ?_⟩
    simp only [analyze, analysisOf, hfill, if_true]
    exact TaggedRange.fillGaps_of_tiles _ htiles (moment_cursor_le _)

def bitsSample : Definition where
  name := "n"
  shortName := "s"
  endianness := .big
  colors := []
  fields := [{ FieldDef.unused with size := .fixed 1 },
    { FieldDef.unused with size := .fixed 2, bits := some ⟨1, 0⟩ }, FieldDef.unused]
  signatures := []
  blocks := []
  program := [.act (.field ⟨0, none, none, none, none⟩), .act (.field ⟨1, none, none, none, none⟩)]
  vars := []
  unused := 2

theorem run_tiled_bitsSample : bitsSample.NoOffsets ∧ ∃ last ≤ 3,
    TaggedRange.Tiles 0 last (rangesOf (bitsSample.run #[1, 2, 3] {}).events) ∧
      (bitsSample.analyze {} #[1, 2, 3]).ranges =
        rangesOf (bitsSample.run #[1, 2, 3] {}).events ++
          if last < 3 then [bitsSample.taggedRange bitsSample.unusedField last (3 - last)]
          else [] := by
  have hno : bitsSample.NoOffsets := by
    intro code step hstep
    cases code with
    | main =>
      simp only [code, bitsSample, List.mem_cons, List.not_mem_nil, or_false, Step.act.injEq,
        Action.field.injEq] at hstep
      rcases hstep with rfl | rfl <;> rfl
    | block id => simp [code, block, bitsSample] at hstep
  exact ⟨hno, (run_tiled bitsSample #[1, 2, 3] {}).filled hno rfl⟩

end Definition

end Dissect
