import Dissect.Proofs.PlainReadings
import Dissect.Proofs.Tiling

/-! When a report has the lines that it is written by. Of all that is pasted into its lines,
readings apart, every text is one of the definition; so a definition without line breaks whose texts
are ASCII has reports of so many lines as there are things to report, on every buffer. -/
namespace Dissect
open Text

/-! ### Texts of runs -/

def Step.texts : Step Nat → List String
  | .act (.field step) => step.tab.toList
  | .act (.print step) => step.label :: step.tab.toList
  | .act (.title text) => [text]
  | _ => []

def Block.texts (b : Block) : List String := b.id :: b.steps.flatMap Step.texts

def Definition.texts (d : Definition) : List String :=
  d.name :: (d.fields.flatMap FieldDef.texts ++ d.blocks.flatMap Block.texts ++
    d.program.flatMap Step.texts)

theorem Definition.plain_texts {d : Definition} : AllPlain d.texts ↔
    Plain d.name ∧ (∀ f ∈ d.fields, AllPlain f.texts) ∧ (∀ b ∈ d.blocks, AllPlain b.texts) ∧
      AllPlain (d.program.flatMap Step.texts) := by
  rw [Definition.texts, allPlain_cons, allPlain_append, allPlain_append, allPlain_flatMap,
    allPlain_flatMap, and_assoc]

def OpenTab.texts (t : OpenTab) : List String := t.name :: t.written.flatMap Line.texts

def Event.texts : Event → List String
  | .range _ => []
  | .title text => [text]
  | .line l => l.texts
  | .tab t => t.name :: t.lines.flatMap Line.texts

theorem OpenTab.plain_close {t : OpenTab} (h : AllPlain t.texts) :
    AllPlain (Event.tab t.close).texts := by
  obtain ⟨hname, hwritten⟩ := allPlain_cons.1 h
  refine allPlain_cons.2 ⟨hname, allPlain_flatMap.2 fun l hl => ?_⟩
  exact allPlain_flatMap.1 hwritten l (List.mem_reverse.1 hl)

theorem OpenTab.plain_write {name : String} {line : Line} (hname : Plain name)
    (hline : AllPlain line.texts) {tabs : List OpenTab} (h : AllPlain (tabs.flatMap texts)) :
    AllPlain ((write name line tabs).flatMap texts) := by
  induction tabs with
  | nil => simpa [write, texts] using allPlain_cons.2 ⟨hname, hline⟩
  | cons t tabs ih =>
    rw [List.flatMap_cons] at h
    obtain ⟨ht, htabs⟩ := allPlain_append.1 h
    obtain ⟨htname, hwritten⟩ := allPlain_cons.1 ht
    rw [write]
    split
    · refine allPlain_append.2 ⟨allPlain_cons.2 ⟨htname, ?_⟩, htabs⟩
      exact allPlain_append.2 ⟨hline, hwritten⟩
    · exact allPlain_append.2 ⟨ht, ih htabs⟩

theorem OpenTab.plain_take {name : String} {tabs rest : List OpenTab} {found : OpenTab}
    (h : take name tabs = some (found, rest)) (hplain : AllPlain (tabs.flatMap texts)) :
    AllPlain found.texts ∧ AllPlain (rest.flatMap texts) := by
  induction tabs generalizing rest with
  | nil => cases h
  | cons t tabs ih =>
    rw [List.flatMap_cons] at hplain
    obtain ⟨ht, htabs⟩ := allPlain_append.1 hplain
    rw [take] at h
    split at h
    · cases h
      exact ⟨ht, htabs⟩
    · obtain ⟨⟨found', rest'⟩, htake, heq⟩ := Option.map_eq_some_iff.1 h
      cases heq
      obtain ⟨hfound, hrest⟩ := ih htake htabs
      exact ⟨hfound, allPlain_append.2 ⟨ht, hrest⟩⟩

theorem State.plain_writeLines {s : State} {tab : Option String} {lines : List Line}
    (hs : AllPlain (s.tabs.flatMap OpenTab.texts)) (htab : AllPlain tab.toList)
    (hlines : AllPlain (lines.flatMap Line.texts)) :
    AllPlain ((s.writeLines tab lines).1.tabs.flatMap OpenTab.texts) ∧
      AllPlain ((s.writeLines tab lines).2.flatMap Event.texts) := by
  cases tab with
  | none =>
    refine ⟨hs, ?_⟩
    rw [State.writeLines, List.flatMap_map]
    exact hlines
  | some name =>
    refine ⟨?_, allPlain_nil⟩
    have hname : Plain name := htab name List.mem_cons_self
    rw [State.writeLines]
    generalize s.tabs = tabs at hs
    induction lines generalizing tabs with
    | nil => exact hs
    | cons l lines ih =>
      rw [List.flatMap_cons] at hlines
      obtain ⟨hl, hlines⟩ := allPlain_append.1 hlines
      exact ih hlines _ (OpenTab.plain_write hname hl hs)

theorem mem_of_mem_extract {data : Buffer} {b : UInt8} {start stop : Nat}
    (h : b ∈ (data.extract start stop).toList) : b ∈ data.toList := by
  rw [Array.toList_extract] at h
  exact List.mem_of_mem_drop (List.mem_of_mem_take h)

structure Effect.IsPlain (e : Effect) : Prop where
  tabs : AllPlain (e.state.tabs.flatMap OpenTab.texts)
  events : AllPlain (e.events.flatMap Event.texts)
  halted : AllPlain (e.halted.toList.flatMap Outcome.texts)

structure Moment.IsPlain (m : Moment) : Prop where
  tabs : AllPlain (m.state.tabs.flatMap OpenTab.texts)
  events : AllPlain (m.events.flatMap Event.texts)
  ended : AllPlain (m.ended.toList.flatMap Outcome.texts)

namespace Definition
variable {d : Definition} {data : Buffer} {config : Config}

/-- No text of the definition has a line break, and no field can read one. -/
structure Legible (d : Definition) (data : Buffer) : Prop where
  texts : AllPlain d.texts
  fields : ∀ f ∈ d.fields, f.Legible data.toList

namespace Legible
variable (h : d.Legible data)
include h

theorem field (i : Nat) : AllPlain (d.field i).texts ∧ (d.field i).Legible data.toList := by
  rw [Definition.field]
  cases hf : d.fields[i]? with
  | none =>
    have hunused : AllPlain (FieldDef.unused : FieldDef Nat).texts := by decide
    exact ⟨hunused, fun hprint => by cases hprint⟩
  | some f =>
    have hmem := List.mem_of_getElem? hf
    obtain ⟨-, hfields, -, -⟩ := Definition.plain_texts.1 h.texts
    exact ⟨hfields f hmem, h.fields f hmem⟩

theorem block (i : Nat) : AllPlain (d.block i).texts := by
  rw [Definition.block]
  cases hb : d.blocks[i]? with
  | none =>
    have hempty : AllPlain (Block.mk "" []).texts := by decide
    exact hempty
  | some b =>
    obtain ⟨-, -, hblocks, -⟩ := Definition.plain_texts.1 h.texts
    exact hblocks b (List.mem_of_getElem? hb)

theorem step {p : Place} {step : Step Nat} (hstep : d.step? p = some step) :
    AllPlain step.texts := by
  have hcode : AllPlain ((d.code p.code).flatMap Step.texts) := by
    cases p.code with
    | main => exact (Definition.plain_texts.1 h.texts).2.2.2
    | block id => exact (allPlain_cons.1 (h.block id)).2
  exact allPlain_flatMap.1 hcode step (List.mem_of_getElem? hstep)

omit h in
theorem plain_readField {s : State} (hs : AllPlain (s.tabs.flatMap OpenTab.texts))
    {f : FieldDef Nat} (hf : AllPlain f.texts) (hlegible : f.Legible data.toList)
    {step : FieldStep Nat} (htab : AllPlain step.tab.toList) :
    (d.readField data s f step).IsPlain := by
  obtain ⟨hname, -, htooltip, -, -⟩ := FieldDef.plain_texts.1 hf
  have hfield : AllPlain [f.name] := allPlain_singleton.2 hname
  rw [Definition.readField]
  cases f.size.resolve data s.cursor (step.limit.map s.operand) with
  | none => exact ⟨hs, allPlain_nil, hfield⟩
  | some size =>
    cases size with
    | zero =>
      have hline : AllPlain ([(⟨f.name, "", none⟩ : Line)].flatMap Line.texts) :=
        allPlain_cons.2 ⟨hname, allPlain_singleton.2 breaks_empty⟩
      obtain ⟨htabs, hevents⟩ := State.plain_writeLines hs htab hline
      exact ⟨htabs, hevents, allPlain_nil⟩
    | succ size =>
      let bytes := (data.extract s.cursor (s.cursor + (size + 1))).toList
      let reading := f.read (d.endianness.resolve s.store) bytes
      have hbytes : f.Legible bytes := fun hprint =>
        (hlegible hprint).imp_right fun hnone hmem => hnone (mem_of_mem_extract hmem)
      obtain ⟨hvalue, hextra⟩ := allPlain_cons.1 (f.plain_read _ hf hbytes)
      have hlines : AllPlain
          ((⟨f.name, reading.value, f.tooltip⟩ :: reading.extra : List Line).flatMap Line.texts) :=
        allPlain_append.2
          ⟨allPlain_cons.2 ⟨hname, allPlain_cons.2 ⟨hvalue, htooltip⟩⟩, hextra⟩
      obtain ⟨htabs, hevents⟩ := State.plain_writeLines hs htab hlines
      have hrange : AllPlain
          (((if f.bits.isSome then [] else [.range (d.taggedRange f s.cursor (size + 1))]) :
            List Event).flatMap Event.texts) := by
        split <;> exact allPlain_nil
      have hall := allPlain_append.2 ⟨hrange, hevents⟩
      rw [← List.flatMap_append] at hall
      have hhalted : AllPlain
          ((if reading.known then none else some (.unknownValue s.cursor f.name) :
            Option Outcome).toList.flatMap Outcome.texts) := by
        split
        · exact allPlain_nil
        · exact hfield
      exact ⟨htabs, hall, hhalted⟩

theorem fieldStep {s : State} (hs : AllPlain (s.tabs.flatMap OpenTab.texts))
    {step : FieldStep Nat} (htab : AllPlain step.tab.toList) :
    (d.fieldStep data s step).IsPlain := by
  obtain ⟨htexts, hlegible⟩ := h.field step.field
  rw [Definition.fieldStep]
  cases step.offset.map s.operand with
  | none => exact plain_readField hs htexts hlegible htab
  | some target =>
    dsimp only
    split
    · have hthere : (d.readField data { s with cursor := target.toNat } (d.field step.field)
          step).IsPlain :=
        plain_readField (s := { s with cursor := target.toNat }) hs htexts hlegible htab
      exact ⟨hthere.tabs, hthere.events, hthere.halted⟩
    · exact ⟨hs, allPlain_nil, allPlain_singleton.2 (FieldDef.plain_texts.1 htexts).1⟩

omit h in
theorem plain_printStep {s : State} (hs : AllPlain (s.tabs.flatMap OpenTab.texts))
    {step : PrintStep Nat} (hlabel : Plain step.label) (htab : AllPlain step.tab.toList) :
    (printStep s step).IsPlain := by
  have hvalue {value : String} (hv : printedValue s.store step = some value) : Plain value := by
    rw [printedValue] at hv
    split at hv
    · split at hv
      · cases hv
      · cases hv
        exact breaks_empty
    · split at hv
      · cases hv
        exact plain_hexUpper _
      · split at hv
        · cases hv
          exact plain_ratio _
        · cases hv
          exact plain_integer _
  rw [printStep]
  cases hprinted : printedValue s.store step with
  | none => exact ⟨hs, allPlain_nil, allPlain_nil⟩
  | some value =>
    have hline : AllPlain ([(⟨step.label, value, none⟩ : Line)].flatMap Line.texts) :=
      allPlain_cons.2 ⟨hlabel, allPlain_singleton.2 (hvalue hprinted)⟩
    obtain ⟨htabs, hevents⟩ := State.plain_writeLines hs htab hline
    exact ⟨htabs, hevents, allPlain_nil⟩

omit h in
theorem plain_insertStep {s : State} (hs : AllPlain (s.tabs.flatMap OpenTab.texts))
    (tab : String) : (insertStep s tab).IsPlain := by
  rw [insertStep]
  cases htake : OpenTab.take tab s.tabs with
  | none => exact ⟨hs, allPlain_nil, allPlain_nil⟩
  | some taken =>
    obtain ⟨hfound, hrest⟩ := OpenTab.plain_take htake hs
    refine ⟨hrest, ?_, allPlain_nil⟩
    exact allPlain_append.2 ⟨OpenTab.plain_close hfound, allPlain_nil⟩

theorem perform {maxDepth : Nat} {s : State} (hs : AllPlain (s.tabs.flatMap OpenTab.texts))
    {step : Step Nat} (hstep : AllPlain step.texts) :
    (d.perform data maxDepth s step).IsPlain := by
  induction step using step_sorts with
  | block id =>
    rw [perform_block]
    split
    · exact ⟨hs, allPlain_nil, allPlain_singleton.2 (allPlain_cons.1 (h.block id)).1⟩
    · exact ⟨hs, allPlain_nil, allPlain_nil⟩
  | marker step hmarker =>
    have hmoves : (d.perform data maxDepth s step).Moves s := perform_marker hmarker
    have htabs : (d.perform data maxDepth s step).state.tabs = s.tabs :=
      congrArg Memory.tabs hmoves.memory
    constructor
    · rwa [htabs]
    · rw [hmoves.events]
      exact allPlain_nil
    · rw [hmoves.halted]
      exact allPlain_nil
  | action action haction =>
    cases action with
    | block id => exact absurd rfl (haction id)
    | exec step => exact ⟨hs, allPlain_nil, allPlain_nil⟩
    | title text => exact ⟨hs, hstep, allPlain_nil⟩
    | field step =>
      have hfield := h.fieldStep hs hstep
      exact ⟨hfield.tabs, hfield.events, hfield.halted⟩
    | print step =>
      obtain ⟨hlabel, htab⟩ := allPlain_cons.1 hstep
      have hprint := plain_printStep hs hlabel htab
      exact ⟨hprint.tabs, hprint.events, hprint.halted⟩
    | insert tab =>
      have hinsert := plain_insertStep hs tab
      exact ⟨hinsert.tabs, hinsert.events, hinsert.halted⟩

theorem turn {m m' : Moment} (hturn : d.Turn data config m m') (hm : m.IsPlain) :
    m'.IsPlain := by
  cases hturn with
  | completed hs hr => exact ⟨hm.tabs, hm.events, allPlain_nil⟩
  | returned r rest hs hr => exact ⟨hm.tabs, hm.events, hm.ended⟩
  | limited step hs hl => exact ⟨hm.tabs, hm.events, allPlain_nil⟩
  | performed step effect hs hl he =>
    subst he
    have hplain : (d.perform data config.maxBlockDepth m.state.counted step).IsPlain :=
      h.perform (s := m.state.counted) hm.tabs (h.step hs)
    refine ⟨hplain.tabs, ?_, hplain.halted⟩
    rw [List.flatMap_append]
    exact allPlain_append.2 ⟨hm.events, hplain.events⟩

theorem moment (config : Config) (n : Nat) : (d.moment data config n).IsPlain := by
  refine moment_induct ?_ (fun m m' _ hturn hm => h.turn hturn hm) n
  exact ⟨allPlain_nil, allPlain_singleton.2 (Definition.plain_texts.1 h.texts).1, allPlain_nil⟩

theorem run (config : Config) : AllPlain ((d.run data config).events.flatMap Event.texts) ∧
    AllPlain (d.run data config).outcome.texts := by
  obtain ⟨outcome, houtcome⟩ := exists_ended d data config
  have hcourse := run_of_ended houtcome
  have hlast := h.moment config (2 * config.stepLimit + 1)
  have hrun : (d.run data config).events = _ := congrArg Course.events hcourse
  have hend : (d.run data config).outcome = outcome := congrArg Course.outcome hcourse
  rw [hrun, hend]
  constructor
  · rw [Moment.close, List.flatMap_append, List.flatMap_map]
    refine allPlain_append.2 ⟨hlast.events, allPlain_flatMap.2 fun t ht => ?_⟩
    exact OpenTab.plain_close (allPlain_flatMap.1 hlast.tabs t ht)
  · have hended := hlast.ended
    rw [houtcome] at hended
    exact allPlain_flatMap.1 hended outcome (List.mem_singleton_self outcome)

end Legible

end Definition

/-! ### Labels of ranges -/

namespace Definition
variable (d : Definition) (data : Buffer) (config : Config)

def Labels (r : TaggedRange) : Prop := ∃ i, r.texts = (d.field i).name :: (d.field i).tag.toList

variable {d data config}

variable (d data) in
theorem rangesOf_readField (s : State) (f : FieldDef Nat) (step : FieldStep Nat) :
    rangesOf (d.readField data s f step).events = [] ∨
      ∃ n, rangesOf (d.readField data s f step).events = [d.taggedRange f s.cursor n] := by
  rw [readField]
  cases f.size.resolve data s.cursor (step.limit.map s.operand) with
  | none => exact .inl rfl
  | some size =>
    cases size with
    | zero => exact .inl (rangesOf_writeLines ..)
    | succ size =>
      simp only [rangesOf_append, rangesOf_writeLines, List.append_nil]
      split
      · exact .inl rfl
      · exact .inr ⟨size + 1, rfl⟩

theorem readField_labels {s : State} {f : FieldDef Nat} {step : FieldStep Nat} {r : TaggedRange}
    (h : r ∈ rangesOf (d.readField data s f step).events) :
    r.texts = f.name :: f.tag.toList := by
  obtain hnone | ⟨n, hone⟩ := rangesOf_readField d data s f step
  · rw [hnone] at h
    cases h
  · rw [hone, List.mem_singleton] at h
    rw [h]
    rfl

theorem fieldStep_labels {s : State} {step : FieldStep Nat} {r : TaggedRange}
    (h : r ∈ rangesOf (d.fieldStep data s step).events) : d.Labels r := by
  refine ⟨step.field, ?_⟩
  rw [fieldStep] at h
  cases hoffset : step.offset.map s.operand with
  | none =>
    rw [hoffset] at h
    exact readField_labels h
  | some target =>
    rw [hoffset] at h
    dsimp only at h
    split at h
    · exact readField_labels h
    · cases h

theorem perform_labels {maxDepth : Nat} {s : State} {step : Step Nat} {r : TaggedRange}
    (h : r ∈ rangesOf (d.perform data maxDepth s step).events) : d.Labels r := by
  by_cases hf : ∃ field, step = .act (.field field)
  · obtain ⟨field, rfl⟩ := hf
    exact fieldStep_labels h
  · rw [(perform_rests fun field hstep => hf ⟨field, hstep⟩).2] at h
    cases h

theorem moment_labels (n : Nat) : ∀ r ∈ rangesOf (d.moment data config n).events, d.Labels r := by
  refine moment_memory_induct (P := fun _ events => ∀ r ∈ rangesOf events, d.Labels r)
    (List.forall_mem_nil _) ?_ n
  intro s events step h
  rw [rangesOf_append]
  exact List.forall_mem_append.2 ⟨h, fun r hr => perform_labels hr⟩

variable (d data config) in
theorem run_labels : ∀ r ∈ rangesOf (d.run data config).events, d.Labels r := by
  obtain ⟨outcome, houtcome⟩ := exists_ended d data config
  have hrun : (d.run data config).events = _ := congrArg Course.events (run_of_ended houtcome)
  rw [hrun, rangesOf_close]
  exact moment_labels _

end Definition

theorem TaggedRange.texts_sweep {filler : Nat → Nat → TaggedRange} {len covered : Nat}
    {ranges : List TaggedRange} {r : TaggedRange} (h : r ∈ sweep filler len covered ranges) :
    (∃ start length, r.texts = (filler start length).texts) ∨
      ∃ r' ∈ ranges, r.texts = r'.texts := by
  induction ranges generalizing covered with
  | nil =>
    rw [sweep] at h
    split at h
    · rw [List.mem_singleton.1 h]
      exact .inl ⟨_, _, rfl⟩
    · cases h
  | cons r' ranges ih =>
    have hrest {covered : Nat} (h : r ∈ sweep filler len covered ranges) :
        (∃ start length, r.texts = (filler start length).texts) ∨
          ∃ r'' ∈ r' :: ranges, r.texts = r''.texts := by
      obtain hfiller | ⟨r'', hr'', htexts⟩ := ih h
      · exact .inl hfiller
      · exact .inr ⟨r'', List.mem_cons_of_mem r' hr'', htexts⟩
    simp only [sweep] at h
    split at h
    · exact hrest h
    · split at h
      · rcases List.mem_cons.1 h with rfl | h
        · exact .inl ⟨_, _, rfl⟩
        · rcases List.mem_cons.1 h with rfl | h
          · exact .inr ⟨r', List.mem_cons_self, rfl⟩
          · exact hrest h
      · rcases List.mem_cons.1 h with rfl | h
        · exact .inr ⟨r', List.mem_cons_self, rfl⟩
        · exact hrest h

/-- Whatever the bytes are, a listing has names and tags of fields and nothing else pasted in. -/
theorem Definition.analyze_labels (d : Definition) (config : Config) (data : Buffer) :
    ∀ r ∈ (d.analyze config data).ranges, d.Labels r := by
  have hrun := run_labels d data config
  intro r hr
  rw [analyze, analysisOf] at hr
  dsimp only at hr
  split at hr
  · obtain ⟨start, length, htexts⟩ | ⟨r', hr', htexts⟩ := TaggedRange.texts_sweep hr
    · exact ⟨d.unused, htexts⟩
    · obtain ⟨i, hi⟩ := hrun r' (List.mem_mergeSort.1 hr')
      exact ⟨i, htexts.trans hi⟩
  · exact hrun r hr

/-! ### What is kept of a run -/

theorem Description.plain_foldr {events : List Event} (h : AllPlain (events.flatMap Event.texts)) :
    AllPlain ((events.foldr prepend ([], [])).1.flatMap Entry.texts) ∧
      AllPlain ((events.foldr prepend ([], [])).2.flatMap Group.texts) := by
  induction events with
  | nil => exact ⟨allPlain_nil, allPlain_nil⟩
  | cons e events ih =>
    rw [List.flatMap_cons] at h
    obtain ⟨he, hevents⟩ := allPlain_append.1 h
    obtain ⟨hentries, hgroups⟩ := ih hevents
    rw [List.foldr_cons]
    cases e with
    | range r => exact ⟨hentries, hgroups⟩
    | title text =>
      refine ⟨allPlain_nil, allPlain_append.2 ⟨allPlain_cons.2 ⟨?_, hentries⟩, hgroups⟩⟩
      exact (allPlain_cons.1 he).1
    | line l => exact ⟨allPlain_append.2 ⟨he, hentries⟩, hgroups⟩
    | tab t => exact ⟨allPlain_append.2 ⟨he, hentries⟩, hgroups⟩

theorem Description.plain_ofEvents {events : List Event}
    (h : AllPlain (events.flatMap Event.texts)) :
    AllPlain ((ofEvents events).flatMap Group.texts) := by
  obtain ⟨hentries, hgroups⟩ := plain_foldr h
  rw [ofEvents_eq_group]
  generalize events.foldr prepend ([], []) = made at hentries hgroups
  rcases made with ⟨_ | ⟨entry, entries⟩, groups⟩
  · exact hgroups
  · exact allPlain_append.2 ⟨allPlain_cons.2 ⟨breaks_empty, hentries⟩, hgroups⟩

theorem Definition.Legible.analyze {d : Definition} {data : Buffer} (h : d.Legible data)
    (config : Config) : AllPlain (d.analyze config data).texts := by
  obtain ⟨hevents, houtcome⟩ := h.run config
  have hranges : AllPlain ((d.analyze config data).ranges.flatMap TaggedRange.texts) := by
    refine allPlain_flatMap.2 fun r hr => ?_
    obtain ⟨i, hi⟩ := d.analyze_labels config data r hr
    obtain ⟨hname, htag, -, -, -⟩ := FieldDef.plain_texts.1 (h.field i).1
    rw [hi]
    exact allPlain_cons.2 ⟨hname, htag⟩
  rw [Analysis.texts]
  exact allPlain_append.2
    ⟨allPlain_append.2 ⟨houtcome, hranges⟩, Description.plain_ofEvents hevents⟩

namespace Report

/-- What the two reports on an analysis keep of the lines that they are written by, `a` being the
analysis of these data. -/
structure Lined (path : String) (d : Definition) (data : Buffer) (a : Analysis) : Prop where
  listing : lines (ranges a) = a.ranges.flatMap fun r => pieces (rangeText r)
  /-- The first line of a range has its start and length in its first two columns. -/
  columns : ∀ r ∈ a.ranges, (pieces (rangeText r)).head?.bind columns? = some (r.start, r.length)
  /-- Every break in a label makes one line more. -/
  listing_length : (lines (ranges a)).length =
    a.ranges.length + breaksIn (a.ranges.flatMap TaggedRange.texts)
  listing_iff : lines (ranges a) = a.ranges.map rangeText ↔
    AllPlain (a.ranges.flatMap TaggedRange.texts)
  listing_read : lines (ranges a) = a.ranges.map rangeText →
    (lines (ranges a)).map columns? = a.ranges.map fun r => some (r.start, r.length)
  labels : ∀ r ∈ a.ranges, d.Labels r
  /-- The lines of the report on a file, where every pasted break makes one line more. -/
  report_length : (lines (text path d a)).length = 6 + a.ranges.length + a.description.length +
    (a.description.flatMap Group.entries).countP Entry.isTab + a.description.allLines.length +
    breaksIn (path :: d.name :: d.shortName :: a.texts)
  report_iff : lines (text path d a) = textLines path d a ↔
    AllPlain (path :: d.name :: d.shortName :: a.texts)
  /-- Definitions without breaks whose texts are ASCII, or read where there is no line feed, have
  reports of one line for everything that there is to report. -/
  legible : d.Legible data → lines (ranges a) = a.ranges.map rangeText ∧
    (Plain path → Plain d.shortName → lines (text path d a) = textLines path d a)

theorem allPlain_map {α : Type} {f : α → String} {g : α → List String}
    (h : ∀ item, breaks (f item) = breaksIn (g item)) {items : List α} :
    (∀ line ∈ items.map f, Plain line) ↔ AllPlain (items.flatMap g) := by
  rw [← breaksIn_eq_zero, breaksIn_map h, breaksIn_eq_zero, AllPlain]

theorem analyze_lined (path : String) (d : Definition) (config : Config) (data : Buffer) :
    Lined path d data (d.analyze config data) := by
  generalize ha : d.analyze config data = a
  have hlisting : lines (ranges a) = a.ranges.map rangeText ↔
      AllPlain (a.ranges.flatMap TaggedRange.texts) := by
    rw [ranges_eq, lines_unlines_iff, allPlain_map breaks_rangeText]
  have hreport : lines (text path d a) = textLines path d a ↔
      AllPlain (path :: d.name :: d.shortName :: a.texts) := by
    rw [text_eq, lines_unlines_iff, ← breaksIn_eq_zero, breaksIn_textLines, breaksIn_eq_zero,
      AllPlain]
  constructor
  case listing => exact lines_ranges a
  case columns => exact fun r _ => columns?_pieces r
  case listing_length =>
    rw [ranges_eq, length_lines_unlines, breaksIn_map breaks_rangeText, List.length_map]
  case listing_iff => exact hlisting
  case listing_read =>
    intro hplain
    rw [hplain, List.map_map]
    refine List.map_congr_left fun r hr => ?_
    have hr : Plain (rangeText r) := by
      rw [Plain, breaks_rangeText, breaksIn_eq_zero]
      exact allPlain_flatMap.1 (hlisting.1 hplain) r hr
    have hcolumns := columns?_pieces r
    rwa [pieces_of_plain hr] at hcolumns
  case labels =>
    rw [← ha]
    exact d.analyze_labels config data
  case report_length =>
    rw [text_eq, length_lines_unlines, length_textLines, breaksIn_textLines]
  case report_iff => exact hreport
  case legible =>
    intro hlegible
    have htexts : AllPlain a.texts := ha ▸ hlegible.analyze config
    obtain ⟨houtcome, -⟩ := allPlain_append.1 htexts
    refine ⟨hlisting.2 (allPlain_append.1 houtcome).2, fun hpath hshort => hreport.2 ?_⟩
    exact allPlain_cons.2 ⟨hpath, allPlain_cons.2
      ⟨(Definition.plain_texts.1 hlegible.texts).1, allPlain_cons.2 ⟨hshort, htexts⟩⟩⟩

def asciiSample : String :=
  "<format name='Sample' short='S'><endianness order='big'/>
   <magic><signature><read var='m' size='1'/></signature></magic><colors/>
   <field-defs><field id='x' name='x'><size remaining='true'/><encoding value='ascii'/></field>
   </field-defs><run><field ref='x'/></run></format>"

set_option maxRecDepth 4000 in
theorem analyze_lined_asciiSample : ∃ d, Document.compile asciiSample.toList = .ok d ∧
    ∀ config data,
      lines (text "in" d (d.analyze config data)) = textLines "in" d (d.analyze config data) := by
  have hcheck : (Document.compile asciiSample.toList).toOption.any (fun d =>
      decide (AllPlain d.texts) && decide (Plain d.shortName) &&
      d.fields.all fun f => f.encoding == .ascii) = true := by
    rw [show asciiSample.toList = _ from String.toList_ofList]
    decide +kernel
  obtain ⟨d, hd, hchecked⟩ := exists_of_any hcheck
  simp only [Bool.and_eq_true, decide_eq_true_eq, List.all_eq_true, beq_iff_eq] at hchecked
  obtain ⟨⟨htexts, hshort⟩, hascii⟩ := hchecked
  refine ⟨d, hd, fun config data => ?_⟩
  have hlegible : d.Legible data := ⟨htexts, fun f hf _ => .inl (hascii f hf)⟩
  exact ((analyze_lined "in" d config data).legible hlegible).2 (by decide) hshort

def breakSample : String :=
  "<format name='Sample' short='S'><endianness order='big'/>
   <magic><signature><read var='m' size='1'/></signature></magic><colors/>
   <field-defs><field id='x' name='a&#10;0x00000009        9 fg0   b'><size remaining='true'/>
     <encoding value='utf8'/></field></field-defs>
   <run><field ref='x'/></run></format>"

def breakBytes : Buffer := #[0x70, 0x0A, 0x5B, 0x71, 0x5D]

set_option maxRecDepth 4000 in
/-- The name makes a line on a range that there is not, and the text the heading of a group that
there is not. -/
theorem not_lined_breakSample : ∃ d, Document.compile breakSample.toList = .ok d ∧
    (d.analyze {} breakBytes).ranges.map (fun r => (r.start, r.length)) = [(0, 5)] ∧
    (lines (ranges (d.analyze {} breakBytes))).map columns? = [some (0, 5), some (9, 9)] ∧
    (d.analyze {} breakBytes).description.map (·.title) = ["Sample"] ∧
    "[q]" ∈ lines (text "in" d (d.analyze {} breakBytes)) := by
  have hcheck : (Document.compile breakSample.toList).toOption.any (fun d =>
      (d.analyze {} breakBytes).ranges.map (fun r => (r.start, r.length)) == [(0, 5)] &&
      (lines (ranges (d.analyze {} breakBytes))).map columns? == [some (0, 5), some (9, 9)] &&
      (d.analyze {} breakBytes).description.map (·.title) == ["Sample"] &&
      (lines (text "in" d (d.analyze {} breakBytes))).contains "[q]") = true := by
    rw [show breakSample.toList = _ from String.toList_ofList]
    decide +kernel
  obtain ⟨d, hd, hchecked⟩ := exists_of_any hcheck
  simp only [Bool.and_eq_true, beq_iff_eq, List.contains_iff_mem] at hchecked
  obtain ⟨⟨⟨hranges, hcolumns⟩, htitles⟩, hline⟩ := hchecked
  exact ⟨d, hd, hranges, hcolumns, htitles, hline⟩

end Report

end Dissect
