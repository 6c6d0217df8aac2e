import Dissect.Proofs.Lockstep
import Dissect.Proofs.Logs

/-! What becomes of the lines that a run writes. Every step says which lines it writes and which tab
it asks for. Lines without a tab come out at once, and a tab comes out with what was written to it
since it was last asked for, so that no line is lost, written twice or moved within its tab. -/
namespace Dissect

def Event.line? : Event → Option Line
  | .line l => some l
  | _ => none

def Event.tab? : Event → Option Tab
  | .tab t => some t
  | _ => none

def linesOf (events : List Event) : List Line := events.filterMap Event.line?

def tabsOf (events : List Event) : List Tab := events.filterMap Event.tab?

/-- The tabs of a name that come out, in order. -/
def tabsNamed (name : String) (events : List Event) : List Tab :=
  (tabsOf events).filter (·.name = name)

theorem linesOf_append (events events' : List Event) :
    linesOf (events ++ events') = linesOf events ++ linesOf events' :=
  List.filterMap_append

theorem tabsOf_append (events events' : List Event) :
    tabsOf (events ++ events') = tabsOf events ++ tabsOf events' :=
  List.filterMap_append

theorem tabsNamed_append (name : String) (events events' : List Event) :
    tabsNamed name (events ++ events') = tabsNamed name events ++ tabsNamed name events' := by
  rw [tabsNamed, tabsOf_append, List.filter_append, tabsNamed, tabsNamed]

theorem linesOf_tabs (tabs : List Tab) : linesOf (tabs.map .tab) = [] := by
  simp [linesOf, List.filterMap_map, Function.comp_def, Event.line?]

theorem tabsOf_tabs (tabs : List Tab) : tabsOf (tabs.map .tab) = tabs := by
  simp [tabsOf, List.filterMap_map, Function.comp_def, Event.tab?]

/-! ### Open tabs as they will come out -/

namespace OpenTab

@[simp] theorem close_name (t : OpenTab) : t.close.name = t.name := rfl

theorem close_write (name : String) (line : Line) {tabs : List OpenTab}
    (h : (tabs.map OpenTab.name).Nodup) : (write name line tabs).map close =
      if name ∈ tabs.map OpenTab.name then
        (tabs.map close).map fun t => if t.name = name then ⟨name, t.lines ++ [line]⟩ else t
      else tabs.map close ++ [⟨name, [line]⟩] := by
  induction tabs with
  | nil => rfl
  | cons t tabs ih =>
    obtain ⟨hnot, hnodup⟩ := List.nodup_cons.1 h
    by_cases hname : t.name = name
    · subst hname
      -- No other tab has the name.
      have hrest : (tabs.map close).map
          (fun u : Tab => if u.name = t.name then ⟨t.name, u.lines ++ [line]⟩ else u) =
            tabs.map close := by
        refine (List.map_congr_left fun u hu => ?_).trans (List.map_id _)
        obtain ⟨v, hv, rfl⟩ := List.mem_map.1 hu
        exact if_neg fun hvt : v.name = t.name => hnot (hvt ▸ List.mem_map_of_mem hv)
      simp only [write, if_true, List.map_cons, List.mem_cons, true_or, hrest, close_name]
      simp [close]
    · have hne : name ≠ t.name := fun hn => hname hn.symm
      have hclose : (if t.close.name = name then ⟨name, t.close.lines ++ [line]⟩ else t.close) =
          t.close := if_neg hname
      simp only [write, if_neg hname, List.map_cons, ih hnodup, List.mem_cons, hne, false_or,
        hclose]
      split <;> rfl

theorem take_none {name : String} {tabs : List OpenTab} (h : take name tabs = none) :
    name ∉ tabs.map OpenTab.name := by
  induction tabs with
  | nil => simp
  | cons t tabs ih =>
    rw [take] at h
    by_cases hname : t.name = name
    · rw [if_pos hname] at h
      cases h
    · rw [if_neg hname, Option.map_eq_none_iff] at h
      simpa [Ne.symm hname] using ih h

theorem take_some {name : String} {tabs rest : List OpenTab} {found : OpenTab}
    (h : take name tabs = some (found, rest)) (hnodup : (tabs.map OpenTab.name).Nodup) :
    found.name = name ∧ found ∈ tabs ∧ rest = tabs.filter (·.name ≠ name) := by
  induction tabs generalizing rest with
  | nil => cases h
  | cons t tabs ih =>
    obtain ⟨hnot, hnodup⟩ := List.nodup_cons.1 hnodup
    rw [take] at h
    by_cases hname : t.name = name
    · rw [if_pos hname] at h
      obtain ⟨rfl, rfl⟩ := Prod.mk.inj (Option.some.inj h)
      refine ⟨hname, List.mem_cons_self, ?_⟩
      have hkept : tabs.filter (·.name ≠ name) = tabs := by
        refine List.filter_eq_self.2 fun u hu => decide_eq_true fun hun => hnot ?_
        rw [hname, ← hun]
        exact List.mem_map_of_mem hu
      rw [List.filter_cons_of_neg (by simp [hname]), hkept]
    · rw [if_neg hname] at h
      obtain ⟨⟨found', rest'⟩, htake, heq⟩ := Option.map_eq_some_iff.1 h
      obtain ⟨rfl, rfl⟩ := Prod.mk.inj heq
      obtain ⟨hfound, hmem, rfl⟩ := ih htake hnodup
      exact ⟨hfound, List.mem_cons_of_mem _ hmem, by simp [hname]⟩

end OpenTab

/-! ### One mark -/

def Mark.play (tabs : List OpenTab) : Mark → List OpenTab × List Event
  | .wrote none line => (tabs, [.line line])
  | .wrote (some tab) line => (OpenTab.write tab line tabs, [])
  | .insert tab =>
    match OpenTab.take tab tabs with
    | none => (tabs, [])
    | some (found, rest) => (rest, [.tab found.close])

def Log.play (tabs : List OpenTab) : Log → List OpenTab × List Event
  | [] => (tabs, [])
  | mark :: log => ((Log.play (mark.play tabs).1 log).1,
      (mark.play tabs).2 ++ (Log.play (mark.play tabs).1 log).2)

/-- The open tabs and what has come out are what a log says. -/
structure Log.Kept (log : Log) (tabs : List OpenTab) (events : List Event) : Prop where
  opened : tabs.map OpenTab.close = log.openTabs
  lines : linesOf events = log.looseLines
  tabs : ∀ name, (tabsNamed name events).map (·.lines) =
    (log.stretches name).dropLast.filter (· ≠ [])

namespace Log.Kept
variable {log : Log} {tabs : List OpenTab} {events : List Event} (h : log.Kept tabs events)
include h

theorem names : tabs.map OpenTab.name = log.opened := by
  have hnames : (tabs.map OpenTab.close).map Tab.name = log.openTabs.map Tab.name :=
    congrArg _ h.opened
  simpa [openTabs, Function.comp_def] using hnames

theorem close_of_mem {t : OpenTab} (ht : t ∈ tabs) :
    t.close = ⟨t.name, log.pendingInto t.name⟩ ∧ log.pendingInto t.name ≠ [] := by
  have hmem : t.close ∈ log.openTabs := h.opened ▸ List.mem_map_of_mem ht
  obtain ⟨name, hname, heq⟩ := List.mem_map.1 hmem
  have hnames : name = t.name := congrArg Tab.name heq
  subst hnames
  exact ⟨heq.symm, mem_opened.1 hname⟩

theorem play_insert (tab : String) : ((Mark.insert tab).play tabs).2 =
    if log.pendingInto tab = [] then [] else [.tab ⟨tab, log.pendingInto tab⟩] := by
  rw [Mark.play]
  cases htake : OpenTab.take tab tabs with
  | none =>
    have hnot := OpenTab.take_none htake
    rw [h.names, mem_opened, not_not] at hnot
    rw [if_pos hnot]
  | some taken =>
    obtain ⟨found, rest⟩ := taken
    obtain ⟨rfl, hmem, -⟩ := OpenTab.take_some htake (h.names ▸ nodup_opened log)
    obtain ⟨hclose, hpending⟩ := h.close_of_mem hmem
    rw [if_neg hpending]
    exact congrArg (fun t => [Event.tab t]) hclose

theorem play_insert_tabs (tab : String) :
    ((Mark.insert tab).play tabs).1 = tabs.filter (·.name ≠ tab) := by
  rw [Mark.play]
  cases htake : OpenTab.take tab tabs with
  | none =>
    refine (List.filter_eq_self.2 fun t ht => ?_).symm
    have hne : t.name ≠ tab :=
      fun htab => OpenTab.take_none htake (htab ▸ List.mem_map_of_mem ht)
    exact decide_eq_true hne
  | some taken =>
    obtain ⟨found, rest⟩ := taken
    exact (OpenTab.take_some htake (h.names ▸ nodup_opened log)).2.2

theorem loose (line : Line) :
    Log.Kept (log ++ [.wrote none line]) tabs (events ++ [.line line]) := by
  constructor
  case opened =>
    have hpending (name : String) :
        pendingInto name (log ++ [.wrote none line]) = pendingInto name log := by
      rw [pendingInto_append, if_neg (by simp)]
      exact List.append_nil _
    simp only [openTabs, opened_loose, hpending]
    exact h.opened
  case lines =>
    rw [linesOf_append, looseLines_append, h.lines]
    rfl
  case tabs =>
    intro name
    rw [tabsNamed_append, stretches_append (by simp), ← h.tabs name]
    exact congrArg _ (List.append_nil _)

theorem wrote (tab : String) (line : Line) :
    Log.Kept (log ++ [.wrote (some tab) line]) (OpenTab.write tab line tabs) events := by
  have hpending (name : String) : pendingInto name (log ++ [.wrote (some tab) line]) =
      if tab = name then pendingInto name log ++ [line] else pendingInto name log := by
    rw [pendingInto_append, if_neg (by simp), Mark.into?]
    split <;> simp
  constructor
  case opened =>
    rw [OpenTab.close_write tab line (h.names ▸ nodup_opened log), h.names, h.opened]
    simp only [openTabs, opened_wrote, hpending]
    by_cases hin : tab ∈ log.opened
    · rw [if_pos hin, if_pos hin, List.map_map]
      refine List.map_congr_left fun name _ => ?_
      by_cases htab : name = tab
      · simp [htab]
      · simp [htab, Ne.symm htab]
    · have hnone : pendingInto tab log = [] := not_not.1 fun hp => hin (mem_opened.2 hp)
      rw [if_neg hin, if_neg hin, List.map_append, List.map_singleton, if_pos rfl, hnone]
      refine congrArg (· ++ _) (List.map_congr_left fun name hname => ?_)
      rw [if_neg fun htab : tab = name => hin (htab ▸ hname)]
  case lines =>
    rw [looseLines_append, h.lines]
    exact (List.append_nil _).symm
  case tabs =>
    intro name
    rw [stretches_append (by simp)]
    exact h.tabs name

theorem insert (tab : String) : Log.Kept (log ++ [.insert tab]) ((Mark.insert tab).play tabs).1
    (events ++ ((Mark.insert tab).play tabs).2) := by
  constructor
  case opened =>
    have hclose : (tabs.filter (·.name ≠ tab)).map OpenTab.close =
        (tabs.map OpenTab.close).filter (·.name ≠ tab) := by
      rw [List.filter_map]
      rfl
    have hopen : log.openTabs.filter (·.name ≠ tab) =
        (log.opened.filter (· ≠ tab)).map fun name => ⟨name, log.pendingInto name⟩ := by
      rw [openTabs, List.filter_map]
      rfl
    rw [h.play_insert_tabs, hclose, h.opened, hopen, openTabs, opened_insert]
    refine List.map_congr_left fun name hname => ?_
    have hne : name ≠ tab := of_decide_eq_true (List.mem_filter.1 hname).2
    rw [pendingInto_append, if_neg (by simpa using Ne.symm hne)]
    exact congrArg _ (List.append_nil _).symm
  case lines =>
    rw [linesOf_append, looseLines_append, h.lines, h.play_insert]
    split <;> rfl
  case tabs =>
    intro name
    rw [tabsNamed_append, List.map_append, h.tabs name, h.play_insert]
    by_cases hname : name = tab
    · subst hname
      rw [stretches_insert]
      conv_rhs => rw [stretches_eq]
      rw [List.filter_append]
      refine congrArg _ ?_
      split
      next hnone => simp [hnone, tabsNamed, tabsOf]
      next hsome => simp [hsome, tabsNamed, tabsOf, Event.tab?]
    · rw [stretches_append (by simpa using Ne.symm hname)]
      refine (congrArg _ ?_).trans (List.append_nil _)
      split
      · rfl
      · simp [tabsNamed, tabsOf, Event.tab?, Ne.symm hname]

theorem mark (mark : Mark) :
    Log.Kept (log ++ [mark]) (mark.play tabs).1 (events ++ (mark.play tabs).2) := by
  cases mark with
  | insert tab => exact h.insert tab
  | wrote tab line =>
    cases tab with
    | none => exact h.loose line
    | some tab =>
      have hplay : ((Mark.wrote (some tab) line).play tabs).2 = [] := rfl
      rw [hplay, List.append_nil]
      exact h.wrote tab line

theorem play (log' : Log) :
    Log.Kept (log ++ log') (log'.play tabs).1 (events ++ (log'.play tabs).2) := by
  induction log' generalizing log tabs events with
  | nil =>
    rw [Log.play, List.append_nil, List.append_nil]
    exact h
  | cons mark log' ih =>
    have hnext := ih (h.mark mark)
    rw [List.append_assoc, List.append_assoc] at hnext
    exact hnext

theorem of_events {events' : List Event} (hlines : linesOf events' = linesOf events)
    (htabs : tabsOf events' = tabsOf events) : log.Kept tabs events' := by
  refine ⟨h.opened, hlines.trans h.lines, fun name => ?_⟩
  rw [tabsNamed, htabs]
  exact h.tabs name

end Log.Kept

/-! ### Steps -/

/-- What a step does to tabs and lines is what marks do. -/
structure Effect.Plays (e : Effect) (tabs : List OpenTab) (log : Log) : Prop where
  state : e.state.tabs = (log.play tabs).1
  lines : linesOf e.events = linesOf (log.play tabs).2
  tabs : tabsOf e.events = tabsOf (log.play tabs).2

theorem Effect.Plays.silent {e : Effect} {tabs : List OpenTab} (hstate : e.state.tabs = tabs)
    (hlines : linesOf e.events = []) (htabs : tabsOf e.events = []) : e.Plays tabs [] :=
  ⟨hstate, hlines, htabs⟩

theorem play_writeLines (s : State) (tab : Option String) (lines : List Line) :
    (s.writeLines tab lines).1.tabs = (Log.play s.tabs (lines.map (.wrote tab))).1 ∧
      (s.writeLines tab lines).2 = (Log.play s.tabs (lines.map (.wrote tab))).2 := by
  induction lines generalizing s with
  | nil => cases tab <;> exact ⟨rfl, rfl⟩
  | cons line lines ih =>
    cases tab with
    | none =>
      obtain ⟨htabs, hevents⟩ := ih s
      exact ⟨htabs, congrArg (Event.line line :: ·) hevents⟩
    | some name =>
      obtain ⟨htabs, hevents⟩ := ih { s with tabs := OpenTab.write name line s.tabs }
      exact ⟨htabs, hevents⟩

namespace Definition
variable (d : Definition) (data : Buffer) (config : Config)

def fieldLines (s : State) (f : FieldDef Nat) (limit : Option (Operand Nat)) : List Line :=
  match f.size.resolve data s.cursor (limit.map s.operand) with
  | none => []
  | some 0 => [⟨f.name, "", none⟩]
  | some size =>
    let bytes := (data.extract s.cursor (s.cursor + size)).toList
    let reading := f.read (d.endianness.resolve s.store) bytes
    ⟨f.name, reading.value, f.tooltip⟩ :: reading.extra

/-- What a step writes and asks for. -/
def marks (s : State) : Step Nat → Log
  | .act (.field step) =>
    let lines (s : State) := d.fieldLines data s (d.field step.field) step.limit
    match step.offset.map s.operand with
    | none => (lines s).map (.wrote step.tab)
    | some target =>
      if 0 ≤ target ∧ target ≤ data.size then
        (lines { s with cursor := target.toNat }).map (.wrote step.tab)
      else []
  | .act (.print step) =>
    (printedValue s.store step).toList.map fun value => .wrote step.tab ⟨step.label, value, none⟩
  | .act (.insert tab) => [.insert tab]
  | _ => []

def marksNext (m : Moment) : Log :=
  match d.step? m.state.place with
  | none => []
  | some step => if config.stepLimit ≤ m.state.steps then [] else d.marks data m.state step

/-- What was written and asked for in so many turns. -/
def log : Nat → Log
  | 0 => []
  | n + 1 =>
    if (d.moment data config n).ended.isSome then log n
    else log n ++ d.marksNext data config (d.moment data config n)

def fullLog : Log := d.log data config (2 * config.stepLimit + 1)

variable {d data config}

theorem readField_plays (s : State) (f : FieldDef Nat) (step : FieldStep Nat) :
    (d.readField data s f step).Plays s.tabs
      ((d.fieldLines data s f step.limit).map (.wrote step.tab)) := by
  rw [readField, fieldLines]
  cases f.size.resolve data s.cursor (step.limit.map s.operand) with
  | none => exact .silent rfl rfl rfl
  | some size =>
    cases size with
    | zero =>
      obtain ⟨htabs, hevents⟩ := play_writeLines s step.tab [⟨f.name, "", none⟩]
      exact ⟨htabs, congrArg linesOf hevents, congrArg tabsOf hevents⟩
    | succ size =>
      let bytes := (data.extract s.cursor (s.cursor + (size + 1))).toList
      let reading := f.read (d.endianness.resolve s.store) bytes
      obtain ⟨htabs, hevents⟩ :=
        play_writeLines s step.tab (⟨f.name, reading.value, f.tooltip⟩ :: reading.extra)
      refine ⟨htabs, (linesOf_append _ _).trans ?_, (tabsOf_append _ _).trans ?_⟩
      · refine Eq.trans ?_ (congrArg linesOf hevents)
        cases f.bits <;> rfl
      · refine Eq.trans ?_ (congrArg tabsOf hevents)
        cases f.bits <;> rfl

theorem fieldStep_plays (s : State) (step : FieldStep Nat) :
    (d.fieldStep data s step).Plays s.tabs (d.marks data s (.act (.field step))) := by
  simp only [fieldStep, marks]
  cases step.offset.map s.operand with
  | none => exact readField_plays s _ step
  | some target =>
    by_cases h : 0 ≤ target ∧ target ≤ data.size
    · simp only [if_pos h]
      have hthere : (d.readField data { s with cursor := target.toNat } (d.field step.field)
          step).Plays s.tabs _ := readField_plays _ _ step
      exact ⟨hthere.state, hthere.lines, hthere.tabs⟩
    · simp only [if_neg h]
      exact .silent rfl rfl rfl

theorem perform_plays (maxDepth : Nat) (s : State) (step : Step Nat) :
    (d.perform data maxDepth s step).Plays s.tabs (d.marks data s step) := by
  induction step using step_sorts with
  | block id =>
    rw [perform_block]
    split <;> exact .silent rfl rfl rfl
  | marker step h =>
    have hmoves : (d.perform data maxDepth s step).Moves s := perform_marker h
    have hnone : d.marks data s step = [] := by
      cases step with
      | act action => exact absurd rfl (h action)
      | _ => rfl
    rw [hnone]
    refine .silent (congrArg Memory.tabs hmoves.memory) ?_ ?_ <;> rw [hmoves.events] <;> rfl
  | action action h =>
    cases action with
    | block id => exact absurd rfl (h id)
    | exec step => exact .silent rfl rfl rfl
    | title text => exact .silent rfl rfl rfl
    | field step =>
      have hfield : (d.fieldStep data s step).Plays s.tabs _ := fieldStep_plays s step
      exact ⟨hfield.state, hfield.lines, hfield.tabs⟩
    | print step =>
      simp only [perform, thenNext, printStep, marks]
      cases printedValue s.store step with
      | none => exact .silent rfl rfl rfl
      | some value =>
        obtain ⟨htabs, hevents⟩ := play_writeLines s step.tab [⟨step.label, value, none⟩]
        exact ⟨htabs, congrArg linesOf hevents, congrArg tabsOf hevents⟩
    | insert tab =>
      have hplay : Log.play s.tabs [.insert tab] =
          ((insertStep s tab).state.tabs, (insertStep s tab).events) := by
        simp only [Log.play, Mark.play, insertStep, List.append_nil]
        cases OpenTab.take tab s.tabs <;> rfl
      have hmarks : d.marks data s (.act (.insert tab)) = [.insert tab] := rfl
      constructor <;> (rw [hmarks, hplay]; rfl)

/-! ### Runs -/

theorem Turn.kept {m m' : Moment} {log : Log} (h : d.Turn data config m m')
    (hm : log.Kept m.state.tabs m.events) :
    Log.Kept (log ++ d.marksNext data config m) m'.state.tabs m'.events := by
  cases h with
  | completed hs hr =>
    rw [marksNext, hs, List.append_nil]
    exact hm
  | returned r rest hs hr =>
    rw [marksNext, hs, List.append_nil]
    exact hm
  | limited step hs hl =>
    simp only [marksNext, hs, if_pos hl, List.append_nil]
    exact hm
  | performed step effect hs hl he =>
    subst he
    have hplays : (d.perform data config.maxBlockDepth m.state.counted step).Plays
        m.state.counted.tabs _ := perform_plays _ _ step
    simp only [marksNext, hs, if_neg (Nat.not_le_of_lt hl)]
    have hnext := hm.play (d.marks data m.state step)
    rw [hplays.state]
    refine hnext.of_events ?_ ?_
    · rw [linesOf_append, linesOf_append, hplays.lines]
      rfl
    · rw [tabsOf_append, tabsOf_append, hplays.tabs]
      rfl

variable (d data config) in
/-- At every moment the open tabs and what has come out are what the log says. -/
theorem kept_log (n : Nat) : (d.log data config n).Kept (d.moment data config n).state.tabs
    (d.moment data config n).events := by
  induction n with
  | zero => exact ⟨rfl, rfl, fun _ => rfl⟩
  | succ n ih =>
    cases h : (d.moment data config n).ended with
    | none =>
      rw [moment_succ h]
      simp only [log, h, Option.isSome_none, Bool.false_eq_true, if_false]
      exact (turn_proceed _).kept ih
    | some outcome => simpa only [moment, log, h, Option.isSome_some, if_true] using ih

theorem tabsNamed_openTabs (name : String) (log : Log) :
    (tabsNamed name (log.openTabs.map .tab)).map (·.lines) =
      [log.pendingInto name].filter (· ≠ []) := by
  have hnamed : log.openTabs.filter (·.name = name) =
      (log.opened.filter (· = name)).map fun name => ⟨name, log.pendingInto name⟩ := by
    rw [Log.openTabs, List.filter_map]
    rfl
  rw [tabsNamed, tabsOf_tabs, hnamed, List.filter_eq, (Log.nodup_opened log).count]
  by_cases hin : name ∈ log.opened
  · simp [hin, Log.mem_opened.1 hin]
  · simp [hin, not_not.1 fun hp => hin (Log.mem_opened.2 hp)]

structure Delivered (d : Definition) (data : Buffer) (config : Config) : Prop where
  /-- The run has ended when its log is full, and delivers the tabs that are open then in the order
  in which they were opened. -/
  open_tabs : ∃ outcome, (d.moment data config (2 * config.stepLimit + 1)).ended = some outcome ∧
    (d.run data config).course =
      (d.moment data config (2 * config.stepLimit + 1)).close outcome ∧
    (d.run data config).events = (d.moment data config (2 * config.stepLimit + 1)).events ++
      (d.fullLog data config).openTabs.map .tab
  lines : linesOf (d.run data config).events = (d.fullLog data config).looseLines
  tabs : ∀ name, (tabsNamed name (d.run data config).events).map (·.lines) =
    ((d.fullLog data config).stretches name).filter (· ≠ [])
  whole : ∀ name, (tabsNamed name (d.run data config).events).flatMap (·.lines) =
    (d.fullLog data config).linesInto name
  filled : ∀ tab, .tab tab ∈ (d.run data config).events → tab.lines ≠ []
  inserted : ∀ n tab, (d.moment data config n).ended = none →
    d.step? (d.moment data config n).state.place = some (.act (.insert tab)) →
    (d.moment data config n).state.steps < config.stepLimit →
    (d.moment data config (n + 1)).events = (d.moment data config n).events ++
      if (d.log data config n).pendingInto tab = [] then []
      else [.tab ⟨tab, (d.log data config n).pendingInto tab⟩]

theorem events_insert {n : Nat} {tab : String} (h : (d.moment data config n).ended = none)
    (hs : d.step? (d.moment data config n).state.place = some (.act (.insert tab)))
    (hl : (d.moment data config n).state.steps < config.stepLimit) :
    (d.moment data config (n + 1)).events = (d.moment data config n).events ++
      if (d.log data config n).pendingInto tab = [] then []
      else [.tab ⟨tab, (d.log data config n).pendingInto tab⟩] := by
  rw [moment_succ h, ← (kept_log d data config n).play_insert tab]
  simp only [proceed, hs, if_neg (Nat.not_le_of_lt hl), perform, thenNext, insertStep, Mark.play]
  have htabs : (d.moment data config n).state.counted.tabs =
      (d.moment data config n).state.tabs := rfl
  rw [htabs]
  cases OpenTab.take tab (d.moment data config n).state.tabs <;> rfl

/-- No line is lost, written twice or moved within its group, whatever ends the run. Lines without
a tab come out in the order in which they were written, and the tabs of one name are the stretches
between one time the tab was asked for and the next, those without a line left out. -/
theorem run_delivered (d : Definition) (data : Buffer) (config : Config) :
    d.Delivered data config := by
  obtain ⟨outcome, hend⟩ := exists_ended d data config
  have hclose := run_of_ended hend
  have hkept := kept_log d data config (2 * config.stepLimit + 1)
  have hevents : (d.run data config).events =
      (d.moment data config (2 * config.stepLimit + 1)).events ++
        (d.fullLog data config).openTabs.map .tab := by
    refine (congrArg Course.events hclose).trans ?_
    rw [fullLog, ← hkept.opened, List.map_map]
    rfl
  have htabs (name : String) : (tabsNamed name (d.run data config).events).map (·.lines) =
      ((d.fullLog data config).stretches name).filter (· ≠ []) := by
    rw [hevents, tabsNamed_append, List.map_append, hkept.tabs name, tabsNamed_openTabs,
      ← List.filter_append]
    exact congrArg _ (Log.stretches_eq name _).symm
  constructor
  case open_tabs => exact ⟨outcome, hend, hclose, hevents⟩
  case lines =>
    rw [hevents, linesOf_append, linesOf_tabs, List.append_nil]
    exact hkept.lines
  case tabs => exact htabs
  case whole =>
    intro name
    rw [List.flatMap_def, htabs name, ← Log.flatten_stretches]
    exact List.flatten_filter_ne_nil
  case filled =>
    intro tab htab
    have hnamed : tab ∈ tabsNamed tab.name (d.run data config).events := by
      refine List.mem_filter.2 ⟨List.mem_filterMap.2 ⟨_, htab, rfl⟩, decide_eq_true rfl⟩
    have hmem := List.mem_map_of_mem (f := Tab.lines) hnamed
    rw [htabs] at hmem
    exact of_decide_eq_true (List.mem_filter.1 hmem).2
  case inserted => exact fun n tab => events_insert

/-- Two tabs in turn, one of which is asked for while both are open and written to again. -/
def tabsSample : Definition where
  name := "n"
  shortName := "s"
  endianness := .big
  colors := []
  fields := [{ FieldDef.unused with name := "f", size := .fixed 1 }]
  signatures := []
  blocks := []
  program := [.act (.field ⟨0, none, none, none, some "a"⟩),
    .act (.field ⟨0, none, none, none, some "b"⟩), .act (.field ⟨0, none, none, none, none⟩),
    .act (.insert "a"), .act (.insert "a"), .act (.field ⟨0, none, none, none, some "a"⟩),
    .act (.field ⟨0, none, none, none, some "b"⟩)]
  vars := []
  unused := 0

example : tabsOf (tabsSample.run #[1, 2, 3, 4, 5] {}).events =
    [⟨"a", [⟨"f", "01", none⟩]⟩, ⟨"b", [⟨"f", "02", none⟩, ⟨"f", "05", none⟩]⟩,
      ⟨"a", [⟨"f", "04", none⟩]⟩] := by
  decide +kernel

end Definition

end Dissect
