import Dissect.Proofs.Tiling

/-! Two runs of one definition that differ in their buffers or in their limits. They go in step as
long as every turn comes to the same; if one of them is cut short by what it lacks, the other has
shown all that it has shown. -/
namespace Dissect

/-- A run that was cut short, beside one that may go on. -/
structure Moment.CutFrom (cut : Outcome → Prop) (m m' : Moment) : Prop where
  ended : ∃ outcome, m.ended = some outcome ∧ cut outcome
  events : m.events <+: m'.events
  steps : m.state.steps ≤ m'.state.steps

namespace Definition
variable {d : Definition} {data data' : Buffer} {config config' : Config}

/-! ### What was shown stays shown -/

theorem Turn.grows {m m' : Moment} (h : d.Turn data config m m') :
    m.events <+: m'.events ∧ m.state.steps ≤ m'.state.steps := by
  cases h with
  | completed hs hr => exact ⟨List.prefix_rfl, Nat.le_refl _⟩
  | returned r rest hs hr => exact ⟨List.prefix_rfl, Nat.le_refl _⟩
  | limited step hs hl => exact ⟨List.prefix_rfl, Nat.le_refl _⟩
  | performed step effect hs hl he =>
    refine ⟨List.prefix_append _ _, ?_⟩
    rw [← he, perform_steps]
    exact Nat.le_succ _

theorem moment_of_ended {n : Nat} {outcome : Outcome}
    (h : (d.moment data config n).ended = some outcome) (k : Nat) :
    d.moment data config (n + k) = d.moment data config n := by
  induction k with
  | zero => rfl
  | succ k ih =>
    rw [← Nat.add_assoc]
    simp only [moment, ih, h, Option.isSome_some, if_true]

variable (d data config) in
theorem ended_of_le {n : Nat} (h : 2 * config.stepLimit + 1 ≤ n) : ∃ outcome,
    (d.moment data config n).ended = some outcome := by
  obtain ⟨outcome, he⟩ := exists_ended d data config
  obtain ⟨k, rfl⟩ := Nat.exists_eq_add_of_le h
  refine ⟨outcome, ?_⟩
  rw [moment_of_ended he, he]

/-! ### In step -/

variable {cut : Outcome → Prop}

theorem Turn.cutFrom {m m' m'' : Moment} (h : d.Turn data config m' m'')
    (hcut : m.CutFrom cut m') : m.CutFrom cut m'' :=
  ⟨hcut.ended, hcut.events.trans h.grows.1, hcut.steps.trans h.grows.2⟩

variable (d data data' config config' cut) in
/-- The next turn is the same in both runs, or it cuts the first one short. -/
def InStep (m : Moment) : Prop :=
  d.proceed data' config' m = d.proceed data config m ∨
    (d.proceed data config m).CutFrom cut (d.proceed data' config' m)

/-- Runs go in step if all that a step may do in the first one and not in the other is to end it
without a word. -/
theorem inStep_of_perform {m : Moment} (hlimit : config.stepLimit ≤ config'.stepLimit)
    (hcut : ∀ k, config.stepLimit < config'.stepLimit → cut (.stepLimit k))
    (hstep : ∀ step, d.step? m.state.place = some step →
      d.perform data' config'.maxBlockDepth m.state.counted step =
          d.perform data config.maxBlockDepth m.state.counted step ∨
        (∃ outcome, (d.perform data config.maxBlockDepth m.state.counted step).halted =
            some outcome ∧ cut outcome) ∧
          (d.perform data config.maxBlockDepth m.state.counted step).events = []) :
    d.InStep data data' config config' cut m := by
  have hturn : d.Turn data' config' m (d.proceed data' config' m) := turn_proceed m
  have hgrows := hturn.grows
  cases hs : d.step? m.state.place with
  | none =>
    left
    simp only [proceed, hs]
  | some step =>
    by_cases hl : config.stepLimit ≤ m.state.steps
    · have hp : d.proceed data config m = { m with ended := some (.stepLimit m.state.steps) } := by
        simp only [proceed, hs, if_pos hl]
      by_cases hl' : config'.stepLimit ≤ m.state.steps
      · left
        simp only [proceed, hs, if_pos hl, if_pos hl']
      · right
        rw [hp]
        exact ⟨⟨_, rfl, hcut _ (by omega)⟩, hgrows.1, hgrows.2⟩
    · have hl' : ¬config'.stepLimit ≤ m.state.steps := by omega
      obtain heq | ⟨hhalted, hevents⟩ := hstep step hs
      · left
        simp only [proceed, hs, if_neg hl, if_neg hl', heq]
      · have hp : d.proceed data config m =
            ⟨(d.perform data config.maxBlockDepth m.state.counted step).state, m.events,
              (d.perform data config.maxBlockDepth m.state.counted step).halted⟩ := by
          simp only [proceed, hs, if_neg hl, hevents, List.append_nil]
        have hsteps : (d.proceed data' config' m).state.steps = m.state.steps + 1 := by
          simp only [proceed, hs, if_neg hl']
          exact perform_steps ..
        right
        rw [hp]
        refine ⟨hhalted, hgrows.1, ?_⟩
        rw [hsteps]
        exact Nat.le_of_eq (perform_steps ..)

section Runs
variable (hin : ∀ n, (d.moment data config n).ended = none →
  d.InStep data data' config config' cut (d.moment data config n))
include hin

theorem moment_lockstep (n : Nat) : d.moment data' config' n = d.moment data config n ∨
    (d.moment data config n).CutFrom cut (d.moment data' config' n) := by
  induction n with
  | zero => exact .inl rfl
  | succ n ih =>
    obtain heq | hcut := ih
    · cases hend : (d.moment data config n).ended with
      | none =>
        rw [moment_succ hend, moment_succ (heq ▸ hend), heq]
        exact hin n hend
      | some outcome =>
        left
        rw [moment_of_ended hend 1, moment_of_ended (heq ▸ hend) 1, heq]
    · obtain ⟨outcome, hend, -⟩ := hcut.ended
      right
      rw [moment_of_ended hend 1]
      cases hend' : (d.moment data' config' n).ended with
      | none =>
        rw [moment_succ hend']
        exact (turn_proceed _).cutFrom hcut
      | some outcome' =>
        rw [moment_of_ended hend' 1]
        exact hcut

/-- Two runs that go in step make the same course, or the first was cut short at a moment up to
which the other has shown the same. -/
theorem run_lockstep : (d.run data' config').course = (d.run data config).course ∨
    ∃ n outcome, (d.moment data config n).ended = some outcome ∧ cut outcome ∧
      (d.run data config).course = (d.moment data config n).close outcome ∧
      (d.moment data config n).events <+: (d.run data' config').events ∧
      (d.run data config).steps ≤ (d.run data' config').steps := by
  obtain ⟨n, hle, hle'⟩ : ∃ n, 2 * config.stepLimit + 1 ≤ n ∧ 2 * config'.stepLimit + 1 ≤ n :=
    ⟨_, Nat.le_max_left .., Nat.le_max_right ..⟩
  obtain ⟨outcome, hend⟩ := ended_of_le d data config hle
  obtain ⟨outcome', hend'⟩ := ended_of_le d data' config' hle'
  have hrun := run_of_ended hend
  have hrun' := run_of_ended hend'
  obtain heq | hcut := moment_lockstep hin n
  · left
    have hsame : some outcome' = some outcome := by rw [← hend', heq, hend]
    rw [hrun, hrun', heq, Option.some.inj hsame]
  · right
    obtain ⟨cause, hcause, hreason⟩ := hcut.ended
    have hsame : some cause = some outcome := by rw [← hcause, hend]
    have hevents : (d.run data' config').events = _ := congrArg Course.events hrun'
    have hsteps : (d.run data config).steps = _ := congrArg Course.steps hrun
    have hsteps' : (d.run data' config').steps = _ := congrArg Course.steps hrun'
    refine ⟨n, outcome, hend, Option.some.inj hsame ▸ hreason, hrun, ?_, ?_⟩
    · rw [hevents]
      exact hcut.events.trans (List.prefix_append _ _)
    · rw [hsteps, hsteps']
      exact hcut.steps

end Runs

/-! ### What is kept of the runs -/

theorem rangesOf_isPrefix {events events' : List Event} (h : events <+: events') :
    rangesOf events <+: rangesOf events' :=
  h.filterMap _

variable (d data) in
theorem analyze_ranges (hfill : config.fillGaps = false) :
    (d.analyze config data).ranges = rangesOf (d.run data config).events := by
  simp only [analyze, analysisOf, hfill, Bool.false_eq_true, if_false]

theorem analyze_of_course (hfill : config.fillGaps = false) (hfill' : config'.fillGaps = false)
    (h : (d.run data' config').course = (d.run data config).course) :
    d.analyze config' data' = d.analyze config data := by
  have hevents : (d.run data' config').events = (d.run data config).events :=
    congrArg Course.events h
  have houtcome : (d.run data' config').outcome = (d.run data config).outcome :=
    congrArg Course.outcome h
  have hsteps : (d.run data' config').steps = (d.run data config).steps :=
    congrArg Course.steps h
  simp only [analyze, analysisOf, hfill, hfill', hevents, houtcome, hsteps, Bool.false_eq_true,
    if_false]

theorem ranges_of_close (hfill : config.fillGaps = false) {n : Nat} {outcome : Outcome}
    (h : (d.run data config).course = (d.moment data config n).close outcome) :
    (d.analyze config data).ranges = rangesOf (d.moment data config n).events := by
  have hevents : (d.run data config).events = _ := congrArg Course.events h
  rw [analyze_ranges d data hfill, hevents, rangesOf_close]

end Definition

end Dissect
