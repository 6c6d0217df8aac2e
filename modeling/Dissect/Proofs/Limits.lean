import Dissect.Proofs.Lockstep

/-! Higher limits. The limits of a run decide nothing but whether it is stopped: a run with lower
ones is the run with higher ones, up to where it is stopped. -/
namespace Dissect

def Outcome.isLimit : Outcome → Bool
  | .stepLimit _ => true
  | .blockDepth _ => true
  | _ => false

namespace Definition
variable {d : Definition} {data : Buffer} {config config' : Config}

/-- Where more blocks may be pending a step does the same, unless it is a call that is refused. -/
theorem perform_deeper {maxDepth maxDepth' : Nat} (h : maxDepth ≤ maxDepth') (s : State)
    (step : Step Nat) :
    d.perform data maxDepth' s step = d.perform data maxDepth s step ∨
      (∃ outcome, (d.perform data maxDepth s step).halted = some outcome ∧
          outcome.isLimit = true) ∧ (d.perform data maxDepth s step).events = [] := by
  cases step with
  | act action =>
    cases action with
    | block id =>
      rw [perform_block, perform_block]
      by_cases hd : maxDepth ≤ s.returns.length
      · right
        rw [if_pos hd]
        exact ⟨⟨_, rfl, rfl⟩, rfl⟩
      · left
        rw [if_neg hd, if_neg (by omega)]
    | _ => exact .inl rfl
  | _ => exact .inl rfl

structure Extended (d : Definition) (data : Buffer) (config config' : Config) : Prop where
  same : (d.analyze config data).outcome.isLimit = false →
    d.analyze config' data = d.analyze config data
  ranges : (d.analyze config data).ranges <+: (d.analyze config' data).ranges
  /-- All that was shown before the tabs still open were delivered. -/
  events : ∃ n outcome, (d.moment data config n).ended = some outcome ∧
    (d.run data config).course = (d.moment data config n).close outcome ∧
    (d.moment data config n).events <+: (d.run data config').events
  steps : (d.analyze config data).steps ≤ (d.analyze config' data).steps

/-- Raising the limits only extends a run. -/
theorem run_extended (d : Definition) (data : Buffer) {config config' : Config}
    (hfill : config.fillGaps = false) (hfill' : config'.fillGaps = false)
    (hlimit : config.stepLimit ≤ config'.stepLimit)
    (hdepth : config.maxBlockDepth ≤ config'.maxBlockDepth) :
    d.Extended data config config' := by
  have hin (n : Nat) (_ : (d.moment data config n).ended = none) :
      d.InStep data data config config' (·.isLimit = true) (d.moment data config n) :=
    inStep_of_perform hlimit (fun _ _ => rfl) fun step _ => perform_deeper hdepth _ step
  obtain hcourse | ⟨n, outcome, hend, hcut, hclose, hevents, hsteps⟩ := run_lockstep hin
  · have hsame := analyze_of_course hfill hfill' hcourse
    obtain ⟨outcome, hend⟩ := exists_ended d data config
    have hclose := run_of_ended hend
    have hshown : (d.run data config').events = _ :=
      congrArg Course.events (hcourse.trans hclose)
    refine ⟨fun _ => hsame, ?_, ⟨_, outcome, hend, hclose, ?_⟩, ?_⟩
    · exact hsame ▸ List.prefix_rfl
    · rw [hshown]
      exact List.prefix_append _ _
    · rw [hsame]
  · have houtcome : (d.analyze config data).outcome = outcome := congrArg Course.outcome hclose
    refine ⟨?_, ?_, ⟨n, outcome, hend, hclose, hevents⟩, hsteps⟩
    · rw [houtcome, hcut]
      intro h
      cases h
    · rw [ranges_of_close hfill hclose, analyze_ranges d data hfill']
      exact rangesOf_isPrefix hevents

def recursiveSample : Definition where
  name := "n"
  shortName := "s"
  endianness := .big
  colors := []
  fields := [{ FieldDef.unused with size := .fixed 1 }]
  signatures := []
  blocks := [⟨"b", [.act (.field ⟨0, none, none, none, some "t"⟩), .act (.block 0)]⟩]
  program := [.act (.block 0)]
  vars := []
  unused := 0

theorem run_extended_recursiveSample :
    (recursiveSample.analyze ⟨100, 1, false⟩ #[1, 2, 3]).outcome = .blockDepth "b" ∧
      (recursiveSample.analyze ⟨100, 5, false⟩ #[1, 2, 3]).outcome = .exhausted 3 "unused data" ∧
      recursiveSample.Extended #[1, 2, 3] ⟨100, 1, false⟩ ⟨100, 5, false⟩ :=
  ⟨by decide +kernel, by decide +kernel,
    run_extended recursiveSample #[1, 2, 3] rfl rfl (by decide) (by decide)⟩

end Definition

end Dissect
