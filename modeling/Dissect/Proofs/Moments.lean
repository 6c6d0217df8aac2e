import Dissect.Proofs.Flattening

/-! Runs turn by turn. A turn leaves a block that has ended, which is free, or performs one step,
which is counted; what a run comes to is told by the moment at which it has ended. Two turns for
every step of the limit and one more are always enough. -/
namespace Dissect

/-- A run on its way, between two turns. -/
structure Moment where
  state : State
  events : List Event
  ended : Option Outcome

def Moment.close (m : Moment) (outcome : Outcome) : Course where
  events := m.events ++ m.state.tabs.map (Event.tab ·.close)
  outcome := outcome
  steps := m.state.steps

def State.counted (s : State) : State := { s with steps := s.steps + 1 }

def State.returnTo (s : State) (r : Place) (rest : List Place) : State :=
  { s with place := r, returns := rest }

def State.control (s : State) : Control := ⟨s.place, s.loops, s.selections, s.returns, s.matchDepth⟩

theorem State.control_state (s : State) : s.control.state s.memory s.steps = s := rfl

structure Effect.Moves (e : Effect) (s : State) : Prop where
  memory : e.state.memory = s.memory
  steps : e.state.steps = s.steps
  returns : e.state.returns = s.returns
  code : e.state.place.code = s.place.code
  events : e.events = []
  halted : e.halted = none

theorem Effect.Moves.ite {p : Prop} [Decidable p] {e e' : Effect} {s : State} (h : e.Moves s)
    (h' : e'.Moves s) : (if p then e else e').Moves s := by
  split <;> assumption

namespace Definition
variable (d : Definition) (data : Buffer) (config : Config)

/-- One turn. The limit is asked for only when there is a step to perform. -/
def proceed (m : Moment) : Moment :=
  match d.step? m.state.place with
  | none =>
    match m.state.returns with
    | [] => { m with ended := some .completed }
    | r :: rest => { m with state := m.state.returnTo r rest }
  | some step =>
    if config.stepLimit ≤ m.state.steps then { m with ended := some (.stepLimit m.state.steps) }
    else
      let effect := d.perform data config.maxBlockDepth m.state.counted step
      ⟨effect.state, m.events ++ effect.events, effect.halted⟩

/-- The run after so many turns; once it has ended nothing changes. -/
def moment : Nat → Moment
  | 0 => ⟨State.initial d, [.title d.name], none⟩
  | n + 1 => if (moment n).ended.isSome then moment n else d.proceed data config (moment n)

inductive Turn (m : Moment) : Moment → Prop where
  | completed (hs : d.step? m.state.place = none) (hr : m.state.returns = []) :
    Turn m { m with ended := some .completed }
  | returned (r : Place) (rest : List Place) (hs : d.step? m.state.place = none)
    (hr : m.state.returns = r :: rest) :
    Turn m { m with state := m.state.returnTo r rest }
  | limited (step : Step Nat) (hs : d.step? m.state.place = some step)
    (hl : config.stepLimit ≤ m.state.steps) :
    Turn m { m with ended := some (.stepLimit m.state.steps) }
  | performed (step : Step Nat) (effect : Effect) (hs : d.step? m.state.place = some step)
    (hl : m.state.steps < config.stepLimit)
    (he : d.perform data config.maxBlockDepth m.state.counted step = effect) :
    Turn m ⟨effect.state, m.events ++ effect.events, effect.halted⟩

variable {d data config}

theorem turn_proceed (m : Moment) : d.Turn data config m (d.proceed data config m) := by
  rw [proceed]
  cases hs : d.step? m.state.place with
  | none =>
    cases hr : m.state.returns with
    | nil => exact .completed hs hr
    | cons r rest => exact .returned r rest hs hr
  | some step =>
    by_cases hl : config.stepLimit ≤ m.state.steps
    · simp only [if_pos hl]
      exact .limited step hs hl
    · simp only [if_neg hl]
      exact .performed step _ hs (Nat.lt_of_not_le hl) rfl

theorem moment_succ {n : Nat} (h : (d.moment data config n).ended = none) :
    d.moment data config (n + 1) = d.proceed data config (d.moment data config n) := by
  simp only [moment, h, Option.isSome_none, Bool.false_eq_true, if_false]

theorem moment_induct {P : Moment → Prop} (start : P (d.moment data config 0))
    (turn : ∀ m m', m.ended = none → d.Turn data config m m' → P m → P m') (n : Nat) :
    P (d.moment data config n) := by
  induction n with
  | zero => exact start
  | succ n ih =>
    cases h : (d.moment data config n).ended with
    | none =>
      rw [moment_succ h]
      exact turn _ _ h (turn_proceed _) ih
    | some outcome => simpa only [moment, h, Option.isSome_some, if_true] using ih

/-- What every step preserves of the memory and of what was shown holds all along: leaving a block
and ending a run change neither. -/
theorem moment_memory_induct {P : Memory → List Event → Prop}
    (start : P (State.initial d).memory [.title d.name])
    (perform : ∀ (s : State) (events : List Event) (step : Step Nat), P s.memory events →
      P (d.perform data config.maxBlockDepth s step).state.memory
        (events ++ (d.perform data config.maxBlockDepth s step).events)) (n : Nat) :
    P (d.moment data config n).state.memory (d.moment data config n).events := by
  refine moment_induct (P := fun m => P m.state.memory m.events) start ?_ n
  intro m m' _ ht hm
  cases ht with
  | completed hs hr => exact hm
  | returned r rest hs hr => exact hm
  | limited step hs hl => exact hm
  | performed step effect hs hl he =>
    subst he
    exact perform m.state.counted m.events step hm

theorem perform_action {maxDepth : Nat} {s : State} {action : Action Nat}
    (h : ∀ id, action ≠ .block id) :
    d.perform data maxDepth s (.act action) =
      (s.control.ahead 1).lift s.steps (d.leaf data s.memory action) :=
  @perform_leaf d data maxDepth s.control s.memory s.steps action h

theorem markSatisfied_eq (s : State) :
    s.markSatisfied = { s with selections := s.markSatisfied.selections } := by
  cases h : s.selections with
  | nil =>
    simp only [State.markSatisfied, h]
    rw [← h]
  | cons sel rest =>
    simp only [State.markSatisfied, h]
    by_cases hd : s.decides s.matchDepth sel = true
    · simp only [if_pos hd]
    · simp only [if_neg hd]

theorem perform_marker {maxDepth : Nat} {s : State} {step : Step Nat}
    (h : ∀ action, step ≠ .act action) : (d.perform data maxDepth s step).Moves s := by
  cases step with
  | act action => exact absurd rfl (h action)
  | matchStart guard =>
    simp only [perform, matchStart]
    rw [markSatisfied_eq]
    exact .ite (by constructor <;> rfl) (by constructor <;> rfl)
  | matchEnd =>
    simp only [perform, matchEnd]
    cases s.selections with
    | nil => constructor <;> rfl
    | cons sel rest => exact .ite (by constructor <;> rfl) (by constructor <;> rfl)
  | loopStart guard =>
    simp only [perform, loopStart]
    exact .ite (by constructor <;> rfl) (by constructor <;> rfl)
  | loopEnd =>
    simp only [perform, loopEnd]
    cases s.loops with
    | nil => constructor <;> rfl
    | cons l rest => exact .ite (by constructor <;> rfl) (by constructor <;> rfl)
  | selectionStart => constructor <;> rfl
  | selectionEnd => constructor <;> rfl

theorem perform_block (maxDepth : Nat) (s : State) (id : Nat) :
    d.perform data maxDepth s (.act (.block id)) =
      if maxDepth ≤ s.returns.length then
        { state := s, halted := some (.blockDepth (d.block id).id) }
      else
        { state := { s with returns := s.next.place :: s.returns, place := ⟨.block id, 0⟩ }
          note := some (.entered (d.block id).id) } := rfl

theorem step_sorts {P : Step Nat → Prop} (action : ∀ a, (∀ id, a ≠ .block id) → P (.act a))
    (block : ∀ id, P (.act (.block id))) (marker : ∀ step, (∀ a, step ≠ .act a) → P step)
    (step : Step Nat) : P step := by
  by_cases h : ∃ a, step = .act a
  · obtain ⟨a, rfl⟩ := h
    by_cases hb : ∃ id, a = .block id
    · obtain ⟨id, rfl⟩ := hb
      exact block id
    · exact action a fun id hid => hb ⟨id, hid⟩
  · exact marker step fun a ha => h ⟨a, ha⟩

theorem perform_steps (maxDepth : Nat) (s : State) (step : Step Nat) :
    (d.perform data maxDepth s step).state.steps = s.steps := by
  induction step using step_sorts with
  | action a h =>
    rw [perform_action h]
    rfl
  | block id =>
    rw [perform_block]
    split <;> rfl
  | marker step h => exact (perform_marker h).steps

/-- How a step can leave the store: as it was, or with one variable captured or computed. -/
inductive Stores (s : State) : Step Nat → Store → Prop where
  | kept (step : Step Nat) : Stores s step s.store
  | captured (step : FieldStep Nat) (id : Nat) (hid : step.var = some id) (f : FieldDef Nat)
    (order : ByteOrder) (bytes : List UInt8) :
    Stores s (.act (.field step)) (s.store.set id (f.capture order bytes))
  | computed (step : ExecStep Nat) :
    Stores s (.act (.exec step))
      (s.store.apply step.var step.op step.signed (some (s.operandValue step.operand)) step.width)

theorem readField_stores {s t : State} (ht : t.store = s.store) (f : FieldDef Nat)
    (step : FieldStep Nat) :
    Stores s (.act (.field step)) (d.readField data t f step).state.store := by
  have hwrite (tab : Option String) (lines : List Line) :
      (t.writeLines tab lines).1.store = s.store := by
    cases tab <;> exact ht
  rw [readField]
  cases f.size.resolve data t.cursor (step.limit.map t.operand) with
  | none => exact ht ▸ .kept _
  | some size =>
    cases size with
    | zero => exact hwrite _ _ ▸ .kept _
    | succ size =>
      dsimp only
      rw [ht]
      cases hid : step.var with
      | none => exact .kept _
      | some id => exact .captured step id hid f _ _

theorem fieldStep_stores (s : State) (step : FieldStep Nat) :
    Stores s (.act (.field step)) (d.fieldStep data s step).state.store := by
  rw [fieldStep]
  cases step.offset.map s.operand with
  | none => exact readField_stores rfl _ step
  | some target =>
    dsimp only
    split
    · have hthere : ({ s with cursor := target.toNat } : State).store = s.store := rfl
      exact readField_stores hthere _ step
    · exact .kept _

theorem perform_stores (maxDepth : Nat) (s : State) (step : Step Nat) :
    Stores s step (d.perform data maxDepth s step).state.store := by
  induction step using step_sorts with
  | action a hb =>
    cases a with
    | field step => exact fieldStep_stores s step
    | block id => exact absurd rfl (hb id)
    | print step =>
      rw [perform, printStep]
      cases printedValue s.store step with
      | none => exact .kept _
      | some value => cases step.tab <;> exact .kept _
    | exec step => exact .computed step
    | title text => exact .kept _
    | insert tab =>
      rw [perform, insertStep]
      cases OpenTab.take tab s.tabs <;> exact .kept _
  | block id =>
    rw [perform_block]
    split <;> exact .kept _
  | marker step hm =>
    have hstore : (d.perform data maxDepth s step).state.store = s.store :=
      congrArg Memory.store (perform_marker hm).memory
    exact hstore ▸ .kept step

variable (d data) in
theorem perform_returns (maxDepth : Nat) (s : State) (step : Step Nat) :
    (d.perform data maxDepth s step).state.returns = s.returns ∨
      ∃ r, (d.perform data maxDepth s step).state.returns = r :: s.returns ∧
        s.returns.length < maxDepth := by
  induction step using step_sorts with
  | action a h =>
    rw [perform_action h]
    exact .inl rfl
  | block id =>
    rw [perform_block]
    by_cases hd : maxDepth ≤ s.returns.length
    · rw [if_pos hd]
      exact .inl rfl
    · rw [if_neg hd]
      exact .inr ⟨_, rfl, Nat.lt_of_not_le hd⟩
  | marker step h => exact .inl (perform_marker h).returns

theorem readField_halted (s : State) (f : FieldDef Nat) (step : FieldStep Nat) (k : Nat) :
    (d.readField data s f step).halted ≠ some (.stepLimit k) := by
  rw [readField]
  cases f.size.resolve data s.cursor (step.limit.map s.operand) with
  | none => simp
  | some size =>
    cases size with
    | zero => simp
    | succ size =>
      dsimp only
      split <;> simp

theorem fieldStep_halted (s : State) (step : FieldStep Nat) (k : Nat) :
    (d.fieldStep data s step).halted ≠ some (.stepLimit k) := by
  rw [fieldStep]
  cases step.offset.map s.operand with
  | none => exact readField_halted s _ step k
  | some target =>
    by_cases h : 0 ≤ target ∧ target ≤ data.size
    · simp only [if_pos h]
      exact readField_halted _ _ step k
    · simp [if_neg h]

theorem perform_halted (maxDepth : Nat) (s : State) (step : Step Nat) (k : Nat) :
    (d.perform data maxDepth s step).halted ≠ some (.stepLimit k) := by
  induction step using step_sorts with
  | action a h =>
    rw [perform_action h]
    cases a with
    | field step => exact fieldStep_halted _ step k
    | block id => exact absurd rfl (h id)
    | print step =>
      simp only [Control.lift, leaf, printStep]
      split <;> simp
    | exec step => simp [Control.lift, leaf, execStep]
    | title text => simp [Control.lift, leaf]
    | insert tab =>
      simp only [Control.lift, leaf, insertStep]
      split <;> simp
  | block id =>
    rw [perform_block]
    split <;> simp
  | marker step h => simp [(perform_marker h).halted]

/-! ### Steps and pending blocks stay within their limits -/

theorem Turn.steps_le {m m' : Moment} (h : d.Turn data config m m')
    (hm : m.state.steps ≤ config.stepLimit) : m'.state.steps ≤ config.stepLimit := by
  cases h with
  | completed hs hr => exact hm
  | returned r rest hs hr => exact hm
  | limited step hs hl => exact hm
  | performed step effect hs hl he =>
    rw [← he, perform_steps]
    exact hl

theorem Turn.returns_le {m m' : Moment} (h : d.Turn data config m m')
    (hm : m.state.returns.length ≤ config.maxBlockDepth) :
    m'.state.returns.length ≤ config.maxBlockDepth := by
  cases h with
  | completed hs hr => exact hm
  | returned r rest hs hr =>
    rw [hr, List.length_cons] at hm
    exact Nat.le_of_succ_le hm
  | limited step hs hl => exact hm
  | performed step effect hs hl he =>
    rw [← he]
    obtain hr | ⟨r, hr, hlt⟩ := perform_returns d data config.maxBlockDepth
      m.state.counted step
    · rw [hr]
      exact hm
    · rw [hr]
      exact hlt

theorem moment_steps_le (n : Nat) :
    (d.moment data config n).state.steps ≤ config.stepLimit :=
  moment_induct (P := fun m => m.state.steps ≤ config.stepLimit) (Nat.zero_le _)
    (fun _ _ _ ht ih => ht.steps_le ih) n

theorem moment_returns_le (n : Nat) :
    (d.moment data config n).state.returns.length ≤ config.maxBlockDepth :=
  moment_induct (P := fun m => m.state.returns.length ≤ config.maxBlockDepth) (Nat.zero_le _)
    (fun _ _ _ ht ih => ht.returns_le ih) n

/-! ### Every run ends -/

/-- How many turns are left at most, not counting the last one: two for a step, which may call a
block that is to be left again, and one for a block that is pending. -/
def turnsLeft (config : Config) (m : Moment) : Nat :=
  2 * (config.stepLimit - m.state.steps) + m.state.returns.length

theorem Turn.turnsLeft_lt {m m' : Moment} (h : d.Turn data config m m') (he : m'.ended = none) :
    turnsLeft config m' < turnsLeft config m := by
  cases h with
  | completed hs hr => cases he
  | returned r rest hs hr =>
    simp only [turnsLeft, hr, List.length_cons, State.returnTo]
    omega
  | limited step hs hl => cases he
  | performed step effect hs hl hp =>
    have hsteps : effect.state.steps = m.state.steps + 1 := by
      rw [← hp, perform_steps]
      rfl
    have hreturns : effect.state.returns.length ≤ m.state.returns.length + 1 := by
      obtain hr | ⟨r, hr, -⟩ := perform_returns d data config.maxBlockDepth
        m.state.counted step
      · rw [← hp, hr]
        exact Nat.le_succ _
      · rw [← hp, hr]
        exact Nat.le_refl _
    simp only [turnsLeft, hsteps]
    omega

theorem turnsLeft_moment {n : Nat} (h : (d.moment data config n).ended = none) :
    n + turnsLeft config (d.moment data config n) ≤ 2 * config.stepLimit := by
  induction n with
  | zero => simp [moment, turnsLeft, State.initial]
  | succ n ih =>
    cases hn : (d.moment data config n).ended with
    | some outcome => simp [moment, hn] at h
    | none =>
      rw [moment_succ hn] at h ⊢
      have hlt := (turn_proceed _).turnsLeft_lt h
      have hle := ih hn
      omega

variable (d data config) in
theorem exists_ended : ∃ outcome,
    (d.moment data config (2 * config.stepLimit + 1)).ended = some outcome := by
  cases h : (d.moment data config (2 * config.stepLimit + 1)).ended with
  | some outcome => exact ⟨outcome, rfl⟩
  | none =>
    have hle := turnsLeft_moment h
    omega

theorem exists_last {n : Nat} {outcome : Outcome}
    (h : (d.moment data config n).ended = some outcome) :
    ∃ k, (d.moment data config k).ended = none ∧
      (d.proceed data config (d.moment data config k)).ended = some outcome := by
  induction n with
  | zero => simp [moment] at h
  | succ n ih =>
    cases hn : (d.moment data config n).ended with
    | some other =>
      simp only [moment, hn, Option.isSome_some, if_true] at h
      exact ih (hn.trans h)
    | none =>
      rw [moment_succ hn] at h
      exact ⟨n, hn, h⟩

/-! ### What the turns come to -/

theorem runFrom_notes (maxDepth : Nat) (events : List Event) (notes notes' : List Note)
    (left : Nat) (s : State) :
    (d.runFrom data maxDepth events notes left s).course =
      (d.runFrom data maxDepth events notes' left s).course := by
  induction left generalizing events notes notes' s with
  | zero =>
    rw [runFrom, runFrom]
    cases d.step? (d.settle s).place <;> simp only [course_finish]
  | succ left ih =>
    rw [runFrom, runFrom]
    cases d.step? (d.settle s).place with
    | none => simp only [course_finish]
    | some step =>
      dsimp only
      split
      · simp only [course_finish]
      · exact ih ..

theorem settle_return {s : State} {r : Place} {rest : List Place} (h : d.step? s.place = none)
    (hr : s.returns = r :: rest) :
    d.settle s = d.settle (s.returnTo r rest) := by
  simp only [settle, hr, unwind, h, Option.isSome_none, Bool.false_eq_true, if_false,
    State.returnTo]

theorem course_return {s : State} {r : Place} {rest : List Place} (h : d.step? s.place = none)
    (hr : s.returns = r :: rest) (maxDepth : Nat) (events : List Event) (left : Nat) :
    (d.runFrom data maxDepth events [] left s).course =
      (d.runFrom data maxDepth events [] left (s.returnTo r rest)).course := by
  have hu : d.unwound s.place s.returns = r :: d.unwound r rest := by
    simp only [hr, unwound, h, Option.isSome_none, Bool.false_eq_true, if_false]
  rw [← runFrom_notes maxDepth events [.returned r.pc] [] left (s.returnTo r rest), runFrom,
    runFrom, settle_return h hr, hu]
  rfl

variable (d data config) in
def courseAfter (m : Moment) : Course :=
  match m.ended with
  | some outcome => m.close outcome
  | none =>
    (d.runFrom data config.maxBlockDepth m.events.reverse [] (config.stepLimit - m.state.steps)
      m.state).course

theorem courseAfter_of_ended {m : Moment} {outcome : Outcome} (h : m.ended = some outcome) :
    d.courseAfter data config m = m.close outcome := by
  rw [courseAfter, h]

theorem courseAfter_of_running {m : Moment} (h : m.ended = none) :
    d.courseAfter data config m =
      (d.runFrom data config.maxBlockDepth m.events.reverse [] (config.stepLimit - m.state.steps)
        m.state).course := by
  rw [courseAfter, h]

theorem finish_close (m : Moment) (outcome : Outcome) (notes : List Note) :
    (finish m.state outcome m.events.reverse notes).course = m.close outcome := by
  rw [course_finish, List.reverse_reverse]
  rfl

theorem Turn.courseAfter_eq {m m' : Moment} (h : d.Turn data config m m') (hm : m.ended = none) :
    d.courseAfter data config m' = d.courseAfter data config m := by
  rw [courseAfter_of_running hm]
  cases h with
  | completed hs hr =>
    rw [courseAfter_of_ended rfl, runFrom_completed hs hr, finish_close]
    rfl
  | returned r rest hs hr =>
    rw [course_return hs hr]
    exact courseAfter_of_running hm
  | limited step hs hl =>
    have hz : config.stepLimit - m.state.steps = 0 := Nat.sub_eq_zero_of_le hl
    have hfront : d.step? m.state.control.place = some step := hs
    have hspent := @runFrom_spent d data config.maxBlockDepth _ m.state.memory m.state.steps _
      hfront m.events.reverse []
    rw [State.control_state] at hspent
    rw [hz, courseAfter_of_ended rfl, hspent, finish_close]
    rfl
  | performed step effect hs hl he =>
    have hleft : config.stepLimit - m.state.steps = config.stepLimit - (m.state.steps + 1) + 1 := by
      omega
    have hfront : d.step? m.state.control.place = some step := hs
    have hsteps : effect.state.steps = m.state.steps + 1 := by
      rw [← he, perform_steps]
      rfl
    have hstep := @runFrom_step d data _ _ m.state.memory m.state.steps _ _ hfront he
      (config.stepLimit - (m.state.steps + 1)) m.events.reverse []
    rw [State.control_state] at hstep
    rw [hleft, hstep, ← List.reverse_append]
    cases hh : effect.halted with
    | some outcome =>
      rw [courseAfter_of_ended rfl]
      exact (finish_close ⟨effect.state, m.events ++ effect.events, some outcome⟩ outcome _).symm
    | none =>
      rw [courseAfter_of_running rfl, hsteps]
      exact runFrom_notes ..

variable (d data config) in
/-- Whatever moment a run has come to, going on from there is the run. -/
theorem courseAfter_moment (n : Nat) :
    d.courseAfter data config (d.moment data config n) = (d.run data config).course := by
  refine moment_induct
    (P := fun m => d.courseAfter data config m = (d.run data config).course) rfl ?_ n
  intro m m' hm ht ih
  rw [ht.courseAfter_eq hm, ih]

theorem run_of_ended {n : Nat} {outcome : Outcome}
    (h : (d.moment data config n).ended = some outcome) :
    (d.run data config).course = (d.moment data config n).close outcome := by
  rw [← courseAfter_moment d data config n, courseAfter_of_ended h]

/-- If the limit is reached and the run has not ended, it depends on whether a step is left once the
blocks that have ended are left. -/
theorem run_of_spent {n : Nat} (h : (d.moment data config n).ended = none)
    (hs : (d.moment data config n).state.steps = config.stepLimit) :
    (d.run data config).steps = config.stepLimit ∧
      (d.run data config).outcome =
        if (d.step? (d.settle (d.moment data config n).state).place).isSome then
          .stepLimit config.stepLimit
        else .completed := by
  have hrun := courseAfter_moment d data config n
  have hsettled : (d.settle (d.moment data config n).state).steps = config.stepLimit := hs
  rw [courseAfter_of_running h, hs, Nat.sub_self, runFrom] at hrun
  have hsteps : (d.run data config).steps = (d.run data config).course.steps := rfl
  have houtcome : (d.run data config).outcome = (d.run data config).course.outcome := rfl
  rw [hsteps, houtcome, ← hrun]
  cases d.step? (d.settle (d.moment data config n).state).place with
  | none => simp [course_finish, hsettled]
  | some step => simp [course_finish, hsettled]

theorem Turn.of_stepLimit {m m' : Moment} {k : Nat} (h : d.Turn data config m m')
    (hm : m.ended = none) (he : m'.ended = some (.stepLimit k)) :
    config.stepLimit ≤ m.state.steps ∧ ∃ step, d.step? m.state.place = some step := by
  cases h with
  | completed hs hr => cases he
  | returned r rest hs hr =>
    rw [hm] at he
    cases he
  | limited step hs hl => exact ⟨hl, step, hs⟩
  | performed step effect hs hl hp =>
    subst hp
    exact (perform_halted _ _ _ k he).elim

theorem exists_spent {k : Nat} (h : (d.run data config).outcome = .stepLimit k) :
    ∃ n, (d.moment data config n).ended = none ∧
      (d.moment data config n).state.steps = config.stepLimit ∧
      (d.step? (d.settle (d.moment data config n).state).place).isSome := by
  obtain ⟨outcome, hend⟩ := exists_ended d data config
  have houtcome : (d.run data config).outcome = outcome :=
    congrArg Course.outcome (run_of_ended hend)
  obtain ⟨n, hn, hlast⟩ := exists_last hend
  rw [← houtcome, h] at hlast
  obtain ⟨hl, step, hs⟩ := (turn_proceed _).of_stepLimit hn hlast
  refine ⟨n, hn, Nat.le_antisymm (moment_steps_le n) hl, ?_⟩
  rw [settle_of_step hs, hs]
  rfl

structure Limited (d : Definition) (data : Buffer) (config : Config) : Prop where
  ends : ∃ n ≤ 2 * config.stepLimit + 1, ∃ outcome,
    (d.moment data config n).ended = some outcome ∧
      (d.run data config).course = (d.moment data config n).close outcome
  within : ∀ n, (d.moment data config n).state.steps ≤ config.stepLimit ∧
    (d.moment data config n).state.returns.length ≤ config.maxBlockDepth
  limited_iff : (∃ k, (d.run data config).outcome = .stepLimit k) ↔
    ∃ n, (d.moment data config n).ended = none ∧
      (d.moment data config n).state.steps = config.stepLimit ∧
      (d.step? (d.settle (d.moment data config n).state).place).isSome
  limited_steps : ∀ k, (d.run data config).outcome = .stepLimit k →
    k = config.stepLimit ∧ (d.run data config).steps = config.stepLimit
  completed : ∀ n, (d.moment data config n).ended = none →
    (d.moment data config n).state.steps = config.stepLimit →
    d.step? (d.settle (d.moment data config n).state).place = none →
    (d.run data config).outcome = .completed ∧ (d.run data config).steps = config.stepLimit

/-- Every run ends, whatever its program, its buffer and its limits. It ends for the step limit
exactly when the limit is reached and a step is left behind the blocks that have ended. -/
theorem run_limited (d : Definition) (data : Buffer) (config : Config) :
    d.Limited data config := by
  constructor
  case ends =>
    obtain ⟨outcome, hend⟩ := exists_ended d data config
    exact ⟨_, Nat.le_refl _, outcome, hend, run_of_ended hend⟩
  case within => exact fun n => ⟨moment_steps_le n, moment_returns_le n⟩
  case limited_iff =>
    constructor
    · rintro ⟨k, hk⟩
      exact exists_spent hk
    · rintro ⟨n, hn, hs, hstep⟩
      have hrun := (run_of_spent hn hs).2
      rw [if_pos hstep] at hrun
      exact ⟨_, hrun⟩
  case limited_steps =>
    intro k hk
    obtain ⟨n, hn, hs, hstep⟩ := exists_spent hk
    obtain ⟨hsteps, hrun⟩ := run_of_spent hn hs
    rw [if_pos hstep, hk] at hrun
    exact ⟨Outcome.stepLimit.inj hrun, hsteps⟩
  case completed =>
    intro n hn hs hstep
    obtain ⟨hsteps, hrun⟩ := run_of_spent hn hs
    rw [hstep] at hrun
    exact ⟨hrun, hsteps⟩

end Definition

end Dissect
