import Dissect.Proofs.Nested
import Dissect.Proofs.Spans

/-! Where a machine stands in a flat program. The control of a state is split from its memory; for
every marker it is said what the machine does with both when the flat form of a construct is in
front of it and the stacks fit. -/
namespace Dissect

namespace Control

def ahead (c : Control) (n : Nat) : Control :=
  { c with place := { c.place with pc := c.place.pc + n } }

theorem ahead_ahead (c : Control) (a b : Nat) : (c.ahead a).ahead b = c.ahead (a + b) := by
  simp only [ahead, Nat.add_assoc]

def frame (c : Control) (satisfied : Bool) : SelectionFrame :=
  ⟨c.matchDepth, c.loops.length, c.returns.length, satisfied⟩

/-- No guarded body that begins here is a selection's own: less was nested when the innermost
selection was opened. -/
def Inside (c : Control) (sel : SelectionFrame) : Prop :=
  sel.matchDepth ≤ c.matchDepth ∧ sel.loopDepth ≤ c.loops.length ∧
    sel.callDepth ≤ c.returns.length ∧
    (sel.matchDepth < c.matchDepth ∨ sel.loopDepth < c.loops.length ∨
      sel.callDepth < c.returns.length)

/-- The stacks are those of a program that begins here: loops under way begin earlier or in a
caller, and the innermost selection is the one whose children these are if `direct`, and otherwise
one further out. -/
structure Fits (c : Control) (direct : Bool) : Prop where
  loops : ∀ l ∈ c.loops.head?, l.callDepth ≤ c.returns.length ∧
    (l.callDepth = c.returns.length → l.start.pc < c.place.pc)
  selections : match direct with
    | true => c.selections.head? = some (c.frame false)
    | false => ∀ sel ∈ c.selections.head?, c.Inside sel

theorem Fits.ahead {c : Control} {direct : Bool} (h : c.Fits direct) (n : Nat) :
    (c.ahead n).Fits direct := by
  constructor
  case loops =>
    intro l hl
    obtain ⟨hdepth, hpc⟩ := h.loops l hl
    refine ⟨hdepth, fun he => ?_⟩
    have hlt := hpc he
    show l.start.pc < c.place.pc + n
    omega
  case selections => exact h.selections

/-- Where the choice of a selection leads to, `n` steps before the end marker of the selection. -/
def leave (c : Control) (direct : Bool) (n : Nat) : Option Control :=
  if direct then some { c.ahead (n + 1) with selections := c.selections.tail } else none

theorem leave_ahead (c : Control) (direct : Bool) (a b : Nat) :
    (c.ahead a).leave direct b = c.leave direct (a + b) := by
  simp only [leave, ahead_ahead, Nat.add_assoc]
  rfl

def inGuarded (c : Control) (direct : Bool) : Control :=
  { c.ahead 1 with
    matchDepth := c.matchDepth + 1
    selections := if direct then c.frame true :: c.selections.tail else c.selections }

def inLoop (c : Control) (turns : Nat) : Control :=
  { c.ahead 1 with loops := ⟨c.place, c.returns.length, turns + 1⟩ :: c.loops }

def again (c : Control) (turns : Nat) : Control where
  place := c.place
  loops := match turns with
    | 0 => c.loops
    | turns + 1 => ⟨c.place, c.returns.length, turns + 1⟩ :: c.loops
  selections := c.selections
  returns := c.returns
  matchDepth := c.matchDepth

def inSelection (c : Control) : Control :=
  { c.ahead 1 with selections := c.frame false :: c.selections }

def called (c : Control) (id : Nat) : Control :=
  { c with place := ⟨.block id, 0⟩, returns := (c.ahead 1).place :: c.returns }

theorem Fits.head {c : Control} (h : c.Fits true) :
    c.selections = c.frame false :: c.selections.tail := by
  have hs : c.selections.head? = some (c.frame false) := h.selections
  cases hc : c.selections with
  | nil => simp [hc] at hs
  | cons sel rest =>
    rw [hc] at hs
    simpa using hs

theorem Fits.inGuarded {c : Control} {direct : Bool} (h : c.Fits direct) :
    (c.inGuarded direct).Fits false := by
  constructor
  case loops => exact (h.ahead 1).loops
  case selections =>
    intro sel hsel
    cases direct with
    | true =>
      have he : c.frame true = sel := by simpa [Control.inGuarded] using hsel
      subst he
      simp [Inside, Control.inGuarded, frame, Control.ahead]
    | false =>
      have hin := h.selections sel (by simpa [Control.inGuarded] using hsel)
      simp only [Inside, Control.inGuarded, Control.ahead] at hin ⊢
      omega

theorem Fits.inside {c c' : Control} {direct : Bool} (h : c.Fits direct)
    (hs : c'.selections = c.selections) (hm : c'.matchDepth = c.matchDepth)
    (hl : c.loops.length ≤ c'.loops.length) (hr : c.returns.length ≤ c'.returns.length)
    (hlt : c.loops.length < c'.loops.length ∨ c.returns.length < c'.returns.length) :
    ∀ sel ∈ c'.selections.head?, c'.Inside sel := by
  intro sel hsel
  rw [hs] at hsel
  cases direct with
  | true =>
    have he : c.frame false = sel := by
      have h0 : c.selections.head? = some (c.frame false) := h.selections
      rw [h0] at hsel
      simpa using hsel
    subst he
    simp only [Inside, frame]
    omega
  | false =>
    have hin := h.selections sel hsel
    simp only [Inside] at hin ⊢
    omega

theorem Fits.inLoop {c : Control} {direct : Bool} (h : c.Fits direct) (turns : Nat) :
    (c.inLoop turns).Fits false := by
  constructor
  case loops =>
    intro l hl
    have he : (⟨c.place, c.returns.length, turns + 1⟩ : LoopFrame) = l := by
      simpa [Control.inLoop] using hl
    subst he
    simp [Control.inLoop, Control.ahead]
  case selections =>
    exact h.inside rfl rfl (by simp [Control.inLoop]) (Nat.le_refl _)
      (.inl (by simp [Control.inLoop]))

theorem Fits.inSelection {c : Control} {direct : Bool} (h : c.Fits direct) :
    c.inSelection.Fits true := by
  constructor
  case loops => exact (h.ahead 1).loops
  case selections => rfl

theorem Fits.called {c : Control} {direct : Bool} (h : c.Fits direct) (id : Nat) :
    (c.called id).Fits false := by
  constructor
  case loops =>
    intro l hl
    obtain ⟨hdepth, _⟩ := h.loops l hl
    simp only [Control.called, List.length_cons]
    omega
  case selections =>
    exact h.inside rfl rfl (Nat.le_refl _) (by simp [Control.called])
      (.inr (by simp [Control.called]))

end Control

namespace Definition
variable (d : Definition) (data : Buffer) (maxDepth : Nat)

def front (c : Control) : List (Step Nat) := (d.code c.place.code).drop c.place.pc

variable {d}

theorem step?_of_front {c : Control} {x : Step Nat} {xs : List (Step Nat)}
    (h : d.front c = x :: xs) : d.step? c.place = some x := by
  have h0 : (d.front c)[0]? = some x := by rw [h, List.getElem?_cons_zero]
  rwa [front, List.getElem?_drop, Nat.add_zero] at h0

theorem step?_of_front_nil {c : Control} (h : d.front c = []) : d.step? c.place = none := by
  have h0 : (d.front c)[0]? = none := by rw [h, List.getElem?_nil]
  rwa [front, List.getElem?_drop, Nat.add_zero] at h0

theorem front_ahead {c : Control} {a b : List (Step Nat)} (h : d.front c = a ++ b) :
    d.front (c.ahead a.length) = b := by
  have hd : (d.front c).drop a.length = b := by rw [h, List.drop_left]
  rwa [front, List.drop_drop] at hd

theorem front_ahead_one {c : Control} {x : Step Nat} {b : List (Step Nat)}
    (h : d.front c = x :: b) : d.front (c.ahead 1) = b :=
  front_ahead (a := [x]) h

variable (d)

/-- The machine, going on from a state with `left` steps left, does what a stretch says: it comes
to `onward` with the memory of the stretch, or to `leave` if the stretch ends in a choice, or the
run ends there. -/
def Follows (left : Nat) (s : State) (r : Stretch) (onward : Control) (leave : Option Control) :
    Prop :=
  ∀ events notes, ∃ notes',
    let run := d.runFrom data maxDepth events notes left s
    let events := r.events.reverse ++ events
    let steps := s.steps + r.steps
    match r.ending with
    | .through =>
      run = d.runFrom data maxDepth events notes' (left - r.steps) (onward.state r.memory steps)
    | .decided => ∃ c ∈ leave,
      run = d.runFrom data maxDepth events notes' (left - r.steps) (c.state r.memory steps)
    | .spent => run = finish (Control.start.state r.memory steps) (.stepLimit steps) events notes'
    | .halted outcome => run = finish (Control.start.state r.memory steps) outcome events notes'

variable {d data maxDepth}

theorem settle_of_step {s : State} {step : Step Nat} (h : d.step? s.place = some step) :
    d.settle s = s := by
  have hu : d.unwind s.place s.returns = (s.place, s.returns) := by
    cases hr : s.returns with
    | nil => rfl
    | cons r rest => simp only [unwind, h, Option.isSome_some, if_true]
  simp only [settle, hu]

theorem unwound_of_step {s : State} {step : Step Nat} (h : d.step? s.place = some step) :
    d.unwound s.place s.returns = [] := by
  cases hr : s.returns with
  | nil => rfl
  | cons r rest => simp only [unwound, h, Option.isSome_some, if_true]

theorem runFrom_step {c : Control} {m : Memory} {steps : Nat} {step : Step Nat} {effect : Effect}
    (hs : d.step? c.place = some step)
    (hp : d.perform data maxDepth (c.state m (steps + 1)) step = effect) (left : Nat)
    (events : List Event) (notes : List Note) :
    d.runFrom data maxDepth events notes (left + 1) (c.state m steps) =
      match effect.halted with
      | some outcome =>
        finish effect.state outcome (effect.events.reverse ++ events) (effect.note.toList ++ notes)
      | none =>
        d.runFrom data maxDepth (effect.events.reverse ++ events) (effect.note.toList ++ notes) left
          effect.state := by
  have h : d.step? (c.state m steps).place = some step := hs
  subst hp
  rw [runFrom]
  simp only [settle_of_step h, unwound_of_step h, h, List.reverseAux_eq, List.foldl_nil]
  rfl

theorem runFrom_spent {c : Control} {m : Memory} {steps : Nat} {step : Step Nat}
    (hs : d.step? c.place = some step) (events : List Event) (notes : List Note) :
    d.runFrom data maxDepth events notes 0 (c.state m steps) =
      finish (c.state m steps) (.stepLimit steps) events notes := by
  have h : d.step? (c.state m steps).place = some step := hs
  rw [runFrom]
  simp only [settle_of_step h, unwound_of_step h, h, List.foldl_nil]
  rfl

theorem runFrom_return {c : Control} {m : Memory} {id n steps : Nat}
    (hend : d.step? ((c.called id).ahead n).place = none) (left : Nat) (events : List Event)
    (notes : List Note) :
    d.runFrom data maxDepth events notes left (((c.called id).ahead n).state m steps) =
      d.runFrom data maxDepth events (.returned (c.place.pc + 1) :: notes) left
        ((c.ahead 1).state m steps) := by
  have hu (rest : List Place) : d.unwind ((c.called id).ahead n).place ((c.ahead 1).place :: rest) =
      d.unwind (c.ahead 1).place rest := by
    simp only [unwind, hend, Option.isSome_none, Bool.false_eq_true, if_false]
  have hw (rest : List Place) :
      d.unwound ((c.called id).ahead n).place ((c.ahead 1).place :: rest) =
        (c.ahead 1).place :: d.unwound (c.ahead 1).place rest := by
    simp only [unwound, hend, Option.isSome_none, Bool.false_eq_true, if_false]
  have hr : ((c.called id).ahead n).returns = (c.ahead 1).place :: c.returns := rfl
  rw [runFrom, runFrom]
  simp only [settle, Control.state, hr, hu, hw, List.foldl_cons]
  rfl

theorem runFrom_completed {s : State} (h : d.step? s.place = none) (hr : s.returns = [])
    (left : Nat) (events : List Event) (notes : List Note) :
    d.runFrom data maxDepth events notes left s = finish s .completed events notes := by
  rw [runFrom]
  simp only [settle, hr, unwind, unwound, h, List.foldl_nil, finish]

/-- A step without a body does the same to the memory wherever it stands, and goes on. -/
theorem perform_leaf {c : Control} {m : Memory} {steps : Nat} {action : Action Nat}
    (h : ∀ id, action ≠ .block id) :
    d.perform data maxDepth (c.state m steps) (.act action) =
      (c.ahead 1).lift steps (d.leaf data m action) := by
  cases action with
  | field step =>
    simp only [perform, fieldStep_state]
    rfl
  | block id => exact absurd rfl (h id)
  | print step =>
    simp only [perform, printStep_state]
    rfl
  | exec step => rfl
  | title text => rfl
  | insert tab =>
    simp only [perform, insertStep_state]
    rfl

theorem Follows.andThen {left : Nat} {s : State} {r : Stretch} {next : Memory → Stretch}
    {mid onward : Control} {leave : Option Control} (h : d.Follows data maxDepth left s r mid leave)
    (hn : d.Follows data maxDepth (left - r.steps) (mid.state r.memory (s.steps + r.steps))
      (next r.memory) onward leave) :
    d.Follows data maxDepth left s (r.andThen next) onward leave := by
  intro events notes
  obtain ⟨notes₁, h₁⟩ := h events notes
  cases hr : r.ending with
  | through =>
    obtain ⟨notes₂, h₂⟩ := hn (r.events.reverse ++ events) notes₁
    refine ⟨notes₂, ?_⟩
    simp only [hr] at h₁
    simp only [Stretch.andThen, hr, h₁, List.reverse_append, List.append_assoc, ← Nat.add_assoc,
      ← Nat.sub_sub]
    exact h₂
  | decided =>
    refine ⟨notes₁, ?_⟩
    simpa only [Stretch.andThen, hr] using h₁
  | spent =>
    refine ⟨notes₁, ?_⟩
    simpa only [Stretch.andThen, hr] using h₁
  | halted outcome =>
    refine ⟨notes₁, ?_⟩
    simpa only [Stretch.andThen, hr] using h₁

theorem Follows.counted {left steps : Nat} {c c' onward : Control} {m : Memory} {r : Stretch}
    {step : Step Nat} {leave : Option Control} {note : Option Note}
    (hs : d.step? c.place = some step)
    (hp : d.perform data maxDepth (c.state m (steps + 1)) step =
      { state := c'.state m (steps + 1), note := note })
    (h : d.Follows data maxDepth left (c'.state m (steps + 1)) r onward leave) :
    d.Follows data maxDepth (left + 1) (c.state m steps) r.counted onward leave := by
  intro events notes
  obtain ⟨notes', h'⟩ := h events (note.toList ++ notes)
  refine ⟨notes', ?_⟩
  have hsteps : steps + (r.steps + 1) = steps + 1 + r.steps := by omega
  have hleft : left + 1 - (r.steps + 1) = left - r.steps := by omega
  rw [runFrom_step hs hp]
  simp only [Stretch.counted, Control.state, hsteps, hleft]
  exact h'

theorem Follows.marker {left steps : Nat} {c onward : Control} {m : Memory} {step : Step Nat}
    {leave : Option Control} {note : Option Note} (hs : d.step? c.place = some step)
    (hp : d.perform data maxDepth (c.state m (steps + 1)) step =
      { state := onward.state m (steps + 1), note := note }) :
    d.Follows data maxDepth left (c.state m steps) (Stretch.marker left m) onward leave := by
  intro events notes
  cases left with
  | zero => exact ⟨notes, runFrom_spent hs events notes⟩
  | succ left => exact ⟨note.toList ++ notes, runFrom_step hs hp left events notes⟩

theorem Follows.undecided {left : Nat} {s : State} {r : Stretch} {onward : Control}
    {leave : Option Control} (h : d.Follows data maxDepth left s r onward leave)
    (hr : r.ending ≠ .decided) (leave' : Option Control) :
    d.Follows data maxDepth left s r onward leave' := by
  intro events notes
  obtain ⟨notes', h'⟩ := h events notes
  refine ⟨notes', ?_⟩
  cases he : r.ending with
  | decided => exact absurd he hr
  | through => simpa only [he] using h'
  | spent => simpa only [he] using h'
  | halted outcome => simpa only [he] using h'

theorem Follows.weaken {left : Nat} {s : State} {r : Stretch} {onward : Control}
    (h : d.Follows data maxDepth left s r onward none) (leave : Option Control) :
    d.Follows data maxDepth left s r onward leave := by
  refine h.undecided (fun hr => ?_) leave
  obtain ⟨_, h'⟩ := h [] []
  simp [hr] at h'

theorem Follows.closed {left : Nat} {s : State} {r : Stretch} {mid onward : Control}
    (h : d.Follows data maxDepth left s r mid none)
    (hm : ∀ m steps left, d.Follows data maxDepth left (mid.state m steps)
      (Stretch.marker left m) onward none) :
    d.Follows data maxDepth left s (r.closed left) onward none :=
  h.andThen (hm _ _ _)

theorem Follows.chosen {left : Nat} {s : State} {r : Stretch} {mid : Control}
    (h : d.Follows data maxDepth left s r mid none) (onward : Control) :
    d.Follows data maxDepth left s r.chosen onward (some mid) := by
  intro events notes
  obtain ⟨notes', h'⟩ := h events notes
  refine ⟨notes', ?_⟩
  cases hr : r.ending with
  | decided => simp [hr] at h'
  | through =>
    simp only [hr] at h'
    simp only [Stretch.chosen, hr]
    exact ⟨mid, rfl, h'⟩
  | spent => simpa only [Stretch.chosen, hr] using h'
  | halted outcome => simpa only [Stretch.chosen, hr] using h'

/-- The children of a selection with its end marker: without a choice the marker is passed, and
with one the machine is behind it already. -/
theorem Follows.selected {left : Nat} {s : State} {r : Stretch} {mid onward : Control}
    (h : d.Follows data maxDepth left s r mid (some onward))
    (hm : ∀ m steps left, d.Follows data maxDepth left (mid.state m steps)
      (Stretch.marker left m) onward none) :
    d.Follows data maxDepth left s (r.selected left) onward none := by
  by_cases hr : r.ending = .decided
  · intro events notes
    obtain ⟨notes', h'⟩ := h events notes
    refine ⟨notes', ?_⟩
    simp only [hr, Option.mem_some_iff, exists_eq_left'] at h'
    simpa only [Stretch.selected, hr] using h'
  · have he : r.selected left = r.closed left := by
      cases hc : r.ending with
      | decided => exact absurd hc hr
      | through => simp only [Stretch.selected, hc]
      | spent => simp only [Stretch.selected, hc]
      | halted outcome => simp only [Stretch.selected, hc]
    rw [he]
    exact (h.undecided hr none).closed hm

theorem Follows.returned {left : Nat} {s : State} {r : Stretch} {c : Control} {id n : Nat}
    (h : d.Follows data maxDepth left s r ((c.called id).ahead n) none)
    (hend : d.front ((c.called id).ahead n) = []) :
    d.Follows data maxDepth left s r (c.ahead 1) none := by
  intro events notes
  obtain ⟨notes', h'⟩ := h events notes
  cases hr : r.ending with
  | decided => simp [hr] at h'
  | through =>
    refine ⟨.returned (c.place.pc + 1) :: notes', ?_⟩
    simp only [hr] at h' ⊢
    rw [h', runFrom_return (step?_of_front_nil hend)]
  | spent =>
    refine ⟨notes', ?_⟩
    simpa only [hr] using h'
  | halted outcome =>
    refine ⟨notes', ?_⟩
    simpa only [hr] using h'

/-! What the markers do, where the flat form of their construct is in front. -/

theorem decides_of_inside {c : Control} {sel : SelectionFrame} (h : c.Inside sel) (m : Memory)
    (steps : Nat) : (c.state m steps).decides c.matchDepth sel = false := by
  have hne : ¬((sel.matchDepth = c.matchDepth ∧ sel.loopDepth = c.loops.length) ∧
      sel.callDepth = c.returns.length) := by
    simp only [Control.Inside] at h
    omega
  rw [Bool.eq_false_iff]
  simpa only [State.decides, Control.state, ne_eq, Bool.and_eq_true, beq_iff_eq] using hne

theorem decides_frame (c : Control) (m : Memory) (steps : Nat) (satisfied : Bool) :
    (c.state m steps).decides c.matchDepth (c.frame satisfied) = true := by
  simp [State.decides, Control.state, Control.frame]

theorem markSatisfied_state {c : Control} {direct : Bool} (hc : c.Fits direct) (m : Memory)
    (steps : Nat) :
    (c.state m steps).markSatisfied =
      { c.state m steps with
        selections := if direct then c.frame true :: c.selections.tail else c.selections } := by
  have hm : (c.state m steps).matchDepth = c.matchDepth := rfl
  cases direct with
  | true =>
    have hs : (c.state m steps).selections = c.frame false :: c.selections.tail := hc.head
    simp only [State.markSatisfied, hs, hm, decides_frame, if_true]
    rfl
  | false =>
    show _ = c.state m steps
    rw [State.markSatisfied]
    split
    · rfl
    · next sel rest hs =>
      have hs' : c.selections = sel :: rest := hs
      have hin : c.Inside sel := hc.selections sel (by rw [hs']; rfl)
      simp only [hm, decides_of_inside hin, Bool.false_eq_true, if_false]

theorem perform_enter {c : Control} {direct : Bool} (hc : c.Fits direct) {m : Memory}
    {g : Guard Nat}
    (h : d.holds data m.bare g = true) (steps : Nat) :
    d.perform data maxDepth (c.state m steps) (.matchStart g) =
      { state := (c.inGuarded direct).state m steps } := by
  have hh : d.holds data (c.state m steps) g = true := h
  simp only [perform, matchStart, hh, if_true, markSatisfied_state hc]
  rfl

theorem perform_skip {c : Control} {m : Memory} {g : Guard Nat} {body : Program Nat}
    {post : List (Step Nat)} (hf : d.front c = .matchStart g :: (body.flatten ++ .matchEnd :: post))
    (h : d.holds data m.bare g = false) (steps : Nat) :
    ∃ note, d.perform data maxDepth (c.state m steps) (.matchStart g) =
      { state := (c.ahead (body.flatten.length + 2)).state m steps, note := note } := by
  have hh : d.holds data (c.state m steps) g = false := h
  have hspan : skipSpan (d.code c.place.code) (c.place.pc + 1) .guarded =
      c.place.pc + (body.flatten.length + 2) := by
    have h0 : skipSpan (d.code c.place.code) (c.place.pc + 1) .guarded =
        c.place.pc + 1 + (body.flatten.length + 1) := skipSpan_flatten rfl rfl (front_ahead_one hf)
    rw [h0]
    omega
  rw [perform, matchStart, hh]
  refine ⟨some (.matchFailed c.place.pc (c.place.pc + (body.flatten.length + 2))), ?_⟩
  simp only [Control.state, hspan]
  rfl

theorem matchEnd_of_decides {s : State} {sel : SelectionFrame} {rest : List SelectionFrame}
    (hs : s.selections = sel :: rest) (hd : s.decides (s.matchDepth - 1) sel = true)
    (hsat : sel.satisfied = true) :
    ∃ note, d.matchEnd s =
      { state := { s with matchDepth := s.matchDepth - 1, selections := rest }.jump
          (skipSpan (d.code s.place.code) (s.place.pc + 1) .selection)
        note := note } := by
  refine ⟨some (.selectionLeft (skipSpan (d.code s.place.code) (s.place.pc + 1) .selection)), ?_⟩
  rw [matchEnd]
  split
  · next hn =>
    have hn' : s.selections = [] := hn
    rw [hs] at hn'
    cases hn'
  · next sel' rest' hc =>
    have hc' : s.selections = sel' :: rest' := hc
    rw [hs] at hc'
    cases hc'
    have hd' : { s with matchDepth := s.matchDepth - 1 }.decides (s.matchDepth - 1) sel = true := hd
    simp only [hd', hsat, Bool.and_self, if_true]

theorem matchEnd_of_not_decides {s : State}
    (h : ∀ sel ∈ s.selections.head?, s.decides (s.matchDepth - 1) sel = false) :
    d.matchEnd s = { state := { s with matchDepth := s.matchDepth - 1 }.next } := by
  rw [matchEnd]
  split
  · rfl
  · next sel rest hs =>
    have hs' : s.selections = sel :: rest := hs
    have hd : { s with matchDepth := s.matchDepth - 1 }.decides (s.matchDepth - 1) sel = false :=
      h sel (by rw [hs']; rfl)
    simp only [hd, Bool.false_and, Bool.false_eq_true, if_false]

/-- After a chosen body the machine leaves the selection, whose other children end at `post`. -/
theorem perform_choice {c : Control} {n : Nat} {rest : Program Nat} {post : List (Step Nat)}
    (hf : d.front (c.ahead (n + 2)) = rest.flatten ++ .selectionEnd :: post) (m : Memory)
    (steps : Nat) :
    ∃ note, d.perform data maxDepth (((c.inGuarded true).ahead n).state m steps) .matchEnd =
      { state := ({ c.ahead (n + 2 + rest.flatten.length + 1) with
          selections := c.selections.tail } : Control).state m steps, note := note } := by
  have hs : (((c.inGuarded true).ahead n).state m steps).selections =
      c.frame true :: c.selections.tail := rfl
  obtain ⟨note, h⟩ := matchEnd_of_decides (d := d) hs (decides_frame c m steps true) rfl
  refine ⟨note, h.trans ?_⟩
  have hspan : skipSpan (d.code c.place.code) (c.place.pc + 1 + n + 1) .selection =
      c.place.pc + (n + 2 + rest.flatten.length + 1) := by
    have h0 : skipSpan (d.code c.place.code) (c.ahead (n + 2)).place.pc .selection =
        (c.ahead (n + 2)).place.pc + (rest.flatten.length + 1) := skipSpan_flatten rfl rfl hf
    have hpc : (c.ahead (n + 2)).place.pc = c.place.pc + 1 + n + 1 := by
      show c.place.pc + (n + 2) = _
      omega
    rw [hpc] at h0
    refine h0.trans ?_
    omega
  have hjump : skipSpan (d.code (((c.inGuarded true).ahead n).state m steps).place.code)
      ((((c.inGuarded true).ahead n).state m steps).place.pc + 1) .selection =
      c.place.pc + (n + 2 + rest.flatten.length + 1) := hspan
  rw [hjump]
  rfl

theorem perform_end {c : Control} (hc : c.Fits false) (n : Nat) (m : Memory) (steps : Nat) :
    d.perform data maxDepth (((c.inGuarded false).ahead n).state m steps) .matchEnd =
      { state := (c.ahead (n + 2)).state m steps } := by
  have hn : ∀ sel ∈ c.selections.head?, (c.state m steps).decides c.matchDepth sel = false :=
    fun sel hsel => decides_of_inside (hc.selections sel hsel) m steps
  rw [perform, matchEnd_of_not_decides hn]
  have hpc : c.place.pc + 1 + n + 1 = c.place.pc + (n + 2) := by omega
  show ({ state := State.jump _ (c.place.pc + 1 + n + 1) } : Effect) = _
  rw [hpc]
  rfl

/-! Loops. -/

theorem continues_state (c : Control) (m : Memory) (steps : Nat) (condition : LoopCondition Nat) :
    continues data (c.state m steps) condition = continues data m.bare condition := by
  cases condition <;> rfl

theorem resumed?_first {c : Control} {direct : Bool} (hc : c.Fits direct) (m : Memory)
    (steps : Nat) : (c.state m steps).resumed? = none := by
  rw [State.resumed?]
  split
  · rfl
  · next l rest hs =>
    have hs' : c.loops = l :: rest := hs
    obtain ⟨_, hpc⟩ := hc.loops l (by rw [hs']; rfl)
    rw [if_neg]
    rintro ⟨hplace, hdepth⟩
    have hlt := hpc hdepth
    have hp : l.start.pc = c.place.pc := congrArg Place.pc hplace
    omega

theorem resumed?_again (c : Control) (turns : Nat) (m : Memory) (steps : Nat) :
    ((c.again (turns + 1)).state m steps).resumed? =
      some (⟨c.place, c.returns.length, turns + 1⟩, c.loops) := by
  simp [State.resumed?, Control.again, Control.state]

theorem loopStart_again {c : Control} {direct : Bool} (hc : c.Fits direct) (turns : Nat)
    (m : Memory) (steps : Nat) (g : LoopGuard Nat) :
    d.loopStart data ((c.again turns).state m steps) g =
      if goesOn data m g turns then { state := (c.inLoop turns).state m steps }
      else
        { state := (c.state m steps).jump
            (skipSpan (d.code c.place.code) (c.place.pc + 1) .loop)
          note := some (.loopLeft c.place.pc turns) } := by
  rw [goesOn, ← continues_state (c.again turns) m steps]
  cases turns with
  | zero =>
    have hn : ((c.again 0).state m steps).resumed? = none := resumed?_first hc m steps
    simp only [loopStart, hn]
    rfl
  | succ turns =>
    simp only [loopStart, resumed?_again]
    rfl

theorem perform_again {c : Control} {direct : Bool} (hc : c.Fits direct) {m : Memory}
    {g : LoopGuard Nat} {turns : Nat} (h : goesOn data m g turns = true) (steps : Nat) :
    d.perform data maxDepth ((c.again turns).state m steps) (.loopStart g) =
      { state := (c.inLoop turns).state m steps } := by
  rw [perform, loopStart_again hc, if_pos h]

theorem perform_loopOver {c : Control} {direct : Bool} (hc : c.Fits direct) {m : Memory}
    {g : LoopGuard Nat} {body : Program Nat} {post : List (Step Nat)} {turns : Nat}
    (hf : d.front c = .loopStart g :: (body.flatten ++ .loopEnd :: post))
    (h : ¬goesOn data m g turns = true) (steps : Nat) :
    ∃ note, d.perform data maxDepth ((c.again turns).state m steps) (.loopStart g) =
      { state := (c.ahead (body.flatten.length + 2)).state m steps, note := note } := by
  have hspan : skipSpan (d.code c.place.code) (c.place.pc + 1) .loop =
      c.place.pc + (body.flatten.length + 2) := by
    have h0 : skipSpan (d.code c.place.code) (c.place.pc + 1) .loop =
        c.place.pc + 1 + (body.flatten.length + 1) := skipSpan_flatten rfl rfl (front_ahead_one hf)
    rw [h0]
    omega
  refine ⟨some (.loopLeft c.place.pc turns), ?_⟩
  rw [perform, loopStart_again hc, if_neg h, hspan]
  rfl

theorem perform_loopEnd (c : Control) (turns n : Nat) (m : Memory) (steps : Nat) :
    d.perform data maxDepth (((c.inLoop turns).ahead n).state m steps) .loopEnd =
      { state := (c.again (turns + 1)).state m steps } := by
  have hl : (((c.inLoop turns).ahead n).state m steps).loops =
      ⟨c.place, c.returns.length, turns + 1⟩ :: c.loops := rfl
  simp only [perform, loopEnd, hl]
  exact if_pos rfl

theorem perform_selectionEnd (c : Control) (n : Nat) (m : Memory) (steps : Nat) :
    d.perform data maxDepth ((c.inSelection.ahead n).state m steps) .selectionEnd =
      { state := (c.ahead (n + 2)).state m steps } := by
  have hpc : c.place.pc + 1 + n + 1 = c.place.pc + (n + 2) := by omega
  show ({ state := State.jump _ (c.place.pc + 1 + n + 1) } : Effect) = _
  rw [hpc]
  rfl

theorem perform_call {c : Control} {m : Memory} {id : Nat} (h : ¬maxDepth ≤ c.returns.length)
    (steps : Nat) :
    d.perform data maxDepth (c.state m steps) (.act (.block id)) =
      { state := (c.called id).state m steps, note := some (.entered (d.block id).id) } := by
  have hr : ¬maxDepth ≤ (c.state m steps).returns.length := h
  simp only [perform, call, hr, if_false]
  rfl

theorem perform_tooDeep {c : Control} {m : Memory} {id : Nat} (h : maxDepth ≤ c.returns.length)
    (steps : Nat) :
    d.perform data maxDepth (c.state m steps) (.act (.block id)) =
      { state := c.state m steps, halted := some (.blockDepth (d.block id).id) } := by
  have hr : maxDepth ≤ (c.state m steps).returns.length := h
  simp only [perform, call, hr, if_true]

end Definition

end Dissect
