import Dissect.Proofs.Enclosure
import Dissect.Proofs.Moments
import Dissect.Proofs.Sound

/-! The stacks of a run mirror the place at which it is. Which bodies are under way can be read off
the places of the activations alone, and the counter of guarded bodies, the loop frames and the
selection frames say just that, whichever way a body was left: by its end marker, by a guard that
failed, or by the choice of a selection. -/
namespace Dissect

/-- A body under way, with the number of activations behind its own. -/
structure Level where
  kind : SpanKind
  start : Place
  callDepth : Nat
  deriving DecidableEq, Repr

def Body.level (code : Code) (callDepth : Nat) (b : Body) : Level :=
  ⟨b.kind, ⟨code, b.start⟩, callDepth⟩

/-- The bodies under way in activations that are at these places, the innermost first. -/
def Definition.levels (d : Definition) : List Place → List Level
  | [] => []
  | p :: callers =>
    (enclosing (d.code p.code) p.pc).map (Body.level p.code callers.length) ++ d.levels callers

namespace Level

def count (kind : SpanKind) (ls : List Level) : Nat := ls.countP (·.kind == kind)

def loops (ls : List Level) : List (Place × Nat) :=
  (ls.filter (·.kind == .loop)).map fun l => (l.start, l.callDepth)

/-- The frames of the selections: how many guarded bodies, loops and activations are around each,
and whether the body directly inside it, `inner` for the innermost, is a guarded body of its own
activation. -/
def selections (inner : Option Level) : List Level → List SelectionFrame
  | [] => []
  | l :: outer =>
    if l.kind = .selection then
      ⟨count .guarded outer, count .loop outer, l.callDepth,
        inner.any fun i => i.kind == .guarded && i.callDepth == l.callDepth⟩ ::
          selections (some l) outer
    else selections (some l) outer

/-- The innermost body is a selection of the activation with this depth. -/
def Direct (callDepth : Nat) (ls : List Level) : Prop :=
  ∃ l outer, ls = l :: outer ∧ l.kind = .selection ∧ l.callDepth = callDepth

variable {ls : List Level}

theorem count_cons (kind : SpanKind) (l : Level) (ls : List Level) :
    count kind (l :: ls) = count kind ls + if l.kind == kind then 1 else 0 := List.countP_cons

theorem length_loops (ls : List Level) : (loops ls).length = count .loop ls := by
  rw [loops, List.length_map, count, List.countP_eq_length_filter]

theorem selections_some {inner : Level} (h : inner.kind ≠ .guarded) (ls : List Level) :
    selections (some inner) ls = selections none ls := by
  cases ls with
  | nil => rfl
  | cons l outer =>
    have hk : (inner.kind == .guarded) = false := beq_false_of_ne h
    simp only [selections, Option.any_some, Option.any_none, hk, Bool.false_and]

theorem selections_of_not_direct (inner : Level) (h : ¬ Direct inner.callDepth ls) :
    selections (some inner) ls = selections none ls := by
  cases ls with
  | nil => rfl
  | cons l outer =>
    by_cases hl : l.kind = .selection
    · have hne : inner.callDepth ≠ l.callDepth := fun he => h ⟨l, outer, rfl, hl, he.symm⟩
      simp only [selections, if_pos hl, Option.any_some, Option.any_none, beq_false_of_ne hne,
        Bool.and_false]
    · simp only [selections, if_neg hl]

theorem le_of_mem_selections {inner : Option Level} {f : SelectionFrame}
    (h : f ∈ selections inner ls) :
    f.matchDepth ≤ count .guarded ls ∧ f.loopDepth ≤ count .loop ls := by
  induction ls generalizing inner with
  | nil => cases h
  | cons l outer ih =>
    rw [count_cons, count_cons]
    by_cases hl : l.kind = .selection
    · rw [selections, if_pos hl] at h
      rcases List.mem_cons.1 h with rfl | h
      · exact ⟨Nat.le_add_right _ _, Nat.le_add_right _ _⟩
      · exact ⟨Nat.le_add_right_of_le (ih h).1, Nat.le_add_right_of_le (ih h).2⟩
    · rw [selections, if_neg hl] at h
      exact ⟨Nat.le_add_right_of_le (ih h).1, Nat.le_add_right_of_le (ih h).2⟩

theorem not_own_of_not_direct {callDepth : Nat} (h : ¬ Direct callDepth ls) {inner : Option Level}
    {f : SelectionFrame} (hf : f ∈ (selections inner ls).head?) :
    ¬(f.matchDepth = count .guarded ls ∧ f.loopDepth = count .loop ls ∧
      f.callDepth = callDepth) := by
  rintro ⟨hguards, hloops, hdepth⟩
  cases ls with
  | nil => cases hf
  | cons l outer =>
    by_cases hl : l.kind = .selection
    · rw [selections, if_pos hl] at hf
      cases hf
      exact h ⟨l, outer, rfl, hl, hdepth⟩
    · rw [selections, if_neg hl] at hf
      have hle := le_of_mem_selections (List.mem_of_mem_head? hf)
      rw [count_cons] at hguards hloops
      cases hk : l.kind with
      | selection => exact hl hk
      | guarded =>
        simp only [hk, beq_self_eq_true, if_true] at hguards
        omega
      | loop =>
        simp only [hk, beq_self_eq_true, if_true] at hloops
        omega

theorem selections_cons {l : Level} (h : l.kind = .selection) (inner : Option Level)
    (outer : List Level) :
    selections inner (l :: outer) = ⟨count .guarded (l :: outer), count .loop (l :: outer),
      l.callDepth, inner.any fun i => i.kind == .guarded && i.callDepth == l.callDepth⟩ ::
        selections none outer := by
  have hguards : count .guarded (l :: outer) = count .guarded outer := by simp [count_cons, h]
  have hloops : count .loop (l :: outer) = count .loop outer := by simp [count_cons, h]
  rw [selections, if_pos h, hguards, hloops, selections_some (by simp [h])]

end Level

def LoopFrame.mark (l : LoopFrame) : Place × Nat := (l.start, l.callDepth)

/-- The stacks say which bodies are under way; `own` is the loop that starts here, if control came
back to it. -/
structure Control.Mirrors (c : Control) (ls : List Level) (own : List (Place × Nat)) : Prop where
  matchDepth : c.matchDepth = Level.count .guarded ls
  loops : c.loops.map LoopFrame.mark = own ++ Level.loops ls
  selections : c.selections = Level.selections none ls

def Control.places (c : Control) : List Place := c.place :: c.returns

def Control.own (c : Control) (back : Bool) : List (Place × Nat) :=
  if back then [(c.place, c.returns.length)] else []

namespace Definition
variable {d : Definition} {data : Buffer} {maxDepth : Nat}

/-! ### Bodies under way -/

section Levels
variable {p : Place} {callers : List Place}

theorem levels_cons (p : Place) (callers : List Place) : d.levels (p :: callers) =
    (enclosing (d.code p.code) p.pc).map (Body.level p.code callers.length) ++ d.levels callers :=
  rfl

theorem callDepth_lt_of_mem_levels {l : Level} {places : List Place} (h : l ∈ d.levels places) :
    l.callDepth < places.length := by
  induction places with
  | nil => cases h
  | cons p callers ih =>
    rcases List.mem_append.1 h with h | h
    · obtain ⟨b, -, rfl⟩ := List.mem_map.1 h
      exact Nat.lt_succ_self _
    · exact Nat.lt_succ_of_lt (ih h)

theorem not_here_of_mem_levels {l : Level} (h : l ∈ d.levels (p :: callers)) :
    ¬(l.start = p ∧ l.callDepth = callers.length) := by
  rintro ⟨hstart, hdepth⟩
  rcases List.mem_append.1 h with h | h
  · obtain ⟨b, hb, rfl⟩ := List.mem_map.1 h
    have hlt := ((enclosing_starts (d.code p.code) p.pc).2 b hb).1
    rw [← congrArg Place.pc hstart] at hlt
    exact absurd hlt (Nat.lt_irrefl _)
  · exact absurd hdepth (Nat.ne_of_lt (callDepth_lt_of_mem_levels h))

theorem levels_act {a : Action Nat} (hs : d.step? p = some (.act a)) :
    d.levels (⟨p.code, p.pc + 1⟩ :: callers) = d.levels (p :: callers) := by
  rw [levels_cons, levels_cons, enclosing_succ hs]
  rfl

theorem levels_opens {s : Step Nat} (kind : SpanKind) (hs : d.step? p = some s)
    (hk : s.opens kind = true) :
    d.levels (⟨p.code, p.pc + 1⟩ :: callers) =
      ⟨kind, p, callers.length⟩ :: d.levels (p :: callers) := by
  rw [levels_cons, levels_cons, enclosing_succ hs, openAfter_of_opens hk]
  rfl

variable (hn : ∀ code, wellNested [] (d.code code) = true)
include hn

theorem levels_skip {s : Step Nat} {kind : SpanKind} (hs : d.step? p = some s)
    (hk : s.opens kind = true) :
    d.levels (⟨p.code, skipSpan (d.code p.code) (p.pc + 1) kind⟩ :: callers) =
      d.levels (p :: callers) := by
  have hopen : enclosing (d.code p.code) (p.pc + 1) =
      ⟨kind, p.pc⟩ :: enclosing (d.code p.code) p.pc := by
    rw [enclosing_succ hs, openAfter_of_opens hk]
  rw [levels_cons, levels_cons]
  show (enclosing _ (skipSpan _ _ (Body.mk kind p.pc).kind)).map _ ++ _ = _
  rw [enclosing_skipSpan (hn p.code) hopen]

theorem levels_of_none (hs : d.step? p = none) : d.levels (p :: callers) = d.levels callers := by
  rw [levels_cons, enclosing_of_none (hn p.code) hs]
  rfl

theorem levels_leave {l : Level} {outer : List Level}
    (h : d.levels (p :: callers) = l :: outer) (hl : l.kind = .selection)
    (hdepth : l.callDepth = callers.length) :
    d.levels (⟨p.code, skipSpan (d.code p.code) p.pc .selection⟩ :: callers) = outer := by
  rw [levels_cons] at h
  cases hb : enclosing (d.code p.code) p.pc with
  | nil =>
    rw [hb] at h
    have hmem : l ∈ d.levels callers := by
      rw [List.map_nil, List.nil_append] at h
      exact h ▸ List.mem_cons_self
    exact absurd hdepth (Nat.ne_of_lt (callDepth_lt_of_mem_levels hmem))
  | cons b bodies =>
    rw [hb] at h
    obtain ⟨rfl, rfl⟩ := List.cons.inj h
    have hk : b.kind = .selection := hl
    rw [levels_cons, ← hk, enclosing_skipSpan (hn p.code) hb]
    rfl

end Levels

/-- The step at the place of a state closes the innermost body under way, whose start marker is
`start`; `outer` is around it. -/
structure Closes (d : Definition) (s : State) (kind : SpanKind) (start : Nat) (outer : List Level) :
    Prop where
  levels : d.levels s.control.places = ⟨kind, ⟨s.place.code, start⟩, s.returns.length⟩ :: outer
  opens : ∃ m, d.step? ⟨s.place.code, start⟩ = some m ∧ m.opens kind = true
  span : skipSpan (d.code s.place.code) (start + 1) kind = s.place.pc + 1
  behind : d.levels (⟨s.place.code, s.place.pc + 1⟩ :: s.returns) = outer
  again : d.levels (⟨s.place.code, start⟩ :: s.returns) = outer

theorem Closes.counted {s : State} {kind : SpanKind} {start : Nat} {outer : List Level}
    (h : d.Closes s kind start outer) : d.Closes s.counted kind start outer :=
  ⟨h.levels, h.opens, h.span, h.behind, h.again⟩

theorem exists_closes (hn : ∀ code, wellNested [] (d.code code) = true) {s : State}
    {m : Step Nat} (kind : SpanKind) (hs : d.step? s.place = some m) (hk : m.closes kind = true) :
    ∃ start outer, d.Closes s kind start outer := by
  obtain ⟨start, h⟩ := enclosing_of_closes (hn s.place.code) hs hk
  have hsuffix : ⟨kind, start⟩ :: enclosing (d.code s.place.code) (s.place.pc + 1) <:+
      enclosing (d.code s.place.code) s.place.pc := h ▸ List.suffix_refl _
  refine ⟨start, d.levels (⟨s.place.code, s.place.pc + 1⟩ :: s.returns), ?_⟩
  constructor
  case levels =>
    show d.levels (s.place :: s.returns) = _
    rw [levels_cons, h]
    rfl
  case opens =>
    exact ((enclosing_starts _ s.place.pc).2 ⟨kind, start⟩ (h ▸ List.mem_cons_self)).2
  case span => exact skipSpan_of_closes (b := ⟨kind, start⟩) (hn s.place.code) hs hk h
  case behind => rfl
  case again => rw [levels_cons, levels_cons, (enclosing_start hsuffix).2]

/-! ### One step -/

section Steps
variable {s : State} {ls : List Level}

theorem decides_eq_false {m : Nat} (inner : Option Level)
    (hm : m = Level.count .guarded ls) (hl : s.loops.length = Level.count .loop ls)
    (h : ¬ Level.Direct s.returns.length ls) :
    ∀ sel ∈ (Level.selections inner ls).head?, s.decides m sel = false := by
  intro sel hsel
  have hne := Level.not_own_of_not_direct h hsel
  rw [← hm, ← hl] at hne
  rw [Bool.eq_false_iff]
  simpa only [State.decides, ne_eq, Bool.and_eq_true, beq_iff_eq, and_assoc] using hne

theorem length_loops (h : s.control.Mirrors ls []) : s.loops.length = Level.count .loop ls := by
  have hlen := congrArg List.length h.loops
  rwa [List.length_map, List.nil_append, Level.length_loops] at hlen

theorem matchDepth_of_mirrors {start : Place} {callDepth : Nat} {own : List (Place × Nat)}
    (h : s.control.Mirrors (⟨.guarded, start, callDepth⟩ :: ls) own) :
    s.matchDepth = Level.count .guarded ls + 1 :=
  h.matchDepth.trans (Level.count_cons _ _ _)

theorem markSatisfied_selections (h : s.control.Mirrors ls []) (start : Place) :
    s.markSatisfied.selections =
      Level.selections (some ⟨.guarded, start, s.returns.length⟩) ls := by
  have hsel : s.selections = Level.selections none ls := h.selections
  have hm : s.matchDepth = Level.count .guarded ls := h.matchDepth
  have hl := length_loops h
  by_cases hd : Level.Direct s.returns.length ls
  · obtain ⟨l, outer, rfl, hkind, hdepth⟩ := hd
    rw [Level.selections_cons hkind] at hsel ⊢
    simp [State.markSatisfied, hsel, State.decides, hm, hl, hdepth]
  · rw [Level.selections_of_not_direct ⟨.guarded, start, s.returns.length⟩ hd, ← hsel,
      State.markSatisfied]
    split
    · rfl
    · next sel rest hcons =>
      have hfalse := decides_eq_false none hm hl hd sel (by rw [← hsel, hcons]; rfl)
      rw [if_neg (by simp [hfalse])]

/-- What stays of the loop frames at a start marker: all but the frame of a loop that is gone on
with. -/
def Outer (s : State) (outer : List LoopFrame) : Prop :=
  s.resumed? = none ∧ outer = s.loops ∨ ∃ l, s.resumed? = some (l, outer)

theorem exists_outer {back : Bool}
    (h : s.control.Mirrors (d.levels s.control.places) (s.control.own back)) :
    ∃ outer, Outer s outer ∧
      outer.map LoopFrame.mark = Level.loops (d.levels s.control.places) := by
  have hloops : s.loops.map LoopFrame.mark =
    s.control.own back ++ Level.loops (d.levels s.control.places) := h.loops
  cases back with
  | true =>
    obtain ⟨l, rest, hl, hmark, hrest⟩ := List.map_eq_cons_iff.1 hloops
    obtain ⟨hstart, hdepth⟩ := Prod.mk.inj hmark
    have hhere : l.start = s.place ∧ l.callDepth = s.returns.length := ⟨hstart, hdepth⟩
    exact ⟨rest, .inr ⟨l, by simp only [State.resumed?, hl, if_pos hhere]⟩, hrest⟩
  | false =>
    refine ⟨s.loops, .inl ⟨?_, rfl⟩, hloops⟩
    cases hl : s.loops with
    | nil => simp only [State.resumed?, hl]
    | cons l rest =>
      have hmem : l.mark ∈ Level.loops (d.levels s.control.places) := by
        have hmarks : l.mark :: rest.map LoopFrame.mark = Level.loops (d.levels s.control.places) :=
          (congrArg (List.map LoopFrame.mark) hl).symm.trans hloops
        exact hmarks ▸ List.mem_cons_self
      obtain ⟨level, hlevel, hsame⟩ := List.mem_map.1 hmem
      obtain ⟨hstart, hdepth⟩ := Prod.mk.inj hsame
      have hnot : ¬(l.start = s.place ∧ l.callDepth = s.returns.length) :=
        hstart ▸ hdepth ▸ not_here_of_mem_levels (List.mem_filter.1 hlevel).1
      simp only [State.resumed?, hl, if_neg hnot]

theorem loopStart_cases {outer : List LoopFrame} (h : Outer s outer) (g : LoopGuard Nat) :
    (∃ n, (d.loopStart data s g).state =
        { s with loops := ⟨s.place, s.returns.length, n⟩ :: outer }.next) ∨
      (d.loopStart data s g).state =
        { s with loops := outer }.jump (skipSpan (d.code s.place.code) (s.place.pc + 1) .loop) := by
  rw [loopStart]
  obtain ⟨hr, rfl⟩ | ⟨l, hr⟩ := h
  all_goals
    rw [hr]
    exact (ite_eq_or_eq _ _ _).imp (fun he => ⟨_, congrArg Effect.state he⟩)
      (fun he => congrArg Effect.state he)

variable (hn : ∀ code, wellNested [] (d.code code) = true)
include hn

theorem matchStart_mirrors {g : Guard Nat} (hs : d.step? s.place = some (.matchStart g))
    (h : s.control.Mirrors (d.levels s.control.places) []) :
    (d.matchStart data s g).state.control.Mirrors
      (d.levels (d.matchStart data s g).state.control.places) [] := by
  rw [matchStart]
  split
  · rw [markSatisfied_eq]
    show Control.Mirrors _ (d.levels (⟨s.place.code, s.place.pc + 1⟩ :: s.returns)) []
    rw [levels_opens .guarded hs rfl]
    exact ⟨by rw [Level.count_cons]; exact congrArg (· + 1) h.matchDepth, h.loops,
      markSatisfied_selections h s.place⟩
  · show Control.Mirrors _ (d.levels (⟨s.place.code, _⟩ :: s.returns)) []
    rw [levels_skip hn hs rfl]
    exact ⟨h.matchDepth, h.loops, h.selections⟩

theorem loopStart_mirrors {g : LoopGuard Nat} {back : Bool}
    (hs : d.step? s.place = some (.loopStart g))
    (h : s.control.Mirrors (d.levels s.control.places) (s.control.own back)) :
    (d.loopStart data s g).state.control.Mirrors
      (d.levels (d.loopStart data s g).state.control.places) [] := by
  obtain ⟨outer, hleft, houter⟩ := exists_outer h
  obtain ⟨n, he⟩ | he := @loopStart_cases d data s outer hleft g
  · rw [he]
    show Control.Mirrors _ (d.levels (⟨s.place.code, s.place.pc + 1⟩ :: s.returns)) []
    rw [levels_opens .loop hs rfl]
    refine ⟨h.matchDepth, congrArg (LoopFrame.mark ⟨s.place, s.returns.length, n⟩ :: ·) houter, ?_⟩
    exact h.selections.trans (Level.selections_some (by simp) _).symm
  · rw [he]
    show Control.Mirrors _ (d.levels (⟨s.place.code, _⟩ :: s.returns)) []
    rw [levels_skip hn hs rfl]
    exact ⟨h.matchDepth, houter, h.selections⟩

theorem matchEnd_mirrors (hs : d.step? s.place = some .matchEnd)
    (h : s.control.Mirrors (d.levels s.control.places) []) :
    (d.matchEnd s).state.control.Mirrors
      (d.levels (d.matchEnd s).state.control.places) [] := by
  obtain ⟨start, outer, hc⟩ := exists_closes hn .guarded hs rfl
  rw [hc.levels] at h
  have hm : s.matchDepth - 1 = Level.count .guarded outer := by
    rw [matchDepth_of_mirrors h]
    rfl
  have hl : s.loops.length = Level.count .loop outer := by
    rw [length_loops h, Level.count_cons]
    rfl
  have hloops : s.loops.map LoopFrame.mark = Level.loops outer := h.loops
  have hsel : s.selections = Level.selections
    (some ⟨.guarded, ⟨s.place.code, start⟩, s.returns.length⟩) outer := h.selections
  by_cases hd : Level.Direct s.returns.length outer
  · obtain ⟨l, further, rfl, hkind, hdepth⟩ := hd
    rw [Level.selections_cons hkind] at hsel
    obtain ⟨note, he⟩ := matchEnd_of_decides (d := d) hsel
      (by simp [State.decides, hm, hl, hdepth]) (by simp [hdepth])
    have hleave := levels_leave hn hc.behind hkind hdepth
    rw [he]
    show Control.Mirrors _ (d.levels (⟨s.place.code, _⟩ :: s.returns)) []
    rw [hleave]
    refine ⟨hm.trans ?_, hloops.trans ?_, rfl⟩
    · simp [Level.count_cons, hkind]
    · simp [Level.loops, hkind]
  · rw [matchEnd_of_not_decides fun sel hsel' => decides_eq_false _ hm hl hd sel (hsel ▸ hsel')]
    show Control.Mirrors _ (d.levels (⟨s.place.code, s.place.pc + 1⟩ :: s.returns)) []
    rw [hc.behind]
    exact ⟨hm, hloops, hsel.trans (Level.selections_of_not_direct _ hd)⟩

omit hn in
theorem loopEnd_state {start : Nat} {outer : List Level} (hc : d.Closes s .loop start outer)
    (h : s.control.Mirrors (d.levels s.control.places) []) : (loopEnd s).state = s.jump start := by
  rw [hc.levels] at h
  obtain ⟨l, rest, hl, hmark, -⟩ := List.map_eq_cons_iff.1 h.loops
  have hl' : s.loops = l :: rest := hl
  have hplace : l.start = ⟨s.place.code, start⟩ := (Prod.mk.inj hmark).1
  simp only [loopEnd, hl', hplace, if_true]

omit hn in
theorem jump_mirrors {start : Nat} {outer : List Level} (hc : d.Closes s .loop start outer)
    (h : s.control.Mirrors (d.levels s.control.places) []) :
    (s.jump start).control.Mirrors (d.levels (s.jump start).control.places)
      ((s.jump start).control.own true) := by
  rw [hc.levels] at h
  show Control.Mirrors _ (d.levels (⟨s.place.code, start⟩ :: s.returns)) _
  rw [hc.again]
  exact ⟨h.matchDepth, h.loops, h.selections.trans (Level.selections_some (by simp) _)⟩

omit hn in
theorem selectionStart_mirrors (hs : d.step? s.place = some .selectionStart)
    (h : s.control.Mirrors (d.levels s.control.places) []) :
    s.pushSelection.next.control.Mirrors (d.levels s.pushSelection.next.control.places) [] := by
  show Control.Mirrors _ (d.levels (⟨s.place.code, s.place.pc + 1⟩ :: s.returns)) []
  rw [levels_opens .selection hs rfl]
  have hm : s.matchDepth = _ := h.matchDepth
  have hsel : s.selections = _ := h.selections
  refine ⟨h.matchDepth, h.loops, ?_⟩
  show SelectionFrame.mk s.matchDepth s.loops.length s.returns.length false :: s.selections = _
  rw [Level.selections, if_pos rfl, Level.selections_some (by simp), hm, length_loops h, hsel]
  rfl

omit hn in
theorem selections_of_closes {start : Nat} {outer : List Level}
    (hc : d.Closes s .selection start outer)
    (h : s.control.Mirrors (d.levels s.control.places) []) :
    s.selections = ⟨s.matchDepth, s.loops.length, s.returns.length, false⟩ ::
      Level.selections none outer := by
  rw [hc.levels] at h
  rw [show s.selections = _ from h.selections, Level.selections_cons rfl,
    show s.matchDepth = _ from h.matchDepth, length_loops h]
  rfl

theorem selectionEnd_mirrors (hs : d.step? s.place = some .selectionEnd)
    (h : s.control.Mirrors (d.levels s.control.places) []) :
    ({ s with selections := s.selections.drop 1 } : State).next.control.Mirrors
      (d.levels ({ s with selections := s.selections.drop 1 } : State).next.control.places) [] := by
  obtain ⟨start, outer, hc⟩ := exists_closes hn .selection hs rfl
  have hsel := selections_of_closes hc h
  rw [hc.levels] at h
  show Control.Mirrors _ (d.levels (⟨s.place.code, s.place.pc + 1⟩ :: s.returns)) []
  rw [hc.behind]
  exact ⟨h.matchDepth, h.loops, congrArg (List.drop 1) hsel⟩

/-- One step. The loop that starts at the new place is under way if its end marker led there. -/
theorem perform_mirrors {step : Step Nat} {back : Bool} (hs : d.step? s.place = some step)
    (hback : back = true → step.opens .loop = true)
    (h : s.control.Mirrors (d.levels s.control.places) (s.control.own back)) (maxDepth : Nat) :
    (d.perform data maxDepth s step).state.control.Mirrors
      (d.levels (d.perform data maxDepth s step).state.control.places)
      ((d.perform data maxDepth s step).state.control.own (step.closes .loop)) := by
  have hplain (hk : step.opens .loop = false) :
      s.control.Mirrors (d.levels s.control.places) [] := by
    cases back with
    | false => exact h
    | true => rw [hback rfl] at hk; cases hk
  cases step with
  | act a =>
    have h := hplain rfl
    by_cases ha : ∃ id, a = .block id
    · obtain ⟨id, rfl⟩ := ha
      rw [perform_block]
      split
      · exact h
      · have hlevels : d.levels (⟨s.place.code, s.place.pc + 1⟩ :: s.returns) =
          d.levels (s.place :: s.returns) := levels_act hs
        show Control.Mirrors _ (d.levels (_ :: ⟨s.place.code, s.place.pc + 1⟩ :: s.returns)) []
        rw [levels_cons, hlevels]
        exact ⟨h.matchDepth, h.loops, h.selections⟩
    · rw [perform_action fun id hid => ha ⟨id, hid⟩]
      show Control.Mirrors _ (d.levels (⟨s.place.code, s.place.pc + 1⟩ :: s.returns)) []
      rw [levels_act hs]
      exact ⟨h.matchDepth, h.loops, h.selections⟩
  | matchStart g => exact matchStart_mirrors hn hs (hplain rfl)
  | matchEnd => exact matchEnd_mirrors hn hs (hplain rfl)
  | loopStart g => exact loopStart_mirrors hn hs h
  | loopEnd =>
    obtain ⟨start, outer, hc⟩ := exists_closes hn .loop hs rfl
    rw [perform, loopEnd_state hc (hplain rfl)]
    exact jump_mirrors hc (hplain rfl)
  | selectionStart => exact selectionStart_mirrors hs (hplain rfl)
  | selectionEnd => exact selectionEnd_mirrors hn hs (hplain rfl)

theorem perform_back {step : Step Nat} (hs : d.step? s.place = some step)
    (hk : step.closes .loop = true) (h : s.control.Mirrors (d.levels s.control.places) [])
    (maxDepth : Nat) :
    ∃ g, d.step? (d.perform data maxDepth s step).state.place = some (.loopStart g) := by
  cases step with
  | loopEnd =>
    obtain ⟨start, outer, hc⟩ := exists_closes hn .loop hs rfl
    obtain ⟨m, hm, hopens⟩ := hc.opens
    rw [perform, loopEnd_state hc h]
    cases m with
    | loopStart g => exact ⟨g, hm⟩
    | _ => cases hopens
  | _ => cases hk

end Steps

theorem matchEnd_matchDepth (s : State) :
    (d.matchEnd s).state.matchDepth = s.matchDepth - 1 := by
  rw [matchEnd]
  dsimp only
  split
  · rfl
  · split <;> rfl

/-! ### Whole runs -/

structure MirroredAt (d : Definition) (s : State) (back : Bool) : Prop where
  control : s.control.Mirrors (d.levels s.control.places) (s.control.own back)
  /-- Control comes back to start markers of loops only. -/
  back : back = true → ∃ g, d.step? s.place = some (.loopStart g)

theorem MirroredAt.plain {s : State} {back : Bool} (h : d.MirroredAt s back)
    (hs : ∀ g, d.step? s.place ≠ some (.loopStart g)) :
    s.control.Mirrors (d.levels s.control.places) [] := by
  cases back with
  | false => exact h.control
  | true =>
    obtain ⟨g, hg⟩ := h.back rfl
    exact absurd hg (hs g)

/-- A turn. If it performs a step, control came back from the end marker of a loop exactly if that
was the step. -/
theorem Turn.mirrored {m m' : Moment} {config : Config} {back : Bool}
    (hn : ∀ code, wellNested [] (d.code code) = true) (h : d.Turn data config m m')
    (hm : d.MirroredAt m.state back) :
    d.MirroredAt m'.state (if m'.state.steps = m.state.steps then back
      else (d.step? m.state.place).any (·.closes .loop)) := by
  cases h with
  | completed hs hr =>
    rw [if_pos rfl]
    exact hm
  | returned r rest hs hr =>
    have hplain := hm.plain fun g hg => by rw [hs] at hg; cases hg
    have hback : back = false := by
      cases back with
      | false => rfl
      | true =>
        obtain ⟨g, hg⟩ := hm.back rfl
        rw [hs] at hg
        cases hg
    have hlevels : d.levels m.state.control.places = d.levels (r :: rest) := by
      show d.levels (m.state.place :: m.state.returns) = _
      rw [levels_of_none hn hs, hr]
    rw [if_pos (show (m.state.returnTo r rest).steps = m.state.steps from rfl), hback]
    rw [hlevels] at hplain
    exact ⟨⟨hplain.matchDepth, hplain.loops, hplain.selections⟩, fun hf => by cases hf⟩
  | limited step hs hl =>
    rw [if_pos rfl]
    exact hm
  | performed step effect hs hl he =>
    have hsteps : effect.state.steps ≠ m.state.steps := by
      rw [← he, perform_steps]
      exact Nat.succ_ne_self _
    rw [if_neg hsteps, hs, Option.any_some]
    subst he
    have hs' : d.step? m.state.counted.place = some step := hs
    constructor
    case control =>
      refine perform_mirrors hn hs' (fun hb => ?_) hm.control config.maxBlockDepth
      obtain ⟨g, hg⟩ := hm.back hb
      rw [hs] at hg
      cases hg
      rfl
    case back =>
      intro hk
      refine perform_back hn hs' hk (hm.plain fun g hg => ?_) config.maxBlockDepth
      rw [hs] at hg
      cases hg
      cases hk

variable (d data) in
/-- The last step until a moment was the end marker of a loop. -/
def cameBack (config : Config) : Nat → Bool
  | 0 => false
  | n + 1 =>
    if (d.moment data config (n + 1)).state.steps = (d.moment data config n).state.steps then
      cameBack config n
    else (d.step? (d.moment data config n).state.place).any (·.closes .loop)

variable {config : Config}

theorem moment_mirrored (hn : ∀ code, wellNested [] (d.code code) = true) (n : Nat) :
    d.MirroredAt (d.moment data config n).state (d.cameBack data config n) := by
  induction n with
  | zero => exact ⟨⟨rfl, rfl, rfl⟩, fun h => by cases h⟩
  | succ n ih =>
    rw [cameBack]
    cases he : (d.moment data config n).ended with
    | some outcome =>
      have hsame : d.moment data config (n + 1) = d.moment data config n := by
        simp only [moment, he, Option.isSome_some, if_true]
      rw [hsame, if_pos rfl]
      exact ih
    | none =>
      rw [moment_succ he]
      exact (turn_proceed _).mirrored hn ih

variable (d data config) in
structure Performs (n : Nat) (step : Step Nat) : Prop where
  running : (d.moment data config n).ended = none
  step : d.step? (d.moment data config n).state.place = some step
  within : (d.moment data config n).state.steps < config.stepLimit

theorem Performs.next_state {n : Nat} {step : Step Nat} (h : d.Performs data config n step) :
    (d.moment data config (n + 1)).state =
      (d.perform data config.maxBlockDepth (d.moment data config n).state.counted step).state := by
  rw [moment_succ h.running, proceed, h.step]
  simp only [if_neg (Nat.not_le_of_lt h.within)]

structure Mirrored (d : Definition) (data : Buffer) (config : Config) : Prop where
  /-- A body is around an index from behind its start marker up to the marker that closes it. -/
  bodies : ∀ code pc b, b ∈ enclosing (d.code code) pc ↔
    (∃ s, (d.code code)[b.start]? = some s ∧ s.opens b.kind = true) ∧ b.start < pc ∧
      pc < skipSpan (d.code code) (b.start + 1) b.kind
  ordered : ∀ code pc, (enclosing (d.code code) pc).Pairwise fun b c => c.start < b.start
  moments : ∀ n, d.MirroredAt (d.moment data config n).state (d.cameBack data config n)
  /-- Where a code has ended, no frame is left but those of its callers. -/
  ended : ∀ n, let s := (d.moment data config n).state
    d.step? s.place = none → s.control.Mirrors (d.levels s.returns) []
  /-- A guarded body is counted off that was counted. -/
  matchEnd : ∀ n, d.Performs data config n .matchEnd →
    let s := (d.moment data config n).state
    let s' := (d.moment data config (n + 1)).state
    ∃ start outer, d.Closes s .guarded start outer ∧
      s.matchDepth = Level.count .guarded outer + 1 ∧ s'.matchDepth = Level.count .guarded outer
  loopEnd : ∀ n, d.Performs data config n .loopEnd →
    let s := (d.moment data config n).state
    let s' := (d.moment data config (n + 1)).state
    ∃ start outer, d.Closes s .loop start outer ∧ s'.place = ⟨s.place.code, start⟩
  selectionEnd : ∀ n, d.Performs data config n .selectionEnd →
    let s := (d.moment data config n).state
    let s' := (d.moment data config (n + 1)).state
    ∃ start outer, d.Closes s .selection start outer ∧ s.selections =
      ⟨s.matchDepth, s.loops.length, s.returns.length, false⟩ :: s'.selections

variable (data config) in
theorem mirrored (hn : ∀ code, wellNested [] (d.code code) = true) :
    d.Mirrored data config := by
  have hplain {n : Nat} {step : Step Nat} (h : d.Performs data config n step)
      (hstep : ∀ g, step ≠ .loopStart g) :=
    (moment_mirrored hn n).plain fun g hg => hstep g (Option.some.inj (h.step.symm.trans hg))
  constructor
  case bodies => exact fun code pc b => mem_enclosing (hn code)
  case ordered => exact fun code pc => (enclosing_starts (d.code code) pc).1
  case moments => exact moment_mirrored hn
  case ended =>
    intro n s hs
    have hat : d.MirroredAt (d.moment data config n).state _ := moment_mirrored hn n
    have h := hat.plain fun g hg => by
      rw [hs] at hg
      cases hg
    have hlevels : d.levels s.control.places = d.levels s.returns := levels_of_none hn hs
    rwa [hlevels] at h
  case matchEnd =>
    intro n h s s'
    have hm := hplain h fun g hg => by cases hg
    obtain ⟨start, outer, hc⟩ := exists_closes hn .guarded h.step rfl
    rw [hc.levels] at hm
    have hcount : s.matchDepth = Level.count .guarded outer + 1 := matchDepth_of_mirrors hm
    have hnext : s'.matchDepth = s.matchDepth - 1 :=
      (congrArg State.matchDepth h.next_state).trans (matchEnd_matchDepth _)
    exact ⟨start, outer, hc, hcount, by rw [hnext, hcount, Nat.add_sub_cancel]⟩
  case loopEnd =>
    intro n h s s'
    have hm := hplain h fun g hg => by cases hg
    obtain ⟨start, outer, hc⟩ := exists_closes hn .loop h.step rfl
    refine ⟨start, outer, hc, (congrArg State.place h.next_state).trans ?_⟩
    exact congrArg State.place (loopEnd_state hc.counted hm)
  case selectionEnd =>
    intro n h s s'
    have hm := hplain h fun g hg => by cases hg
    obtain ⟨start, outer, hc⟩ := exists_closes hn .selection h.step rfl
    have hsel : s.selections = _ :: _ := selections_of_closes hc hm
    refine ⟨start, outer, hc, ?_⟩
    have hnext : s'.selections = s.selections.drop 1 := congrArg State.selections h.next_state
    rw [hnext, hsel]
    rfl

end Definition

namespace Document

/-- Whatever document compiles, the stacks of every run of the definition mirror its places. -/
theorem compile_mirrored {source : List Char} {d : Definition} (h : compile source = .ok d)
    (data : Buffer) (config : Config) : d.Mirrored data config := by
  obtain ⟨f, -, hd⟩ := compile_eq_ok.1 h
  exact Definition.mirrored data config (nested_code hd)

set_option maxRecDepth 4000 in
theorem compile_mirrored_nestedSample : ∃ d, compile nestedSample.toList = .ok d ∧
    d.Mirrored #[0, 0, 1, 2] {} := by
  have hc : (compile nestedSample.toList).isOk = true := by
    rw [show nestedSample.toList = _ from String.toList_ofList]
    decide +kernel
  obtain ⟨d, hd⟩ := exists_ok hc
  exact ⟨d, hd, compile_mirrored hd _ _⟩

end Document

end Dissect
