import Dissect.Proofs.Enclosure
import Mathlib.Order.Bounds.Basic
import Mathlib.Order.Nat

/-! Where a search for the end of a body stops. In any list of steps that is where more bodies of
the kind were closed than opened. In a nested list it is the end of the innermost body of the kind
that is open where the search starts: what stands between the markers of a body is a program of its
own, so that the bodies in it count for nothing. -/
namespace Dissect
variable {ρ : Type}

/-! ### What nested lists begin with -/

/-- What stands behind a program that is nested in bodies of these kinds: the marker that closes the
innermost of them, or nothing. -/
inductive Follows : List SpanKind → List (Step ρ) → Prop
  | done : Follows [] []
  | close {kind : SpanKind} {outer : List SpanKind} {last : Step ρ} {after : List (Step ρ)} :
    last.closes kind = true → wellNested outer after = true →
      Follows (kind :: outer) (last :: after)

theorem exists_enclosed {first last : Step ρ} {kind : SpanKind} (ho : first.opens kind = true)
    (hc : last.closes kind = true) (body rest : Program ρ) :
    ∃ p : Program ρ, p.flatten = first :: (body.flatten ++ last :: rest.flatten) := by
  cases first with
  | matchStart guard =>
    cases kind <;> cases ho
    cases last <;> cases hc
    exact ⟨.guarded guard body rest, rfl⟩
  | loopStart guard =>
    cases kind <;> cases ho
    cases last <;> cases hc
    exact ⟨.loop guard body rest, rfl⟩
  | selectionStart =>
    cases kind <;> cases ho
    cases last <;> cases hc
    exact ⟨.selection body rest, rfl⟩
  | _ => cases kind <;> cases ho

/-- A nested list begins with a program, behind which the innermost body is closed. -/
theorem exists_flatten {n : Nat} {kinds : List SpanKind} {steps : List (Step ρ)}
    (hn : steps.length ≤ n) (h : wellNested kinds steps = true) :
    ∃ (p : Program ρ) (rest : List (Step ρ)), steps = p.flatten ++ rest ∧ Follows kinds rest := by
  -- A body is followed by a list that is shorter, but not by one step only.
  induction n generalizing kinds steps with
  | zero =>
    obtain rfl := List.length_eq_zero_iff.1 (Nat.le_zero.1 hn)
    obtain rfl : kinds = [] := eq_of_beq h
    exact ⟨.done, [], rfl, .done⟩
  | succ n ih =>
    cases steps with
    | nil =>
      obtain rfl : kinds = [] := eq_of_beq h
      exact ⟨.done, [], rfl, .done⟩
    | cons s rest =>
      have hrest : rest.length ≤ n := Nat.le_of_succ_le_succ hn
      obtain ⟨kind, hk⟩ | ⟨kind, hk⟩ | ⟨a, rfl⟩ := s.marker_cases
      · rw [wellNested_of_opens hk] at h
        obtain ⟨body, tail, rfl, htail⟩ := ih hrest h
        cases htail with
        | close hlast hafter =>
          rw [List.length_append, List.length_cons] at hrest
          obtain ⟨p, after, rfl, hfollows⟩ := ih (by omega) hafter
          obtain ⟨q, hq⟩ := exists_enclosed hk hlast body p
          refine ⟨q, after, ?_, hfollows⟩
          rw [hq, List.cons_append, List.append_assoc, List.cons_append]
      · obtain ⟨outer, rfl, hafter⟩ := wellNested_of_closes hk h
        exact ⟨.done, s :: rest, rfl, .close hk hafter⟩
      · obtain ⟨p, after, rfl, hfollows⟩ := ih hrest h
        exact ⟨.act a p, after, rfl, hfollows⟩

/-! ### Spans -/

/-- The marker at `last` closes the body that the marker at `first` opens: between them stands a
program of its own. -/
structure IsSpan (steps : List (Step ρ)) (kind : SpanKind) (first last : Nat) : Prop where
  lt : first < last
  opens : ∃ s, steps[first]? = some s ∧ s.opens kind = true
  closes : ∃ s, steps[last]? = some s ∧ s.closes kind = true
  between : ∃ p : Program ρ, steps.extract (first + 1) last = p.flatten

section Spans
variable {steps : List (Step ρ)} {kind : SpanKind} {first last start : Nat}

theorem IsSpan.exists_drop (h : IsSpan steps kind first last) :
    ∃ (p : Program ρ) (s : Step ρ) (after : List (Step ρ)),
      steps.drop (first + 1) = p.flatten ++ s :: after ∧ s.closes kind = true ∧
        last = first + 1 + p.flatten.length := by
  obtain ⟨s, hs, hk⟩ := h.closes
  obtain ⟨p, hp⟩ := h.between
  obtain ⟨hlen, hget⟩ := List.getElem?_eq_some_iff.1 hs
  have hlt := h.lt
  refine ⟨p, s, steps.drop (last + 1), ?_, hk, ?_⟩
  · calc steps.drop (first + 1)
        = steps.extract (first + 1) last ++ (steps.drop (first + 1)).drop (last - (first + 1)) := by
          rw [List.extract_eq_take_drop, List.take_append_drop]
      _ = p.flatten ++ steps.drop last := by
          rw [hp, List.drop_drop, Nat.add_sub_cancel' hlt]
      _ = p.flatten ++ s :: steps.drop (last + 1) := by
          rw [List.drop_eq_getElem_cons hlen, hget]
  · rw [← hp, List.extract_eq_take_drop, List.length_take, List.length_drop]
    omega

theorem isSpan_of_drop {s last : Step ρ} {p : Program ρ} {after : List (Step ρ)}
    (hs : steps[first]? = some s) (ho : s.opens kind = true)
    (hdrop : steps.drop (first + 1) = p.flatten ++ last :: after) (hc : last.closes kind = true) :
    IsSpan steps kind first (first + 1 + p.flatten.length) := by
  constructor
  case lt => omega
  case opens => exact ⟨s, hs, ho⟩
  case closes =>
    refine ⟨last, ?_, hc⟩
    rw [← List.getElem?_drop, hdrop, List.getElem?_append_right (Nat.le_refl _), Nat.sub_self]
    rfl
  case between =>
    refine ⟨p, ?_⟩
    rw [List.extract_eq_take_drop, hdrop, Nat.add_sub_cancel_left, List.take_left]

theorem IsSpan.skipSpan_eq (h : IsSpan steps kind first last) :
    skipSpan steps (first + 1) kind = last + 1 := by
  obtain ⟨p, s, after, hdrop, hc, rfl⟩ := h.exists_drop
  exact skipSpan_flatten (Step.opens_of_closes hc kind) hc hdrop

theorem IsSpan.last_unique {last' : Nat} (h : IsSpan steps kind first last)
    (h' : IsSpan steps kind first last') : last' = last :=
  Nat.succ_inj.1 (h'.skipSpan_eq.symm.trans h.skipSpan_eq)

section Nested
variable (hn : wellNested [] steps = true)
include hn

theorem exists_isSpan {s : Step ρ} (hs : steps[first]? = some s) (ho : s.opens kind = true) :
    ∃ last, IsSpan steps kind first last := by
  have hnested := wellNested_enclosing hn (first + 1)
  rw [enclosing_succ hs, openAfter_of_opens ho, List.map_cons] at hnested
  obtain ⟨p, rest, hdrop, hfollows⟩ := exists_flatten (Nat.le_refl _) hnested
  cases hfollows with
  | close hc hafter => exact ⟨_, isSpan_of_drop hs ho hdrop hc⟩

theorem mem_enclosing_iff_isSpan {b : Body} : b ∈ enclosing steps start ↔
    ∃ last, IsSpan steps b.kind b.start last ∧ b.start < start ∧ start ≤ last := by
  rw [mem_enclosing hn]
  constructor
  · rintro ⟨⟨s, hs, ho⟩, hlt, hskip⟩
    obtain ⟨last, hspan⟩ := exists_isSpan hn hs ho
    rw [hspan.skipSpan_eq] at hskip
    exact ⟨last, hspan, hlt, Nat.le_of_lt_succ hskip⟩
  · rintro ⟨last, hspan, hlt, hle⟩
    rw [hspan.skipSpan_eq]
    exact ⟨hspan.opens, hlt, Nat.lt_succ_of_le hle⟩

theorem ClosedBy.eq_last {b : Body} {outer : List Body} {stop : Nat}
    (h : ClosedBy steps b outer start stop) (hspan : IsSpan steps b.kind b.start last) :
    stop = last := by
  have hsuffix := h.inside stop h.le (Nat.le_refl stop)
  have hmem : b ∈ enclosing steps stop := hsuffix.mem List.mem_cons_self
  obtain ⟨-, hlt, hskip⟩ := (mem_enclosing hn).1 hmem
  rw [hspan.skipSpan_eq] at hskip
  have hnot : b ∉ enclosing steps (stop + 1) := by
    rw [h.behind]
    intro hb
    have hpair := (enclosing_starts steps stop).1.sublist hsuffix.sublist
    exact absurd (List.rel_of_pairwise_cons hpair hb) (Nat.lt_irrefl _)
  rw [mem_enclosing hn, hspan.skipSpan_eq] at hnot
  have hge : ¬stop + 1 < last + 1 := fun hlast =>
    hnot ⟨hspan.opens, Nat.lt_succ_of_lt hlt, hlast⟩
  omega

theorem IsSpan.first_unique {first' : Nat} (h : IsSpan steps kind first last)
    (h' : IsSpan steps kind first' last) : first' = first := by
  obtain ⟨s, hs, hc⟩ := h.closes
  obtain ⟨start, hopen⟩ := enclosing_of_closes hn hs hc
  have heq : ∀ {i}, IsSpan steps kind i last → i = start := by
    intro i hi
    have hmem : ⟨kind, i⟩ ∈ enclosing steps last :=
      (mem_enclosing_iff_isSpan hn).2 ⟨last, hi, hi.lt, Nat.le_refl last⟩
    rw [hopen] at hmem
    rcases List.mem_cons.1 hmem with he | hbehind
    · exact congrArg Body.start he
    · obtain ⟨-, -, hskip⟩ := (mem_enclosing hn).1 hbehind
      rw [hi.skipSpan_eq] at hskip
      exact absurd hskip (Nat.lt_irrefl _)
  rw [heq h, heq h']

/-- Of the spans of a kind that a place is in, the search goes to the end of the one that was opened
last. -/
theorem exists_innermost (hspan : IsSpan steps kind first last) (hlt : first < start)
    (hle : start ≤ last) : ∃ first' last', IsSpan steps kind first' last' ∧
      skipSpan steps start kind = last' + 1 ∧ first' < start ∧ start ≤ last' ∧
        ∀ f l, IsSpan steps kind f l → f < start → start ≤ l → f ≤ first' := by
  have hmem {f l : Nat} (h : IsSpan steps kind f l) (hf : f < start) (hl : start ≤ l) :
      ⟨kind, f⟩ ∈ enclosing steps start :=
    (mem_enclosing_iff_isSpan hn).2 ⟨l, h, hf, hl⟩
  -- The innermost body comes first, so the first one of the kind was opened last.
  have hsome : ((enclosing steps start).find? (·.kind == kind)).isSome = true :=
    List.find?_isSome.2 ⟨_, hmem hspan hlt hle, beq_self_eq_true kind⟩
  obtain ⟨b, hb⟩ := Option.isSome_iff_exists.1 hsome
  obtain ⟨hk, inner, outer, hopen, hinner⟩ := List.find?_eq_some_iff_append.1 hb
  obtain rfl := eq_of_beq hk
  have hin : b ∈ enclosing steps start := List.mem_of_find?_eq_some hb
  obtain ⟨last', hspan', hlt', hle'⟩ := (mem_enclosing_iff_isSpan hn).1 hin
  obtain ⟨stop, hskip, hclosed⟩ := exists_end hn hopen fun c hc => by simpa using hinner c hc
  refine ⟨b.start, last', hspan', ?_, hlt', hle', fun f l h hf hl => ?_⟩
  · rw [hskip, hclosed.eq_last hn hspan']
  · have hf' := hmem h hf hl
    have hpair := (enclosing_starts steps start).1
    rw [hopen] at hf' hpair
    rcases List.mem_append.1 hf' with hlater | hrest
    · simpa using hinner _ hlater
    · rcases List.mem_cons.1 hrest with he | hearlier
      · exact Nat.le_of_eq (congrArg Body.start he)
      · exact Nat.le_of_lt (List.rel_of_pairwise_cons (List.pairwise_append.1 hpair).2.1 hearlier)

/-- From inside a span the search goes to its end just if no span of its kind that was opened later
goes on there. -/
theorem skipSpan_eq_iff (hspan : IsSpan steps kind first last) (hlt : first < start)
    (hle : start ≤ last) : skipSpan steps start kind = last + 1 ↔
      ∀ f l, IsSpan steps kind f l → first < f → f < start → l < start := by
  obtain ⟨first', last', hspan', hskip, hlt', hle', hmax⟩ := exists_innermost hn hspan hlt hle
  rw [hskip, Nat.succ_inj]
  constructor
  · rintro rfl f l hother hlater hf
    obtain rfl := hspan.first_unique hn hspan'
    by_contra hge
    exact absurd (hmax f l hother hf (Nat.le_of_not_lt hge)) (Nat.not_le_of_lt hlater)
  · intro hnone
    have hnot : ¬first < first' := fun hlater =>
      absurd (hnone first' last' hspan' hlater hlt') (Nat.not_lt_of_le hle')
    obtain rfl : first' = first :=
      Nat.le_antisymm (Nat.le_of_not_lt hnot) (hmax first last hspan hlt hle)
    exact hspan.last_unique hspan'

end Nested

end Spans

/-! ### Markers counted -/

/-- In the first `n` steps more than `depth` bodies of a kind are closed that are not opened
there. -/
def Outruns (kind : SpanKind) (depth : Nat) (steps : List (Step ρ)) (n : Nat) : Prop :=
  depth + (steps.take n).countP (·.opens kind) < (steps.take n).countP (·.closes kind)

section Outruns
variable {kind : SpanKind} {depth n : Nat} {s : Step ρ} {steps rest : List (Step ρ)}

theorem not_outruns_zero : ¬Outruns kind depth steps 0 := by
  simp [Outruns]

theorem not_outruns_nil : ¬Outruns kind depth ([] : List (Step ρ)) n := by
  simp [Outruns]

theorem outruns_of_opens (ho : s.opens kind = true) :
    Outruns kind depth (s :: rest) (n + 1) ↔ Outruns kind (depth + 1) rest n := by
  simp only [Outruns, List.take_succ_cons, List.countP_cons, ho, Step.closes_of_opens ho,
    if_true, Bool.false_eq_true, if_false, Nat.add_zero]
  omega

theorem outruns_of_closes (hc : s.closes kind = true) :
    Outruns kind (depth + 1) (s :: rest) (n + 1) ↔ Outruns kind depth rest n := by
  simp only [Outruns, List.take_succ_cons, List.countP_cons, hc, Step.opens_of_closes hc,
    if_true, Bool.false_eq_true, if_false, Nat.add_zero]
  omega

theorem outruns_one (hc : s.closes kind = true) : Outruns kind 0 (s :: rest) 1 := by
  simp [Outruns, hc, Step.opens_of_closes hc]

theorem outruns_of_other (ho : s.opens kind = false) (hc : s.closes kind = false) :
    Outruns kind depth (s :: rest) (n + 1) ↔ Outruns kind depth rest n := by
  simp [Outruns, ho, hc]

theorem isLeast_succ_iff {P Q : Nat → Prop} (hzero : ¬P 0) (hsucc : ∀ n, P (n + 1) ↔ Q n) :
    IsLeast {n | P n} n ↔ ∃ m, IsLeast {m | Q m} m ∧ m + 1 = n := by
  constructor
  · rintro ⟨hn, hleast⟩
    cases n with
    | zero => exact absurd hn hzero
    | succ n =>
      refine ⟨n, ⟨(hsucc n).1 hn, fun k hk => ?_⟩, rfl⟩
      exact Nat.le_of_succ_le_succ (hleast ((hsucc k).2 hk))
  · rintro ⟨m, ⟨hm, hleast⟩, rfl⟩
    refine ⟨(hsucc m).2 hm, fun k hk => ?_⟩
    cases k with
    | zero => exact absurd hk hzero
    | succ k => exact Nat.succ_le_succ (hleast ((hsucc k).1 hk))

theorem stepsToClose_eq_some_iff :
    stepsToClose kind depth steps = some n ↔ IsLeast {n | Outruns kind depth steps n} n := by
  induction steps generalizing depth n with
  | nil =>
    refine ⟨fun h => (by cases h), fun h => absurd h.1 not_outruns_nil⟩
  | cons s rest ih =>
    by_cases ho : s.opens kind = true
    · rw [isLeast_succ_iff not_outruns_zero fun n => outruns_of_opens ho]
      simp only [stepsToClose, ho, if_true, Option.map_eq_some_iff, ih]
    by_cases hc : s.closes kind = true
    · cases depth with
      | zero =>
        have hone : IsLeast {n | Outruns kind 0 (s :: rest) n} 1 :=
          ⟨outruns_one hc, fun k hk => Nat.pos_of_ne_zero fun hk0 => not_outruns_zero (hk0 ▸ hk)⟩
        rw [stepsToClose_zero _ _ hc, Option.some_inj]
        exact ⟨fun h => h ▸ hone, fun h => hone.unique h⟩
      | succ depth =>
        rw [isLeast_succ_iff not_outruns_zero fun n => outruns_of_closes hc]
        simp only [stepsToClose, ho, hc, if_true, if_false, Bool.false_eq_true,
          Option.map_eq_some_iff, ih]
    · rw [isLeast_succ_iff not_outruns_zero fun n =>
        outruns_of_other (Bool.eq_false_iff.2 ho) (Bool.eq_false_iff.2 hc)]
      simp only [stepsToClose, ho, hc, if_false, Bool.false_eq_true, Option.map_eq_some_iff, ih]

theorem le_length_of_isLeast (h : IsLeast {n | Outruns kind depth steps n} n) :
    n ≤ steps.length := by
  by_contra hlt
  have hall : Outruns kind depth steps steps.length := by
    have hn : Outruns kind depth steps n := h.1
    rw [Outruns, List.take_of_length_le (Nat.le_of_not_le hlt)] at hn
    rwa [Outruns, List.take_length]
  exact hlt (h.2 hall)

end Outruns

/-- From `start` up to and with index `n` more bodies of a kind are closed than opened. -/
structure ClosesMore (steps : List (Step ρ)) (kind : SpanKind) (start n : Nat) : Prop where
  le : start ≤ n
  lt : n < steps.length
  more : (steps.extract start (n + 1)).countP (·.opens kind) <
    (steps.extract start (n + 1)).countP (·.closes kind)

section Search
variable (steps : List (Step ρ)) (kind : SpanKind) (start : Nat)

theorem closesMore_iff {k : Nat} (hlt : start + k < steps.length) :
    ClosesMore steps kind start (start + k) ↔ Outruns kind 0 (steps.drop start) (k + 1) := by
  have hextract : steps.extract start (start + k + 1) = (steps.drop start).take (k + 1) := by
    rw [List.extract_eq_take_drop, Nat.add_assoc, Nat.add_sub_cancel_left]
  rw [Outruns, Nat.zero_add, ← hextract]
  exact ⟨ClosesMore.more, fun h => ⟨Nat.le_add_right start k, hlt, h⟩⟩

theorem skipSpan_cases : (∃ n, IsLeast {n | ClosesMore steps kind start n} n ∧
      skipSpan steps start kind = n + 1) ∨
    (∀ n, ¬ClosesMore steps kind start n) ∧ skipSpan steps start kind = steps.length := by
  have hshift {n : Nat} (h : ClosesMore steps kind start n) :
      ∃ k, n = start + k ∧ Outruns kind 0 (steps.drop start) (k + 1) := by
    obtain ⟨k, rfl⟩ := Nat.exists_eq_add_of_le h.le
    exact ⟨k, rfl, (closesMore_iff steps kind start h.lt).1 h⟩
  rw [skipSpan]
  cases hfound : stepsToClose kind 0 (steps.drop start) with
  | none =>
    right
    refine ⟨fun n hmore => ?_, rfl⟩
    obtain ⟨k, -, hk⟩ := hshift hmore
    classical
    have hleast := Nat.isLeast_find (p := Outruns kind 0 (steps.drop start)) ⟨k + 1, hk⟩
    rw [stepsToClose_eq_some_iff.2 hleast] at hfound
    cases hfound
  | some m =>
    left
    have hleast := stepsToClose_eq_some_iff.1 hfound
    have hlen := le_length_of_isLeast hleast
    rw [List.length_drop] at hlen
    cases m with
    | zero => exact absurd hleast.1 not_outruns_zero
    | succ k =>
      refine ⟨start + k, ⟨(closesMore_iff steps kind start (by omega)).2 hleast.1, ?_⟩, rfl⟩
      intro n hmore
      obtain ⟨j, rfl, hj⟩ := hshift hmore
      have hle : k + 1 ≤ j + 1 := hleast.2 hj
      omega

/-- Where the search for the end of a body stops. A start marker of a nested list has one end
marker, and from every place between them at which no body of its kind that was opened later goes on
the search stops behind that end marker, and from no other. In any list it stops behind the first
marker with which more bodies of the kind are closed than opened, or at the end of the list. -/
theorem skipSpan_stops :
    (wellNested [] steps = true → ∀ first s, steps[first]? = some s → s.opens kind = true →
      ∃ last, (∀ other, IsSpan steps kind first other ↔ other = last) ∧
        ∀ start, first < start → start ≤ last →
          (skipSpan steps start kind = last + 1 ↔
            ∀ f l, IsSpan steps kind f l → first < f → f < start → l < start)) ∧
    ∀ start,
      (∃ n, IsLeast {n | ClosesMore steps kind start n} n ∧ skipSpan steps start kind = n + 1) ∨
        (∀ n, ¬ClosesMore steps kind start n) ∧ skipSpan steps start kind = steps.length := by
  refine ⟨fun hn first s hs ho => ?_, skipSpan_cases steps kind⟩
  obtain ⟨last, hspan⟩ := exists_isSpan hn hs ho
  refine ⟨last, fun other => ⟨hspan.last_unique, fun hother => hother ▸ hspan⟩, ?_⟩
  exact fun start hlt hle => skipSpan_eq_iff hn hspan hlt hle

end Search

def choiceSample : List (Step Nat) :=
  [.selectionStart, .matchStart (.bytes [0] false), .selectionStart, .matchStart (.bytes [1] false),
    .matchEnd, .selectionEnd, .loopStart ⟨.remaining, none⟩, .act (.title "t"), .loopEnd, .matchEnd,
    .selectionEnd]

/-- From the loop the search for the end of a selection goes behind the outer one, since the inner
one has ended there. -/
theorem skipSpan_stops_choiceSample :
    wellNested [] choiceSample = true ∧ IsSpan choiceSample .selection 0 10 ∧
      (∀ f l, IsSpan choiceSample .selection f l → 0 < f → f < 7 → l < 7) ∧
      skipSpan choiceSample 7 .selection = 10 + 1 := by
  have hn : wellNested [] choiceSample = true := by decide
  have hs : choiceSample[0]? = some .selectionStart := rfl
  obtain ⟨last, hspan, hstops⟩ := (skipSpan_stops choiceSample .selection).1 hn 0 _ hs rfl
  have hfirst : IsSpan choiceSample .selection 0 last := (hspan last).2 rfl
  obtain rfl : last = 10 := by
    have hskip : skipSpan choiceSample 1 .selection = 10 + 1 := by decide
    exact Nat.succ_inj.1 (hfirst.skipSpan_eq.symm.trans hskip)
  have hended : ∀ f l, IsSpan choiceSample .selection f l → 0 < f → f < 7 → l < 7 := by
    intro f l h hpos hlt
    have hends : ∀ f < 7, 0 < f → choiceSample[f]?.any (·.opens .selection) = true →
        skipSpan choiceSample (f + 1) .selection ≤ 7 := by decide
    obtain ⟨s, hs, ho⟩ := h.opens
    have hskip := hends f hlt hpos (by rw [hs]; exact ho)
    rwa [h.skipSpan_eq] at hskip
  exact ⟨hn, hfirst, hended, (hstops 7 (by decide) (by decide)).2 hended⟩

end Dissect
