import Dissect.Proofs.Image

/-! The bodies around an index of a flat program. Where every end marker closes the body that was
opened last, a search for the end of a body of one kind ends behind the marker that closes it, from
wherever in the body it starts: bodies of other kinds open and close in between unseen. -/
namespace Dissect
variable {ρ : Type}

/-- A body of a flat program, by the index of its start marker. -/
structure Body where
  kind : SpanKind
  start : Nat
  deriving DecidableEq, Repr

def openAfter (index : Nat) (bodies : List Body) : Step ρ → List Body
  | .act _ => bodies
  | .matchStart _ => ⟨.guarded, index⟩ :: bodies
  | .loopStart _ => ⟨.loop, index⟩ :: bodies
  | .selectionStart => ⟨.selection, index⟩ :: bodies
  | .matchEnd | .loopEnd | .selectionEnd => bodies.tail

/-- The bodies around an index, the innermost first. A start marker is not in its own body, an end
marker is. -/
def enclosing (steps : List (Step ρ)) : Nat → List Body
  | 0 => []
  | pc + 1 =>
    match steps[pc]? with
    | some s => openAfter pc (enclosing steps pc) s
    | none => enclosing steps pc

/-! ### Markers by their kinds -/

namespace Step
variable {s : Step ρ} {kind : SpanKind}

theorem marker_cases (s : Step ρ) :
    (∃ kind, s.opens kind = true) ∨ (∃ kind, s.closes kind = true) ∨ ∃ a, s = .act a := by
  cases s with
  | act a => exact .inr (.inr ⟨a, rfl⟩)
  | matchStart guard => exact .inl ⟨.guarded, rfl⟩
  | loopStart guard => exact .inl ⟨.loop, rfl⟩
  | selectionStart => exact .inl ⟨.selection, rfl⟩
  | matchEnd => exact .inr (.inl ⟨.guarded, rfl⟩)
  | loopEnd => exact .inr (.inl ⟨.loop, rfl⟩)
  | selectionEnd => exact .inr (.inl ⟨.selection, rfl⟩)

theorem opens_eq (h : s.opens kind = true) (other : SpanKind) :
    s.opens other = (kind == other) := by
  cases s <;> cases kind <;> cases other <;> first | rfl | cases h

theorem closes_eq (h : s.closes kind = true) (other : SpanKind) :
    s.closes other = (kind == other) := by
  cases s <;> cases kind <;> cases other <;> first | rfl | cases h

theorem closes_of_opens (h : s.opens kind = true) (other : SpanKind) :
    s.closes other = false := by
  cases s <;> cases kind <;> cases other <;> first | rfl | cases h

theorem opens_of_closes (h : s.closes kind = true) (other : SpanKind) :
    s.opens other = false := by
  cases s <;> cases kind <;> cases other <;> first | rfl | cases h

end Step

theorem openAfter_of_opens {s : Step ρ} {kind : SpanKind} (h : s.opens kind = true) (index : Nat)
    (bodies : List Body) : openAfter index bodies s = ⟨kind, index⟩ :: bodies := by
  cases s <;> cases kind <;> first | rfl | cases h

theorem openAfter_of_closes {s : Step ρ} {kind : SpanKind} (h : s.closes kind = true)
    (index : Nat) (bodies : List Body) : openAfter index bodies s = bodies.tail := by
  cases s <;> cases kind <;> first | rfl | cases h

theorem wellNested_of_opens {s : Step ρ} {kind : SpanKind} (h : s.opens kind = true)
    (kinds : List SpanKind) (rest : List (Step ρ)) :
    wellNested kinds (s :: rest) = wellNested (kind :: kinds) rest := by
  cases s <;> cases kind <;> first | rfl | cases h

theorem wellNested_of_closes {s : Step ρ} {kind : SpanKind} (h : s.closes kind = true)
    {kinds : List SpanKind} {rest : List (Step ρ)} (hn : wellNested kinds (s :: rest) = true) :
    ∃ outer, kinds = kind :: outer ∧ wellNested outer rest = true := by
  cases kinds with
  | nil => cases s <;> first | cases h | cases hn
  | cons k outer =>
    refine ⟨outer, ?_⟩
    cases s <;> cases kind <;> cases k <;> first | exact ⟨rfl, hn⟩ | (cases h; done) | cases hn

/-! ### The search for an end, marker by marker -/

section Search
variable {s : Step ρ} {kind : SpanKind} (sought : SpanKind) (depth : Nat) (rest : List (Step ρ))

theorem stepsToClose_of_opens (h : s.opens kind = true) :
    stepsToClose sought depth (s :: rest) =
      (stepsToClose sought (depth + if kind == sought then 1 else 0) rest).map (· + 1) := by
  simp only [stepsToClose, Step.opens_eq h, Step.closes_of_opens h, Bool.false_eq_true, if_false]
  split <;> rfl

theorem stepsToClose_of_closes (h : s.closes kind = true) :
    stepsToClose sought (depth + if kind == sought then 1 else 0) (s :: rest) =
      (stepsToClose sought depth rest).map (· + 1) := by
  simp only [stepsToClose, Step.opens_of_closes h, Step.closes_eq h, Bool.false_eq_true, if_false]
  split <;> rfl

theorem stepsToClose_zero (h : s.closes sought = true) :
    stepsToClose sought 0 (s :: rest) = some 1 := by
  simp only [stepsToClose, Step.opens_of_closes h, h, Bool.false_eq_true, if_false, if_true]

end Search

/-! ### Bodies around an index -/

section Enclosing
variable {steps : List (Step ρ)} {pc : Nat}

theorem enclosing_succ {s : Step ρ} (h : steps[pc]? = some s) :
    enclosing steps (pc + 1) = openAfter pc (enclosing steps pc) s := by
  rw [enclosing, h]

theorem enclosing_succ_of_none (h : steps[pc]? = none) :
    enclosing steps (pc + 1) = enclosing steps pc := by
  rw [enclosing, h]

theorem suffix_of_suffix_succ {bodies : List Body}
    (h : bodies <:+ enclosing steps (pc + 1)) (hlt : ∀ b ∈ bodies.head?, b.start < pc) :
    bodies <:+ enclosing steps pc := by
  cases hs : steps[pc]? with
  | none => rwa [enclosing_succ_of_none hs] at h
  | some s =>
    rw [enclosing_succ hs] at h
    obtain ⟨kind, hk⟩ | ⟨kind, hk⟩ | ⟨a, rfl⟩ := s.marker_cases
    · rw [openAfter_of_opens hk] at h
      rcases List.suffix_cons_iff.1 h with rfl | h
      · exact absurd (hlt _ rfl) (Nat.lt_irrefl _)
      · exact h
    · rw [openAfter_of_closes hk] at h
      exact h.trans (List.tail_suffix _)
    · exact h

theorem enclosing_starts (steps : List (Step ρ)) (pc : Nat) :
    (enclosing steps pc).Pairwise (fun b c => c.start < b.start) ∧
      ∀ b ∈ enclosing steps pc, b.start < pc ∧
        ∃ s, steps[b.start]? = some s ∧ s.opens b.kind = true := by
  induction pc with
  | zero => exact ⟨.nil, fun b hb => by cases hb⟩
  | succ pc ih =>
    obtain ⟨hpair, hall⟩ := ih
    have hlater : ∀ b ∈ enclosing steps pc, b.start < pc + 1 ∧
        ∃ s, steps[b.start]? = some s ∧ s.opens b.kind = true :=
      fun b hb => ⟨Nat.lt_succ_of_lt (hall b hb).1, (hall b hb).2⟩
    cases hs : steps[pc]? with
    | none =>
      rw [enclosing_succ_of_none hs]
      exact ⟨hpair, hlater⟩
    | some s =>
      rw [enclosing_succ hs]
      obtain ⟨kind, hk⟩ | ⟨kind, hk⟩ | ⟨a, rfl⟩ := s.marker_cases
      · rw [openAfter_of_opens hk]
        refine ⟨List.pairwise_cons.2 ⟨fun b hb => (hall b hb).1, hpair⟩, fun b hb => ?_⟩
        rcases List.mem_cons.1 hb with rfl | hb
        · exact ⟨Nat.lt_succ_self _, s, hs, hk⟩
        · exact hlater b hb
      · rw [openAfter_of_closes hk]
        exact ⟨hpair.sublist (List.tail_sublist _), fun b hb => hlater b (List.mem_of_mem_tail hb)⟩
      · exact ⟨hpair, hlater⟩

theorem suffix_of_suffix {b : Body} {outer : List Body} {i : Nat}
    (h : b :: outer <:+ enclosing steps pc) (hi : b.start < i) (hle : i ≤ pc) :
    b :: outer <:+ enclosing steps i := by
  induction pc, hle using Nat.le_induction with
  | base => exact h
  | succ pc hle ih =>
    refine ih (suffix_of_suffix_succ h fun c hc => ?_)
    cases hc
    exact Nat.lt_of_lt_of_le hi hle

theorem enclosing_start {b : Body} {outer : List Body} (h : b :: outer <:+ enclosing steps pc) :
    enclosing steps (b.start + 1) = b :: outer ∧ enclosing steps b.start = outer := by
  obtain ⟨hlt, s, hs, hk⟩ := (enclosing_starts steps pc).2 b (h.mem List.mem_cons_self)
  have hopen : enclosing steps (b.start + 1) = b :: enclosing steps b.start := by
    rw [enclosing_succ hs, openAfter_of_opens hk]
  have hsuffix := suffix_of_suffix h (Nat.lt_succ_self _) hlt
  rw [hopen] at hsuffix ⊢
  rcases List.suffix_cons_iff.1 hsuffix with he | hearlier
  · exact ⟨he.symm, (List.cons.inj he).2.symm⟩
  · have hstart := (enclosing_starts steps b.start).2 b (hearlier.mem List.mem_cons_self)
    exact absurd hstart.1 (Nat.lt_irrefl _)

end Enclosing

/-! ### The ends of bodies -/

/-- A body with `outer` around it goes on from an index up to the step `last`, which closes it. -/
structure ClosedBy (steps : List (Step ρ)) (b : Body) (outer : List Body) (pc last : Nat) :
    Prop where
  le : pc ≤ last
  closes : ∃ s, steps[last]? = some s ∧ s.closes b.kind = true
  behind : enclosing steps (last + 1) = outer
  inside : ∀ i, pc ≤ i → i ≤ last → b :: outer <:+ enclosing steps i

namespace ClosedBy
variable {steps : List (Step ρ)} {b : Body} {outer : List Body} {pc last : Nat}

theorem here (h : b :: outer <:+ enclosing steps pc) {s : Step ρ} (hs : steps[pc]? = some s)
    (hk : s.closes b.kind = true) (hout : enclosing steps (pc + 1) = outer) :
    ClosedBy steps b outer pc pc where
  le := Nat.le_refl pc
  closes := ⟨s, hs, hk⟩
  behind := hout
  inside _ hle hi := Nat.le_antisymm hle hi ▸ h

theorem back (h : ClosedBy steps b outer (pc + 1) last)
    (hpc : b :: outer <:+ enclosing steps pc) : ClosedBy steps b outer pc last where
  le := Nat.le_of_succ_le h.le
  closes := h.closes
  behind := h.behind
  inside i hle hi := by
    rcases Nat.lt_or_eq_of_le hle with hlt | rfl
    · exact h.inside i hlt hi
    · exact hpc

end ClosedBy

section Nested
variable {steps : List (Step ρ)} (hn : wellNested [] steps = true)
include hn

theorem wellNested_enclosing (pc : Nat) :
    wellNested ((enclosing steps pc).map (·.kind)) (steps.drop pc) = true := by
  induction pc with
  | zero => exact hn
  | succ pc ih =>
    cases hs : steps[pc]? with
    | none =>
      have hlen : steps.length ≤ pc := List.getElem?_eq_none_iff.1 hs
      rw [List.drop_eq_nil_of_le hlen] at ih
      rwa [enclosing_succ_of_none hs, List.drop_eq_nil_of_le (Nat.le_succ_of_le hlen)]
    | some s =>
      rw [List.drop_eq_getElem?_toList_append, hs, Option.toList_some, List.singleton_append] at ih
      rw [enclosing_succ hs]
      obtain ⟨kind, hk⟩ | ⟨kind, hk⟩ | ⟨a, rfl⟩ := s.marker_cases
      · rw [wellNested_of_opens hk] at ih
        rwa [openAfter_of_opens hk]
      · obtain ⟨outer, houter, hrest⟩ := wellNested_of_closes hk ih
        rwa [openAfter_of_closes hk, List.map_tail, houter]
      · exact ih

theorem enclosing_of_none {pc : Nat} (h : steps[pc]? = none) : enclosing steps pc = [] := by
  have hnested := wellNested_enclosing hn pc
  rw [List.drop_eq_nil_of_le (List.getElem?_eq_none_iff.1 h)] at hnested
  exact List.map_eq_nil_iff.1 (eq_of_beq hnested)

theorem enclosing_of_closes {pc : Nat} {s : Step ρ} {kind : SpanKind} (hs : steps[pc]? = some s)
    (hk : s.closes kind = true) :
    ∃ start, enclosing steps pc = ⟨kind, start⟩ :: enclosing steps (pc + 1) := by
  have hnested := wellNested_enclosing hn pc
  rw [List.drop_eq_getElem?_toList_append, hs, Option.toList_some, List.singleton_append] at hnested
  obtain ⟨outer, houter, -⟩ := wellNested_of_closes hk hnested
  obtain ⟨b, bodies, hb, rfl, -⟩ := List.map_eq_cons_iff.1 houter
  refine ⟨b.start, ?_⟩
  rw [enclosing_succ hs, openAfter_of_closes hk, hb]
  rfl

/-- From inside a body, with `inner` bodies opened in it since, the search for its end stops behind
the marker that closes it. -/
theorem exists_close {b : Body} {outer : List Body} {left pc : Nat} {inner : List Body}
    (hleft : steps.length = pc + left) (h : enclosing steps pc = inner ++ b :: outer) :
    ∃ n, stepsToClose b.kind (inner.countP (·.kind == b.kind)) (steps.drop pc) = some (n + 1) ∧
      ClosedBy steps b outer pc (pc + n) := by
  induction left generalizing pc inner with
  | zero =>
    have hnone : steps[pc]? = none := List.getElem?_eq_none_iff.2 (Nat.le_of_eq hleft)
    rw [enclosing_of_none hn hnone] at h
    simp at h
  | succ left ih =>
    have hlt : pc < steps.length := by omega
    have hs : steps[pc]? = some steps[pc] := List.getElem?_eq_getElem hlt
    have hdrop : steps.drop pc = steps[pc] :: steps.drop (pc + 1) := List.drop_eq_getElem_cons hlt
    have hhere : b :: outer <:+ enclosing steps pc := h ▸ List.suffix_append inner _
    -- what the search finds from the next step, it finds from here one step further
    have further (inner' : List Body) (h' : enclosing steps (pc + 1) = inner' ++ b :: outer)
        {depth : Nat} (hstep : stepsToClose b.kind depth (steps.drop pc) =
          (stepsToClose b.kind (inner'.countP (·.kind == b.kind)) (steps.drop (pc + 1))).map
            (· + 1)) :
        ∃ n, stepsToClose b.kind depth (steps.drop pc) = some (n + 1) ∧
          ClosedBy steps b outer pc (pc + n) := by
      obtain ⟨n, hfound, hclosed⟩ := ih (by omega) h'
      have hpc : pc + 1 + n = pc + (n + 1) := by omega
      exact ⟨n + 1, by rw [hstep, hfound]; rfl, (hpc ▸ hclosed).back hhere⟩
    obtain ⟨kind, hk⟩ | ⟨kind, hk⟩ | ⟨a, ha⟩ := steps[pc].marker_cases
    · refine further (⟨kind, pc⟩ :: inner) ?_ ?_
      · rw [enclosing_succ hs, openAfter_of_opens hk, h, List.cons_append]
      · rw [hdrop, stepsToClose_of_opens _ _ _ hk, List.countP_cons]
    · obtain ⟨start, hclosed⟩ := enclosing_of_closes hn hs hk
      rw [h] at hclosed
      cases inner with
      | nil =>
        obtain ⟨rfl, hout⟩ := List.cons.inj hclosed
        refine ⟨0, ?_, .here hhere hs hk hout.symm⟩
        rw [hdrop, List.countP_nil, stepsToClose_zero _ _ hk]
      | cons c inner =>
        obtain ⟨rfl, hrest⟩ := List.cons.inj hclosed
        refine further inner hrest.symm ?_
        rw [hdrop, List.countP_cons, stepsToClose_of_closes _ _ _ hk]
    · refine further inner ?_ ?_
      · rw [enclosing_succ hs, ha, ← h]
        rfl
      · rw [hdrop, ha]
        rfl

theorem exists_end {b : Body} {inner outer : List Body} {pc : Nat}
    (h : enclosing steps pc = inner ++ b :: outer) (hinner : ∀ c ∈ inner, c.kind ≠ b.kind) :
    ∃ last, skipSpan steps pc b.kind = last + 1 ∧ ClosedBy steps b outer pc last := by
  have hpc : pc < steps.length := by
    by_contra hle
    rw [enclosing_of_none hn (List.getElem?_eq_none_iff.2 (Nat.le_of_not_lt hle))] at h
    simp at h
  have hcount : inner.countP (·.kind == b.kind) = 0 :=
    List.countP_eq_zero.2 fun c hc he => hinner c hc (eq_of_beq he)
  obtain ⟨n, hfound, hclosed⟩ := exists_close hn (Nat.add_sub_cancel' (Nat.le_of_lt hpc)).symm h
  rw [hcount] at hfound
  refine ⟨pc + n, ?_, hclosed⟩
  rw [skipSpan, hfound]
  rfl

theorem exists_end_innermost {b : Body} {outer : List Body} {pc : Nat}
    (h : enclosing steps pc = b :: outer) :
    ∃ last, skipSpan steps pc b.kind = last + 1 ∧ ClosedBy steps b outer pc last := by
  have hnone : ∀ c ∈ ([] : List Body), c.kind ≠ b.kind := fun c hc => by cases hc
  exact exists_end hn h hnone

theorem enclosing_skipSpan {b : Body} {outer : List Body} {pc : Nat}
    (h : enclosing steps pc = b :: outer) : enclosing steps (skipSpan steps pc b.kind) = outer := by
  obtain ⟨last, hskip, hclosed⟩ := exists_end_innermost hn h
  rw [hskip, hclosed.behind]

/-- A body is around an index exactly if the index is behind its start marker and not behind the
marker that closes it. -/
theorem mem_enclosing {b : Body} {pc : Nat} :
    b ∈ enclosing steps pc ↔ (∃ s, steps[b.start]? = some s ∧ s.opens b.kind = true) ∧
      b.start < pc ∧ pc < skipSpan steps (b.start + 1) b.kind := by
  constructor
  · intro hb
    obtain ⟨hlt, hs⟩ := (enclosing_starts steps pc).2 b hb
    refine ⟨hs, hlt, ?_⟩
    obtain ⟨inner, outer, h⟩ := List.append_of_mem hb
    have hsuffix : b :: outer <:+ enclosing steps pc := h ▸ List.suffix_append inner _
    obtain ⟨last, hlast, hclosed⟩ := exists_end_innermost hn (enclosing_start hsuffix).1
    rw [hlast]
    by_contra hge
    have hstill := suffix_of_suffix hsuffix (Nat.lt_succ_of_lt hclosed.le) (Nat.le_of_not_lt hge)
    rw [hclosed.behind] at hstill
    exact absurd hstill.length_le (by simp)
  · rintro ⟨⟨s, hs, hk⟩, hlt, hskip⟩
    have hopen : enclosing steps (b.start + 1) = b :: enclosing steps b.start := by
      rw [enclosing_succ hs, openAfter_of_opens hk]
    obtain ⟨last, hlast, hclosed⟩ := exists_end_innermost hn hopen
    rw [hlast] at hskip
    exact (hclosed.inside pc hlt (Nat.le_of_lt_succ hskip)).mem List.mem_cons_self

example : enclosing (ρ := Nat) [.loopStart ⟨.always, none⟩, .selectionStart,
    .matchStart (.bytes [] false), .act (.block 0), .matchEnd, .selectionEnd, .loopEnd] 4 =
      [⟨.guarded, 2⟩, ⟨.selection, 1⟩, ⟨.loop, 0⟩] := by decide

theorem skipSpan_of_closes {pc : Nat} {s : Step ρ} {b : Body} {outer : List Body}
    (hs : steps[pc]? = some s) (hk : s.closes b.kind = true)
    (h : enclosing steps pc = b :: outer) : skipSpan steps (b.start + 1) b.kind = pc + 1 := by
  have hsuffix : b :: outer <:+ enclosing steps pc := h ▸ List.suffix_refl _
  obtain ⟨last, hlast, hclosed⟩ := exists_end_innermost hn (enclosing_start hsuffix).1
  have hlt : pc < skipSpan steps (b.start + 1) b.kind :=
    ((mem_enclosing hn).1 (h ▸ List.mem_cons_self)).2.2
  have hle : last ≤ pc := by
    by_contra hgt
    have hstart : b.start < pc := ((mem_enclosing hn).1 (h ▸ List.mem_cons_self)).2.1
    have hstill := hclosed.inside (pc + 1) (by omega) (by omega)
    rw [enclosing_succ hs, openAfter_of_closes hk, h] at hstill
    exact absurd hstill.length_le (by simp)
  omega

end Nested

end Dissect
