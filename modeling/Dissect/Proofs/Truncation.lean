import Dissect.Proofs.Lockstep

/-! Buffers that are cut short. A definition that never asks how much of the buffer is left reads
what there is of a buffer as it reads a longer one: a step takes the same bytes in both or finds
the shorter one exhausted. -/
namespace Dissect

/-! ### Reading at the front of a longer buffer -/

section Reading
variable {data : Buffer} {byte : UInt8} {start : Nat}

theorem findByte_append (more : Buffer) {window : Nat} (h : start + window ≤ data.size) :
    findByte (data ++ more) byte start window = findByte data byte start window := by
  induction window generalizing start with
  | zero => rfl
  | succ window ih =>
    rw [findByte, findByte, Array.getElem?_append_left (by omega), ih (by omega)]

theorem findByte_widen {window wider i : Nat} (h : findByte data byte start window = some i)
    (hle : window ≤ wider) : findByte data byte start wider = some i := by
  induction window generalizing start wider with
  | zero => simp [findByte] at h
  | succ window ih =>
    obtain ⟨wider, rfl⟩ : ∃ n, wider = n + 1 := ⟨wider - 1, by omega⟩
    rw [findByte] at h ⊢
    by_cases hb : data[start]? = some byte
    · rw [if_pos hb] at h ⊢
      exact h
    · rw [if_neg hb] at h ⊢
      exact ih h (by omega)

theorem findByte_longer (more : Buffer) {window wider i : Nat}
    (h : findByte data byte start window = some i) (hle : window ≤ wider)
    (hin : start + window ≤ data.size) : findByte (data ++ more) byte start wider = some i := by
  rw [← findByte_append more hin] at h
  exact findByte_widen h hle

variable {cursor n : Nat} {limit : Option Int}

/-- A field takes as many bytes of a longer buffer, unless it takes all that are left. -/
theorem SizeRule.resolve_longer {size : SizeRule} (more : Buffer) (hcursor : cursor ≤ data.size)
    (hlimit : size = .remaining → limit ≠ none)
    (h : size.resolve data cursor limit = some n) :
    size.resolve (data ++ more) cursor limit = some n := by
  have hleft : data.size - cursor ≤ (data ++ more).size - cursor := by
    rw [Array.size_append]
    omega
  have hif {k : Nat} (hk : (if k ≤ data.size - cursor then some k else none) = some n) :
      (if k ≤ (data ++ more).size - cursor then some k else none) = some n := by
    by_cases hle : k ≤ data.size - cursor
    · rw [if_pos hle] at hk
      rw [if_pos (hle.trans hleft), hk]
    · rw [if_neg hle] at hk
      cases hk
  cases size with
  | fixed k => exact hif h
  | remaining =>
    cases limit with
    | none => exact absurd rfl (hlimit rfl)
    | some l => exact hif h
  | terminated byte =>
    cases limit with
    | none =>
      simp only [resolve, Option.map_none, Option.getD_none, Option.bind_none] at h ⊢
      cases hfind : findByte data byte cursor (data.size - cursor) with
      | none =>
        rw [hfind] at h
        cases h
      | some i =>
        rw [hfind] at h
        rw [findByte_longer more hfind hleft (by omega)]
        exact h
    | some l =>
      simp only [resolve, Option.map_some, Option.getD_some, Option.bind_some] at h ⊢
      cases hfind : findByte data byte cursor (min (data.size - cursor) l.toNat) with
      | some i =>
        rw [hfind] at h
        rw [findByte_longer more hfind (by omega) (by omega)]
        exact h
      | none =>
        rw [hfind] at h
        -- Without the byte the limit is what is taken, and all of it was looked through.
        have hle : l.toNat ≤ data.size - cursor := by
          by_contra hgt
          rw [if_neg hgt] at h
          cases h
        have hwindow : min ((data ++ more).size - cursor) l.toNat =
            min (data.size - cursor) l.toNat := by omega
        rw [hwindow, findByte_append more (by omega), hfind]
        exact hif h

end Reading

structure Effect.IsExhausted (e : Effect) : Prop where
  halted : ∃ offset field, e.halted = some (.exhausted offset field)
  events : e.events = []

def Outcome.isExhausted : Outcome → Bool
  | .exhausted _ _ => true
  | _ => false

namespace Definition

/-- Nothing in the definition asks how much of the buffer is left. -/
structure IgnoresEnd (d : Definition) : Prop where
  loops : ∀ code guard, .loopStart guard ∈ d.code code → guard.condition ≠ .remaining
  guards : ∀ code pattern convert, .matchStart (.bytes pattern convert) ∉ d.code code
  fields : ∀ code step, .act (.field step) ∈ d.code code →
    (d.field step.field).size = .remaining → step.limit ≠ none

variable {d : Definition} {data : Buffer} {config : Config}

theorem readField_longer (more : Buffer) {s : State} {f : FieldDef Nat} {step : FieldStep Nat}
    (hcursor : s.cursor ≤ data.size) (hlimit : f.size = .remaining → step.limit ≠ none) :
    d.readField (data ++ more) s f step = d.readField data s f step ∨
      (d.readField data s f step).IsExhausted := by
  have hoperand (h : f.size = .remaining) : step.limit.map s.operand ≠ none :=
    fun hnone => hlimit h (Option.map_eq_none_iff.1 hnone)
  cases hsize : f.size.resolve data s.cursor (step.limit.map s.operand) with
  | none =>
    right
    rw [readField, hsize]
    exact ⟨⟨_, _, rfl⟩, rfl⟩
  | some size =>
    left
    have hle := SizeRule.resolve_le hsize
    have hbytes : (data ++ more).extract s.cursor (s.cursor + size) =
        data.extract s.cursor (s.cursor + size) := by
      rw [Array.extract_append, Nat.sub_eq_zero_of_le hcursor,
        Nat.sub_eq_zero_of_le (by omega), Array.extract_empty_of_stop_le_start (Nat.le_refl _),
        Array.append_empty]
    rw [readField, readField, SizeRule.resolve_longer more hcursor hoperand hsize, hsize]
    cases size with
    | zero => rfl
    | succ size => simp only [hbytes]

theorem fieldStep_longer (more : Buffer) {s : State} {step : FieldStep Nat}
    (hcursor : s.cursor ≤ data.size)
    (hlimit : (d.field step.field).size = .remaining → step.limit ≠ none) :
    d.fieldStep (data ++ more) s step = d.fieldStep data s step ∨
      (d.fieldStep data s step).IsExhausted := by
  rw [fieldStep, fieldStep]
  cases step.offset.map s.operand with
  | none => exact readField_longer more hcursor hlimit
  | some target =>
    by_cases htarget : 0 ≤ target ∧ target ≤ data.size
    · have htarget' : 0 ≤ target ∧ target ≤ (data ++ more).size := by
        rw [Array.size_append]
        omega
      have hthere : ({ s with cursor := target.toNat } : State).cursor ≤ data.size := by
        dsimp only
        omega
      simp only [if_pos htarget, if_pos htarget']
      obtain heq | hexhausted := readField_longer (d := d) more hthere hlimit
      · left
        rw [heq]
      · exact .inr ⟨hexhausted.halted, hexhausted.events⟩
    · right
      simp only [if_neg htarget]
      exact ⟨⟨_, _, rfl⟩, rfl⟩

/-- A step does the same at the front of a longer buffer, unless it finds its own exhausted. -/
theorem perform_longer (h : d.IgnoresEnd) (more : Buffer) (maxDepth : Nat) {s : State}
    {code : Code} {step : Step Nat} (hstep : step ∈ d.code code) (hcursor : s.cursor ≤ data.size) :
    d.perform (data ++ more) maxDepth s step = d.perform data maxDepth s step ∨
      (d.perform data maxDepth s step).IsExhausted := by
  cases step with
  | act action =>
    cases action with
    | field step =>
      obtain heq | hexhausted := fieldStep_longer more hcursor (h.fields code step hstep)
      · left
        simp only [perform, heq]
      · exact .inr ⟨hexhausted.halted, hexhausted.events⟩
    | _ => exact .inl rfl
  | matchStart guard =>
    cases guard with
    | var id test => exact .inl rfl
    | bytes pattern convert => exact absurd hstep (h.guards code pattern convert)
  | loopStart guard =>
    left
    have hcontinues : continues (data ++ more) s guard.condition =
        continues data s guard.condition := by
      cases hc : guard.condition with
      | remaining => exact absurd hc (h.loops code guard hstep)
      | _ => rfl
    simp only [perform, loopStart, hcontinues]
  | _ => exact .inl rfl

/-- What the run over a buffer says of the run over a longer one, where nothing asks for the end of
the buffer: its ranges come first, and if it was not exhausted it is the same. -/
theorem run_longer (h : d.IgnoresEnd) (hfill : config.fillGaps = false) (data more : Buffer) :
    (d.analyze config data).ranges <+: (d.analyze config (data ++ more)).ranges ∧
      ((d.analyze config data).outcome.isExhausted = false →
        d.analyze config (data ++ more) = d.analyze config data) := by
  have hin (n : Nat) (_ : (d.moment data config n).ended = none) :
      d.InStep data (data ++ more) config config (·.isExhausted = true)
        (d.moment data config n) := by
    refine inStep_of_perform (Nat.le_refl _) (fun _ hlt => absurd hlt (Nat.lt_irrefl _)) ?_
    intro step hstep
    have hcursor : (d.moment data config n).state.counted.cursor ≤ data.size :=
      moment_cursor_le n
    obtain heq | hexhausted := perform_longer h more config.maxBlockDepth
      (List.mem_of_getElem? hstep) hcursor
    · exact .inl heq
    · obtain ⟨offset, field, hhalted⟩ := hexhausted.halted
      exact .inr ⟨⟨_, hhalted, rfl⟩, hexhausted.events⟩
  obtain hcourse | ⟨n, outcome, -, hcut, hclose, hevents, -⟩ := run_lockstep hin
  · have hsame := analyze_of_course hfill hfill hcourse
    exact ⟨hsame ▸ List.prefix_rfl, fun _ => hsame⟩
  · have houtcome : (d.analyze config data).outcome = outcome := congrArg Course.outcome hclose
    constructor
    · rw [ranges_of_close hfill hclose, analyze_ranges d _ hfill]
      exact rangesOf_isPrefix hevents
    · rw [houtcome, hcut]
      intro hnot
      cases hnot

def pointerSample : Definition where
  name := "n"
  shortName := "s"
  endianness := .big
  colors := []
  fields := [{ FieldDef.unused with size := .terminated 0, print := .text },
    { FieldDef.unused with size := .fixed 1, print := .unsigned },
    { FieldDef.unused with size := .remaining }]
  signatures := []
  blocks := []
  program := [.act (.field ⟨0, none, none, none, none⟩),
    .act (.field ⟨1, some 0, none, none, none⟩),
    .act (.field ⟨2, none, some (.var 0), some (.literal 2), some "t"⟩)]
  vars := ["p"]
  unused := 2

theorem ignoresEnd_pointerSample : pointerSample.IgnoresEnd := by
  have hblocks (id : Nat) : pointerSample.code (.block id) = [] := by
    simp [code, block, pointerSample]
  constructor
  case loops =>
    intro code guard hstep
    cases code with
    | main => simp [Definition.code, pointerSample] at hstep
    | block id => simp [hblocks] at hstep
  case guards =>
    intro code pattern convert hstep
    cases code with
    | main => simp [Definition.code, pointerSample] at hstep
    | block id => simp [hblocks] at hstep
  case fields =>
    intro code step hstep
    cases code with
    | main =>
      simp only [Definition.code, pointerSample, List.mem_cons, List.not_mem_nil, or_false,
        Step.act.injEq, Action.field.injEq] at hstep
      rcases hstep with rfl | rfl | rfl <;> simp [field, pointerSample]
    | block id => simp [hblocks] at hstep

theorem run_longer_pointerSample :
    (pointerSample.analyze ⟨10, 0, false⟩ #[65, 0, 4]).outcome = .exhausted 3 "unused data" ∧
      (pointerSample.analyze ⟨10, 0, false⟩ #[65, 0, 4]).ranges <+:
        (pointerSample.analyze ⟨10, 0, false⟩ (#[65, 0, 4] ++ #[7, 8, 9])).ranges ∧
      pointerSample.analyze ⟨10, 0, false⟩ (#[65, 0, 4, 7, 8, 9] ++ #[1]) =
        pointerSample.analyze ⟨10, 0, false⟩ #[65, 0, 4, 7, 8, 9] :=
  ⟨by decide +kernel,
    (run_longer ignoresEnd_pointerSample rfl #[65, 0, 4] #[7, 8, 9]).1,
    (run_longer ignoresEnd_pointerSample rfl #[65, 0, 4, 7, 8, 9] #[1]).2 (by decide +kernel)⟩

end Definition

end Dissect
