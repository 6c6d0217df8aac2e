import Dissect.Proofs.Delivery
import Dissect.Proofs.Tiling

/-! Where a field step reads and how many bytes it takes. A field is at its offset or at the cursor,
and its size, a limit and a terminator decide together how far it goes. Where the buffer does not
have what is asked for, nothing is done; otherwise the bytes that are taken are all that the step
takes notice of. -/
namespace Dissect

def Buffer.Lacks (data : Buffer) (byte : UInt8) (start n : Nat) : Prop :=
  ∀ i < n, data[start + i]? ≠ some byte

section Terminators
variable {data : Buffer} {byte : UInt8}

theorem lacks_zero (start : Nat) : data.Lacks byte start 0 :=
  fun _ h => absurd h (Nat.not_lt_zero _)

theorem lacks_succ {start n : Nat} :
    data.Lacks byte start (n + 1) ↔ data[start]? ≠ some byte ∧ data.Lacks byte (start + 1) n := by
  constructor
  · intro h
    refine ⟨h 0 (Nat.succ_pos n), fun i hi => ?_⟩
    have hnext := h (i + 1) (Nat.succ_lt_succ hi)
    rwa [show start + (i + 1) = start + 1 + i by omega] at hnext
  · rintro ⟨hfirst, hrest⟩ i hi
    cases i with
    | zero => exact hfirst
    | succ i =>
      have hnext := hrest i (Nat.lt_of_succ_lt_succ hi)
      rwa [show start + 1 + i = start + (i + 1) by omega] at hnext

theorem findByte_eq_some {start window i : Nat} : findByte data byte start window = some i ↔
    ∃ n < window, i = start + n ∧ data[start + n]? = some byte ∧ data.Lacks byte start n := by
  induction window generalizing start with
  | zero => simp [findByte]
  | succ window ih =>
    rw [findByte]
    by_cases hbyte : data[start]? = some byte
    · rw [if_pos hbyte]
      constructor
      · rintro ⟨⟩
        exact ⟨0, Nat.succ_pos _, rfl, hbyte, lacks_zero _⟩
      · rintro ⟨n, -, rfl, -, hfree⟩
        cases n with
        | zero => rfl
        | succ n => exact absurd hbyte (lacks_succ.1 hfree).1
    · rw [if_neg hbyte, ih]
      constructor
      · rintro ⟨n, hn, rfl, hat, hfree⟩
        refine ⟨n + 1, Nat.succ_lt_succ hn, by omega, ?_, lacks_succ.2 ⟨hbyte, hfree⟩⟩
        rwa [show start + (n + 1) = start + 1 + n by omega]
      · rintro ⟨n, hn, rfl, hat, hfree⟩
        cases n with
        | zero => exact absurd hat hbyte
        | succ n =>
          refine ⟨n, Nat.lt_of_succ_lt_succ hn, by omega, ?_, (lacks_succ.1 hfree).2⟩
          rwa [show start + 1 + n = start + (n + 1) by omega]

theorem findByte_eq_none {start window : Nat} :
    findByte data byte start window = none ↔ data.Lacks byte start window := by
  induction window generalizing start with
  | zero => exact iff_of_true rfl (lacks_zero start)
  | succ window ih =>
    rw [findByte, lacks_succ, ← ih]
    by_cases hbyte : data[start]? = some byte <;> simp [hbyte]

end Terminators

namespace SizeRule

/-- A field takes `n` bytes from `start` on. With a terminator it ends at the first one, or else at
its limit. -/
def Takes (size : SizeRule) (data : Buffer) (start : Nat) (limit : Option Int) (n : Nat) : Prop :=
  start + n ≤ data.size ∧
    match size with
    | .fixed k => n = k
    | .remaining => n = limit.elim (data.size - start) Int.toNat
    | .terminated byte =>
      (∃ k, n = k + 1 ∧ data[start + k]? = some byte ∧ data.Lacks byte start k ∧
        ∀ l ∈ limit, n ≤ l.toNat) ∨
      ∃ l ∈ limit, n = l.toNat ∧ data.Lacks byte start n

/-- How far a field looks for its terminator: as far as there are bytes, and no further than its
limit. -/
def window (left : Nat) (limit : Option Int) : Nat := limit.elim left fun l => min l.toNat left

theorem lt_window {left k : Nat} {limit : Option Int} :
    k < window left limit ↔ k < left ∧ ∀ l ∈ limit, k < l.toNat := by
  cases limit with
  | none => simp [window]
  | some l =>
    simp only [window, Option.elim_some, Option.mem_some_iff, forall_eq']
    omega

/-- The buffer does not have from `start` on what a field asks for: so many bytes, as many as its
limit says, or its terminator where it looks for it. -/
def Exceeds (size : SizeRule) (data : Buffer) (start : Nat) (limit : Option Int) : Prop :=
  let left := data.size - start
  match size with
  | .fixed n => left < n
  | .remaining => ∃ l ∈ limit, left < l.toNat
  | .terminated byte =>
    data.Lacks byte start (window left limit) ∧ ∀ l ∈ limit, left < l.toNat

variable {size : SizeRule} {data : Buffer} {byte : UInt8} {start : Nat} {limit : Option Int}

theorem resolve_terminated : (terminated byte).resolve data start limit =
    match findByte data byte start (window (data.size - start) limit) with
    | some i => some (i + 1 - start)
    | none => limit.bind fun l => if l.toNat ≤ data.size - start then some l.toNat else none := by
  cases limit with
  | none => rfl
  | some l =>
    rw [window, Option.elim_some, Nat.min_comm]
    rfl

theorem resolve_eq_none : size.resolve data start limit = none ↔ size.Exceeds data start limit := by
  cases size with
  | fixed k => simp [resolve, Exceeds]
  | remaining => cases limit <;> simp [resolve, Exceeds]
  | terminated byte =>
    rw [resolve_terminated, Exceeds, ← findByte_eq_none]
    cases findByte data byte start (window (data.size - start) limit) with
    | some i => simp
    | none => cases limit <;> simp

theorem takes_iff_of_found {k n : Nat} (hat : data[start + k]? = some byte)
    (hfree : data.Lacks byte start k) (hlimit : ∀ l ∈ limit, k < l.toNat) :
    (terminated byte).Takes data start limit n ↔ start + n ≤ data.size ∧ n = k + 1 := by
  refine and_congr_right fun _ => ?_
  constructor
  · rintro (⟨j, rfl, hat', hfree', -⟩ | ⟨l, hl, rfl, hfree'⟩)
    · -- Of two first terminators neither is before the other.
      rcases Nat.lt_trichotomy j k with hlt | rfl | hlt
      · exact absurd hat' (hfree j hlt)
      · rfl
      · exact absurd hat (hfree' k hlt)
    · exact absurd hat (hfree' k (hlimit l hl))
  · rintro rfl
    exact .inl ⟨k, rfl, hat, hfree, hlimit⟩

theorem takes_iff_of_missing {n : Nat}
    (hfree : data.Lacks byte start (window (data.size - start) limit)) :
    (terminated byte).Takes data start limit n ↔
      start + n ≤ data.size ∧ ∃ l ∈ limit, n = l.toNat := by
  refine and_congr_right fun hin => ?_
  constructor
  · rintro (⟨k, rfl, hat, -, hlimit⟩ | ⟨l, hl, rfl, -⟩)
    · exact absurd hat (hfree k (lt_window.2 ⟨by omega, fun l hl => hlimit l hl⟩))
    · exact ⟨l, hl, rfl⟩
  · rintro ⟨l, hl, rfl⟩
    refine .inr ⟨l, hl, rfl, fun i hi => hfree i (lt_window.2 ⟨by omega, fun l' hl' => ?_⟩)⟩
    rwa [Option.mem_unique hl' hl]

theorem resolve_eq_some (h : start ≤ data.size) {n : Nat} :
    size.resolve data start limit = some n ↔ size.Takes data start limit n := by
  have hleft {k : Nat} : (if k ≤ data.size - start then some k else none) = some n ↔
      start + n ≤ data.size ∧ n = k := by
    rw [Option.ite_none_right_eq_some, Option.some.injEq]
    omega
  cases size with
  | fixed k => exact hleft
  | remaining =>
    cases limit with
    | none =>
      rw [resolve, Option.map_none, Option.some.injEq, Takes, Option.elim_none]
      omega
    | some l => exact hleft
  | terminated byte =>
    rw [resolve_terminated]
    cases hfind : findByte data byte start (window (data.size - start) limit) with
    | some i =>
      obtain ⟨k, hk, rfl, hat, hfree⟩ := findByte_eq_some.1 hfind
      obtain ⟨hin, hlimit⟩ := lt_window.1 hk
      rw [takes_iff_of_found hat hfree hlimit, Option.some.injEq]
      omega
    | none =>
      rw [takes_iff_of_missing (findByte_eq_none.1 hfind)]
      cases limit with
      | none => simp
      | some l => simpa only [Option.bind_some, Option.mem_some_iff, exists_eq_left'] using hleft

theorem Takes.start_le {n : Nat} (h : size.Takes data start limit n) : start ≤ data.size :=
  (Nat.le_add_right start n).trans h.1

theorem Takes.not_exceeds {n : Nat} (h : size.Takes data start limit n) :
    ¬size.Exceeds data start limit := by
  rw [← resolve_eq_none, (resolve_eq_some h.start_le).2 h]
  exact Option.some_ne_none n

end SizeRule

/-- Where the field of a step is: at the offset of the step, or else at the cursor. -/
def State.position (s : State) (step : FieldStep Nat) : Int :=
  (step.offset.map s.operand).getD s.cursor

namespace State
variable {s : State} {step : FieldStep Nat} {start : Nat}

theorem position_of_offset {o : Operand Nat} (ho : step.offset = some o) :
    s.position step = s.operand o := by
  rw [position, ho]
  rfl

theorem cursor_of_position (h : s.position step = start) :
    (if step.offset.isSome then s.cursor else start) = s.cursor := by
  cases ho : step.offset with
  | some o => rfl
  | none =>
    rw [position, ho] at h
    exact (Int.natCast_inj.1 h).symm

theorem position_cases {data : Buffer} (hcursor : s.cursor ≤ data.size) (step : FieldStep Nat) :
    (∃ start : Nat, s.position step = start ∧ start ≤ data.size) ∨
      ∃ o, step.offset = some o ∧ ¬(0 ≤ s.operand o ∧ s.operand o ≤ data.size) := by
  cases ho : step.offset with
  | none =>
    refine .inl ⟨s.cursor, ?_, hcursor⟩
    rw [position, ho]
    rfl
  | some o =>
    by_cases hin : 0 ≤ s.operand o ∧ s.operand o ≤ data.size
    · refine .inl ⟨(s.operand o).toNat, ?_, by omega⟩
      rw [position_of_offset ho, Int.toNat_of_nonneg hin.1]
    · exact .inr ⟨o, rfl, hin⟩

end State

def Buffer.bytes (data : Buffer) (start n : Nat) : List UInt8 :=
  (data.extract start (start + n)).toList

theorem Buffer.length_bytes {data : Buffer} {start n : Nat} (h : start + n ≤ data.size) :
    (data.bytes start n).length = n := by
  rw [bytes, Array.length_toList, Array.size_extract]
  omega

theorem Buffer.bytes_eq_nil {data : Buffer} {start n : Nat} (h : start + n ≤ data.size) :
    data.bytes start n = [] ↔ n = 0 := by
  rw [← List.length_eq_zero_iff, length_bytes h]

/-- What a field says of the bytes it has taken. For no bytes that is a blank line. -/
def FieldDef.lines (f : FieldDef Nat) (order : ByteOrder) (bytes : List UInt8) : List Line :=
  if bytes = [] then [⟨f.name, "", none⟩]
  else ⟨f.name, (f.read order bytes).value, f.tooltip⟩ :: (f.read order bytes).extra

namespace Definition

/-- A field step asks for what the buffer does not have: an offset outside of it, or more than it
has where the field is. -/
def Exceeds (d : Definition) (data : Buffer) (s : State) (step : FieldStep Nat) : Prop :=
  (∃ o ∈ step.offset, s.operand o < 0 ∨ data.size < s.operand o) ∨
    ∃ start : Nat, s.position step = start ∧
      (d.field step.field).size.Exceeds data start (step.limit.map s.operand)

/-- What a field step does with the bytes it takes from `start` on. They are shown; unless they are
cut to bits they get a range, and the cursor moves by them if it was there that they were read. No
bytes are not captured. -/
structure Uses (d : Definition) (s : State) (step : FieldStep Nat) (start : Nat)
    (bytes : List UInt8) (e : Effect) : Prop where
  plays : e.Plays s.tabs (((d.field step.field).lines (d.endianness.resolve s.store) bytes).map
    (.wrote step.tab))
  ranges : rangesOf e.events =
    if bytes = [] ∨ (d.field step.field).bits.isSome then []
    else [d.taggedRange (d.field step.field) start bytes.length]
  cursor : e.state.cursor =
    if step.offset.isSome ∨ (d.field step.field).bits.isSome then s.cursor
    else s.cursor + bytes.length
  store : e.state.store = match step.var with
    | some id =>
      if bytes = [] then s.store
      else s.store.set id ((d.field step.field).capture (d.endianness.resolve s.store) bytes)
    | none => s.store
  halted : e.halted =
    if bytes = [] ∨ ((d.field step.field).read (d.endianness.resolve s.store) bytes).known then none
    else some (.unknownValue start (d.field step.field).name)
  others : e.state = { s.next with
    tabs := e.state.tabs, cursor := e.state.cursor, store := e.state.store }

variable {d : Definition} {data : Buffer} {s : State} {step : FieldStep Nat}

theorem readField_eq (step : FieldStep Nat) {f : FieldDef Nat} {n : Nat}
    (h : f.size.Takes data s.cursor (step.limit.map s.operand) n) :
    let bytes := data.bytes s.cursor n
    let order := d.endianness.resolve s.store
    let shown := s.writeLines step.tab (f.lines order bytes)
    d.readField data s f step =
      { state := { shown.1 with
          store := match step.var with
            | some id => if bytes = [] then s.store else s.store.set id (f.capture order bytes)
            | none => s.store
          cursor := if f.bits.isSome then s.cursor else s.cursor + bytes.length }
        events := (if bytes = [] ∨ f.bits.isSome then []
          else [.range (d.taggedRange f s.cursor bytes.length)]) ++ shown.2
        halted := if bytes = [] ∨ (f.read order bytes).known then none
          else some (.unknownValue s.cursor f.name) } := by
  intro bytes order shown
  have hlength : bytes.length = n := Buffer.length_bytes h.1
  rw [readField, (SizeRule.resolve_eq_some h.start_le).2 h]
  cases n with
  | zero =>
    have hnil : bytes = [] := List.length_eq_zero_iff.1 hlength
    simp only [shown, FieldDef.lines, hnil, true_or, if_true, List.length_nil, List.nil_append]
    cases step.tab <;> cases step.var <;> cases f.bits <;> rfl
  | succ n =>
    have hne : bytes ≠ [] := List.ne_nil_of_length_eq_add_one hlength
    simp only [shown, FieldDef.lines, hne, false_or, if_false, hlength]
    rfl

theorem fieldStep_at {start : Nat} (hstart : s.position step = start) (hin : start ≤ data.size) :
    let effect := d.readField data { s with cursor := start } (d.field step.field) step
    d.fieldStep data s step = { effect with state := { effect.state with
      cursor := if step.offset.isSome then s.cursor else effect.state.cursor } } := by
  intro effect
  have hcursor := State.cursor_of_position hstart
  cases ho : step.offset with
  | none =>
    rw [ho] at hcursor
    obtain rfl : start = s.cursor := hcursor
    simp only [fieldStep, ho, Option.map_none]
    rfl
  | some o =>
    rw [State.position_of_offset ho] at hstart
    simp only [fieldStep, ho, Option.map_some, hstart]
    rw [if_pos (by omega)]
    rfl

variable (d) in
theorem perform_uses (maxDepth : Nat) {start n : Nat} (hstart : s.position step = start)
    (h : (d.field step.field).size.Takes data start (step.limit.map s.operand) n) :
    d.Uses s step start (data.bytes start n)
      (d.perform data maxDepth s (.act (.field step))) := by
  have hlength := Buffer.length_bytes h.1
  have hread := readField_eq (d := d) (s := { s with cursor := start }) step h
  obtain ⟨htabs, hevents⟩ := play_writeLines { s with cursor := start } step.tab
    ((d.field step.field).lines (d.endianness.resolve s.store) (data.bytes start n))
  rw [perform, fieldStep_at hstart h.start_le, hread]
  constructor
  case plays =>
    refine ⟨htabs, (linesOf_append _ _).trans ?_, (tabsOf_append _ _).trans ?_⟩
    · refine Eq.trans ?_ (congrArg linesOf hevents)
      split <;> rfl
    · refine Eq.trans ?_ (congrArg tabsOf hevents)
      split <;> rfl
  case ranges =>
    refine (rangesOf_append _ _).trans ?_
    rw [rangesOf_writeLines, List.append_nil]
    split <;> rfl
  case cursor =>
    -- With an offset the cursor comes back, and without one the field was at the cursor.
    change (if step.offset.isSome then s.cursor else if (d.field step.field).bits.isSome then start
      else start + (data.bytes start n).length) = _
    have hcursor := State.cursor_of_position hstart
    by_cases ho : step.offset.isSome
    · simp [ho]
    · rw [if_neg ho] at hcursor
      simp [ho, hcursor]
  case store => rfl
  case halted => rfl
  case others => cases step.tab <;> rfl

theorem Uses.captured {start id : Nat} {bytes : List UInt8} {e : Effect}
    (h : d.Uses s step start bytes e) (hvar : step.var = some id) :
    e.state.store = if bytes = [] then s.store
      else s.store.set id ((d.field step.field).capture (d.endianness.resolve s.store) bytes) := by
  rw [h.store, hvar]

theorem Uses.not_exhausted {start : Nat} {bytes : List UInt8} {e : Effect}
    (h : d.Uses s step start bytes e) (offset : Nat) (field : String) :
    e.halted ≠ some (.exhausted offset field) := by
  rw [h.halted]
  split <;> simp

variable (d) in
theorem perform_field_cases (maxDepth : Nat) (hcursor : s.cursor ≤ data.size)
    (step : FieldStep Nat) :
    (d.Exceeds data s step ∧ ∃ offset, d.perform data maxDepth s (.act (.field step)) =
      { state := s.next, halted := some (.exhausted offset (d.field step.field).name) }) ∨
    ¬d.Exceeds data s step ∧ ∃ start n : Nat, s.position step = start ∧
      (d.field step.field).size.Takes data start (step.limit.map s.operand) n ∧
      d.Uses s step start (data.bytes start n)
        (d.perform data maxDepth s (.act (.field step))) := by
  obtain ⟨start, hstart, hin⟩ | ⟨o, ho, hout⟩ := State.position_cases hcursor step
  · -- The place is in the buffer, so only the size can ask for too much.
    cases hsize : (d.field step.field).size.resolve data start (step.limit.map s.operand) with
    | none =>
      have hexceeds := SizeRule.resolve_eq_none.1 hsize
      refine .inl ⟨.inr ⟨start, hstart, hexceeds⟩, start, ?_⟩
      have hread : d.readField data { s with cursor := start } (d.field step.field) step =
          { state := { s with cursor := start }
            halted := some (.exhausted start (d.field step.field).name) } := by
        have hthere : (d.field step.field).size.resolve data
            ({ s with cursor := start } : State).cursor
            (step.limit.map ({ s with cursor := start } : State).operand) = none := hsize
        rw [readField, hthere]
      rw [perform, fieldStep_at hstart hin, hread]
      dsimp only
      rw [State.cursor_of_position hstart]
      rfl
    | some n =>
      have htakes := (SizeRule.resolve_eq_some hin).1 hsize
      refine .inr ⟨?_, start, n, hstart, htakes, perform_uses d maxDepth hstart htakes⟩
      rintro (⟨o, ho, hout⟩ | ⟨start', hstart', hexceeds⟩)
      · rw [State.position_of_offset ho] at hstart
        omega
      · obtain rfl : start = start' := Int.natCast_inj.1 (hstart.symm.trans hstart')
        exact htakes.not_exceeds hexceeds
  · refine .inl ⟨.inl ⟨o, ho, by omega⟩, s.cursor, ?_⟩
    simp only [perform, fieldStep, ho, Option.map_some, if_neg hout]
    rfl

/-- A field step is exhausted just where it asks for what the buffer does not have, and then does
nothing but go on to the next place. Otherwise it takes as many bytes as its size, its limit and the
first terminator say, and what it does it does with these. -/
theorem perform_field_exhausted_iff (d : Definition) (data : Buffer) (maxDepth : Nat) {s : State}
    (hcursor : s.cursor ≤ data.size) (step : FieldStep Nat) :
    let e := d.perform data maxDepth s (.act (.field step))
    ((∃ offset field, e.halted = some (.exhausted offset field)) ↔ d.Exceeds data s step) ∧
      (d.Exceeds data s step → e.state = s.next ∧ e.events = []) ∧
      (¬d.Exceeds data s step → ∃ start n : Nat, s.position step = start ∧
        (d.field step.field).size.Takes data start (step.limit.map s.operand) n ∧
        d.Uses s step start (data.bytes start n) e) := by
  intro e
  obtain ⟨hexceeds, offset, he⟩ | ⟨hin, start, n, hstart, htakes, huses⟩ :=
    perform_field_cases d maxDepth hcursor step
  · have he' : e = _ := he
    rw [he']
    exact ⟨iff_of_true ⟨offset, _, rfl⟩ hexceeds, fun _ => ⟨rfl, rfl⟩,
      fun hin => absurd hexceeds hin⟩
  · refine ⟨iff_of_false ?_ hin, fun hexceeds => absurd hexceeds hin,
      fun _ => ⟨start, n, hstart, htakes, huses⟩⟩
    rintro ⟨offset, field, hhalted⟩
    exact huses.not_exhausted offset field hhalted

def textSample : Definition where
  name := "n"
  shortName := "s"
  endianness := .big
  colors := []
  fields := [{ FieldDef.unused with size := .terminated 0, print := .text }]
  signatures := []
  blocks := []
  program := []
  vars := []
  unused := 0

/-- The limit of the first step lies outside the buffer, but the terminator does not; for the second
one there is neither. -/
theorem perform_field_exhausted_iff_textSample :
    let data : Buffer := #[65, 66, 0, 67]
    let s : State := { State.initial textSample with cursor := 1 }
    let near : FieldStep Nat := ⟨0, none, none, some (.literal 9), none⟩
    let far : FieldStep Nat := ⟨0, none, some (.literal 3), some (.literal 2), none⟩
    s.cursor ≤ data.size ∧
      (∃ start n : Nat, s.position near = start ∧
        (textSample.field 0).size.Takes data start (some 9) n ∧
        textSample.Uses s near start (data.bytes start n)
          (textSample.perform data 0 s (.act (.field near)))) ∧
      textSample.Exceeds data s far ∧
      (textSample.perform data 0 s (.act (.field far))).state = s.next ∧
      (textSample.perform data 0 s (.act (.field far))).events = [] := by
  intro data s near far
  have hcursor : s.cursor ≤ data.size := by decide
  obtain ⟨hnear, -, huses⟩ := textSample.perform_field_exhausted_iff data 0 hcursor near
  obtain ⟨hfar, hsame, -⟩ := textSample.perform_field_exhausted_iff data 0 hcursor far
  have hread : ¬textSample.Exceeds data s near := by
    rw [← hnear]
    rintro ⟨offset, field, hhalted⟩
    have hnone : (textSample.perform data 0 s (.act (.field near))).halted = none := by
      decide +kernel
    rw [hnone] at hhalted
    cases hhalted
  have hexceeds : textSample.Exceeds data s far := by
    refine hfar.1 ⟨3, "unused data", ?_⟩
    decide +kernel
  exact ⟨hcursor, huses hread, hexceeds, hsame hexceeds⟩

end Definition
end Dissect
