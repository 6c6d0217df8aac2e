import Dissect.Proofs.Extents
import Dissect.Proofs.Literals

/-! Patterns in guards and in tables of options. A guard that converts its pattern turns it around
and holds it against the bytes as they are; a table of options turns the bytes around and holds them
against its patterns. Both ask the same of the bytes at the cursor. -/
namespace Dissect

theorem ByteOrder.msbFirst_msbFirst (order : ByteOrder) (bytes : List UInt8) :
    order.msbFirst (order.msbFirst bytes) = bytes := by
  cases order with
  | big => rfl
  | little => exact List.reverse_reverse bytes

theorem ByteOrder.msbFirst_eq_iff {order : ByteOrder} {bytes pattern : List UInt8} :
    bytes = order.msbFirst pattern ↔ order.msbFirst bytes = pattern := by
  constructor
  · rintro rfl
    exact order.msbFirst_msbFirst pattern
  · rintro rfl
    exact (order.msbFirst_msbFirst bytes).symm

theorem slice?_eq_some_iff {data : Buffer} {start length : Nat} {bytes : List UInt8} :
    slice? data start length = some bytes ↔
      start + length ≤ data.size ∧ data.bytes start length = bytes := by
  rw [slice?, Option.ite_none_right_eq_some, Option.some.injEq]
  rfl

namespace FieldDef
variable {f : FieldDef Nat} {order : ByteOrder} {bytes pattern : List UInt8}

def Finds (f : FieldDef Nat) (order : ByteOrder) (bytes pattern : List UInt8) : Prop :=
  ∃ o, f.option? order bytes = some o ∧ o.pattern = pattern

theorem pattern_of_option? (hbits : f.bits = none) {o : OptionEntry}
    (ho : f.option? order bytes = some o) : o.pattern = order.msbFirst bytes := by
  rw [option?, hbits] at ho
  have hsame := List.find?_some ho
  exact beq_iff_eq.1 hsame

/-- A pattern of the table is found where the bytes are those of the pattern. -/
theorem finds_iff (hbits : f.bits = none) (htable : ∃ o ∈ f.options, o.pattern = pattern) :
    f.Finds order bytes pattern ↔ order.msbFirst bytes = pattern := by
  constructor
  · rintro ⟨o, ho, rfl⟩
    exact (pattern_of_option? hbits ho).symm
  · rintro rfl
    obtain ⟨o, ho, hpattern⟩ := htable
    have hsome : (f.option? order bytes).isSome := by
      rw [option?, hbits, List.find?_isSome]
      exact ⟨o, ho, beq_iff_eq.2 hpattern⟩
    obtain ⟨found, hfound⟩ := Option.isSome_iff_exists.1 hsome
    exact ⟨found, hfound, pattern_of_option? hbits hfound⟩

theorem lines_option (hmode : f.print = .options) (hbytes : bytes ≠ []) {o : OptionEntry}
    (ho : f.option? order bytes = some o) :
    f.lines order bytes = [⟨f.name, o.name, f.tooltip⟩] ∧ (f.read order bytes).known = true := by
  have hread : f.read order bytes = { value := o.name } := by
    simp only [read, hmode, ho]
  rw [lines, if_neg hbytes, hread]
  exact ⟨rfl, rfl⟩

end FieldDef

namespace Definition
variable (d : Definition) (data : Buffer) {s : State} {pattern : List UInt8}

theorem holds_bytes (s : State) (pattern : List UInt8) (convert : Bool) :
    d.holds data s (.bytes pattern convert) = true ↔ s.cursor + pattern.length ≤ data.size ∧
      data.bytes s.cursor pattern.length =
        if convert then (d.endianness.resolve s.store).msbFirst pattern else pattern := by
  have hlength : (if convert then (d.endianness.resolve s.store).msbFirst pattern
      else pattern).length = pattern.length := by
    split
    · exact ByteOrder.length_msbFirst _ pattern
    · rfl
  rw [holds, beq_iff_eq, slice?_eq_some_iff, hlength]

theorem perform_short (maxDepth : Nat) {step : FieldStep Nat} (hoffset : step.offset = none)
    {n : Nat} (hsize : (d.field step.field).size = .fixed n) (hpos : 0 < n)
    (hshort : data.size < s.cursor + n) :
    (d.perform data maxDepth s (.act (.field step))).halted =
      some (.exhausted s.cursor (d.field step.field).name) := by
  have hresolve : (d.field step.field).size.resolve data s.cursor (step.limit.map s.operand) =
      none := by
    rw [SizeRule.resolve_eq_none, hsize]
    show data.size - s.cursor < n
    omega
  simp only [perform, fieldStep, hoffset, Option.map_none, readField, hresolve, thenNext]

/-- A guard that converts its pattern holds just where a field of this size, with the pattern in its
table of options, finds it at the cursor, in the byte order of this moment; and there the field goes
on and shows the name of an option with the pattern. Without conversion the bytes are those of the
pattern as they stand. -/
theorem holds_bytes_iff (s : State) {f : FieldDef Nat} (hsize : f.size = .fixed pattern.length)
    (hbits : f.bits = none) (hmode : f.print = .options)
    (htable : ∃ o ∈ f.options, o.pattern = pattern) :
    let order := d.endianness.resolve s.store
    let bytes := data.bytes s.cursor pattern.length
    (d.holds data s (.bytes pattern true) = true ↔
        s.cursor + pattern.length ≤ data.size ∧ f.Finds order bytes pattern) ∧
      (f.Finds order bytes pattern ↔ order.msbFirst bytes = pattern) ∧
      (d.holds data s (.bytes pattern false) = true ↔
        s.cursor + pattern.length ≤ data.size ∧ bytes = pattern) ∧
      ∀ (maxDepth : Nat) (step : FieldStep Nat), d.field step.field = f → step.offset = none →
        -- No document has an empty pattern, and a field without bytes finds nothing.
        pattern ≠ [] →
        let e := d.perform data maxDepth s (.act (.field step))
        (d.holds data s (.bytes pattern true) = true ↔ e.halted = none ∧
          ∃ o, f.option? order bytes = some o ∧ o.pattern = pattern ∧
            e.Plays s.tabs [.wrote step.tab ⟨f.name, o.name, f.tooltip⟩]) := by
  intro order bytes
  have hfinds : f.Finds order bytes pattern ↔ order.msbFirst bytes = pattern :=
    FieldDef.finds_iff hbits htable
  have hholds : d.holds data s (.bytes pattern true) = true ↔
      s.cursor + pattern.length ≤ data.size ∧ f.Finds order bytes pattern := by
    rw [hfinds, holds_bytes]
    exact and_congr_right fun _ => ByteOrder.msbFirst_eq_iff
  refine ⟨hholds, hfinds, holds_bytes d data s pattern false, ?_⟩
  rintro maxDepth step rfl hoffset hpattern e
  have hstart : s.position step = s.cursor := by
    rw [State.position, hoffset]
    rfl
  by_cases hin : s.cursor + pattern.length ≤ data.size
  · have huses : d.Uses s step s.cursor bytes e := perform_uses d maxDepth hstart (by
      rw [hsize]
      exact ⟨hin, rfl⟩)
    have hbytes : bytes ≠ [] :=
      mt (Buffer.bytes_eq_nil hin).1 (mt List.length_eq_zero_iff.1 hpattern)
    rw [hholds]
    constructor
    · rintro ⟨-, o, ho, hpattern'⟩
      obtain ⟨hlines, hknown⟩ := FieldDef.lines_option hmode hbytes ho
      refine ⟨?_, o, ho, hpattern', ?_⟩
      · rw [huses.halted, if_pos (.inr hknown)]
      · have hplays := huses.plays
        rw [hlines] at hplays
        exact hplays
    · rintro ⟨-, o, ho, hpattern', -⟩
      exact ⟨hin, o, ho, hpattern'⟩
  · refine iff_of_false (fun h => hin (hholds.1 h).1) ?_
    rintro ⟨hhalted, -⟩
    have hexhausted : e.halted = some (.exhausted s.cursor (d.field step.field).name) :=
      perform_short d data maxDepth hoffset hsize (List.length_pos_iff.2 hpattern) (by omega)
    rw [hexhausted] at hhalted
    cases hhalted

def orderSample : Definition where
  name := "n"
  shortName := "s"
  endianness := .captured 0 [0x4D, 0x4D] [0x49, 0x49]
  colors := []
  fields := [
    { FieldDef.unused with size := .fixed 2 },
    { FieldDef.unused with
      name := "kind", size := .fixed 2, print := .options
      options := [⟨"none", [0, 0]⟩, ⟨"first", [1, 2]⟩, ⟨"again", [1, 2]⟩] }]
  signatures := []
  blocks := []
  program := [.act (.field ⟨0, some 0, none, none, none⟩),
    .matchStart (.bytes [1, 2] true), .act (.field ⟨1, none, none, none, none⟩), .matchEnd]
  vars := ["order"]
  unused := 0

/-- The order is little, so the pattern stands the other way around in the buffer. -/
theorem holds_bytes_iff_orderSample :
    let data : Buffer := #[0x49, 0x49, 2, 1]
    let s := (orderSample.moment data {} 1).state
    let f := orderSample.field 1
    let step : FieldStep Nat := ⟨1, none, none, none, none⟩
    let e := orderSample.perform data 0 s (.act (.field step))
    f.size = .fixed 2 ∧ f.bits = none ∧ f.print = .options ∧
      (∃ o ∈ f.options, o.pattern = [1, 2]) ∧
      orderSample.holds data s (.bytes [1, 2] true) = true ∧
      f.Finds .little (data.bytes s.cursor 2) [1, 2] ∧
      ¬orderSample.holds data s (.bytes [1, 2] false) = true ∧
      e.halted = none ∧ e.Plays s.tabs [.wrote none ⟨"kind", "first", none⟩] := by
  intro data s f step e
  have hsize : f.size = .fixed ([1, 2] : List UInt8).length := rfl
  have htable : ∃ o ∈ f.options, o.pattern = [1, 2] := ⟨⟨"first", [1, 2]⟩, by decide, rfl⟩
  obtain ⟨hholds, hfinds, hplain, hstep⟩ :=
    orderSample.holds_bytes_iff data s hsize rfl rfl htable
  have horder : orderSample.endianness.resolve s.store = .little := by decide +kernel
  have hbytes : data.bytes s.cursor ([1, 2] : List UInt8).length = [2, 1] := by decide +kernel
  have hin : s.cursor + 2 ≤ data.size := by decide +kernel
  have hfound : f.Finds .little (data.bytes s.cursor 2) [1, 2] := by
    rw [← horder]
    refine hfinds.2 ?_
    rw [horder, hbytes]
    rfl
  have hguard : orderSample.holds data s (.bytes [1, 2] true) = true :=
    hholds.2 ⟨hin, horder.symm ▸ hfound⟩
  obtain ⟨hhalted, o, ho, -, hplays⟩ := (hstep 0 step rfl rfl (by decide)).1 hguard
  have hfirst : f.option? .little [2, 1] = some ⟨"first", [1, 2]⟩ := by decide +kernel
  rw [horder, hbytes, hfirst] at ho
  cases ho
  refine ⟨rfl, rfl, rfl, htable, hguard, hfound, fun h => ?_, hhalted, hplays⟩
  exact absurd (hbytes.symm.trans (hplain.1 h).2) (by decide)

end Definition

end Dissect
