import Dissect.Proofs.Extents
import Dissect.Proofs.Literals

/-! What field steps capture. A variable gets the bytes its field has taken, and the other variables
keep what they have. Only a field that takes no bytes captures nothing: what its variable had before
stays there. -/
namespace Dissect

/-- One store is another with `v` in one slot. -/
structure Store.Puts (id : Nat) (v : Variable) (s t : Store) : Prop where
  there : t.get? id = some v
  others : ∀ other, other ≠ id → t.get? other = s.get? other

theorem Store.puts_set (s : Store) (id : Nat) (v : Variable) : Puts id v s (s.set id v) := by
  constructor
  case there => rw [get?_set, if_pos rfl]
  case others =>
    intro other hother
    rw [get?_set, if_neg hother]

theorem Store.puts_self_iff {s : Store} {id : Nat} {v : Variable} :
    Puts id v s s ↔ s.get? id = some v :=
  ⟨Puts.there, fun h => ⟨h, fun _ _ => rfl⟩⟩

namespace FieldDef
variable (f : FieldDef Nat) (order : ByteOrder) (bytes : List UInt8)

theorem width_capture : (f.capture order bytes).width = .fitting bytes.length := by
  rw [capture]
  split <;> rfl

theorem integer_capture_nil : (f.capture order []).integer = 0 := by
  by_cases hprint : f.print = .signed ∧ f.bits = none
  · have hzero : Bytes.signExtend (f.word order []) (min ([] : List UInt8).length 8) = 0 := rfl
    rw [capture, if_pos hprint, hzero]
    decide
  · have hzero : (f.word order []).toNat = 0 := Nat.lt_one_iff.1 (f.word_lt order [])
    rw [f.integer_capture order [] hprint (Nat.zero_le _), hzero]
    rfl

end FieldDef

namespace Definition

/-- A field step that is not exhausted captures the bytes it takes, if it takes any; then its
variable is what the field makes of just these bytes. No bytes are a number as well, but with them
its variable is left with what it had. -/
theorem perform_field_captures (d : Definition) (data : Buffer) (maxDepth : Nat) {s : State}
    (hcursor : s.cursor ≤ data.size) {step : FieldStep Nat} {id : Nat} (hvar : step.var = some id)
    (hgoes : ∀ offset field, (d.perform data maxDepth s (.act (.field step))).halted ≠
      some (.exhausted offset field)) :
    let f := d.field step.field
    let after := (d.perform data maxDepth s (.act (.field step))).state.store
    ∃ start n : Nat, s.position step = start ∧
      f.size.Takes data start (step.limit.map s.operand) n ∧
      let bytes := data.bytes start n
      let v := f.capture (d.endianness.resolve s.store) bytes
      (bytes.length = n ∧ v.raw = bytes ∧ v.width = .fitting n ∧ (n = 0 → v.integer = 0)) ∧
      (n = 0 → after = s.store) ∧
      (Store.Puts id v s.store after ↔ 0 < n ∨ s.store.get? id = some v) := by
  intro f after
  obtain ⟨-, offset, he⟩ | ⟨-, start, n, hstart, htakes, huses⟩ :=
    perform_field_cases d maxDepth hcursor step
  · rw [he] at hgoes
    exact absurd rfl (hgoes offset _)
  refine ⟨start, n, hstart, htakes, ?_⟩
  intro bytes v
  have hlength : bytes.length = n := Buffer.length_bytes htakes.1
  have hnil : bytes = [] ↔ n = 0 := Buffer.bytes_eq_nil htakes.1
  have hafter : after = if bytes = [] then s.store else s.store.set id v := huses.captured hvar
  refine ⟨⟨hlength, rfl, hlength ▸ f.width_capture _ bytes, fun hzero => ?_⟩, fun hzero => ?_, ?_⟩
  · have hv : v = f.capture (d.endianness.resolve s.store) [] :=
      congrArg (f.capture _) (hnil.2 hzero)
    rw [hv, f.integer_capture_nil]
  · rw [hafter, if_pos (hnil.2 hzero)]
  · by_cases hzero : n = 0
    · rw [hafter, if_pos (hnil.2 hzero), Store.puts_self_iff]
      simp [hzero]
    · rw [hafter, if_neg (mt hnil.1 hzero)]
      exact iff_of_true (s.store.puts_set id v) (.inl (Nat.pos_of_ne_zero hzero))

/-- A byte, and after it as much of the rest as a limit lets through. Both are captured in the same
variable. -/
def restSample : Definition where
  name := "n"
  shortName := "s"
  endianness := .big
  colors := []
  fields := [{ FieldDef.unused with size := .fixed 1, print := .unsigned },
    { FieldDef.unused with size := .remaining, print := .signed }]
  signatures := []
  blocks := []
  program := [.act (.field ⟨0, some 0, none, none, none⟩),
    .act (.field ⟨1, some 0, none, some (.literal 0), none⟩),
    .act (.field ⟨1, some 0, none, none, none⟩)]
  vars := ["a"]
  unused := 0

theorem perform_field_captures_restSample :
    let data : Buffer := #[5, 0xFF, 0xFE]
    let s := (restSample.moment data {} 2).state
    let step : FieldStep Nat := ⟨1, some 0, none, none, none⟩
    let after := (restSample.perform data 0 s (.act (.field step))).state.store
    s.cursor ≤ data.size ∧ (∀ offset field, (restSample.perform data 0 s
        (.act (.field step))).halted ≠ some (.exhausted offset field)) ∧
      Store.Puts 0 ((restSample.field 1).capture .big [0xFF, 0xFE]) s.store after ∧
      after.integer? 0 = some (-2) := by
  intro data s step after
  have hcursor : s.cursor ≤ data.size := moment_cursor_le 2
  have hvar : step.var = some 0 := rfl
  have hhalted : (restSample.perform data 0 s (.act (.field step))).halted = none := by
    decide +kernel
  have hgoes : ∀ offset field, (restSample.perform data 0 s (.act (.field step))).halted ≠
      some (.exhausted offset field) := by
    rw [hhalted]
    intro offset field h
    cases h
  obtain ⟨start, n, hstart, htakes, -, -, hputs⟩ :=
    restSample.perform_field_captures data 0 hcursor hvar hgoes
  obtain rfl : start = 1 := by
    have hone : s.position step = 1 := by decide +kernel
    exact Int.natCast_inj.1 (hstart.symm.trans hone)
  obtain rfl : n = 2 := htakes.2
  exact ⟨hcursor, hgoes, hputs.2 (.inl (by decide)), by decide +kernel⟩

/-- With a limit of zero the rest takes no bytes, and the variable still has the byte. -/
theorem not_puts_restSample :
    let data : Buffer := #[5, 0xFF, 0xFE]
    let s := (restSample.moment data {} 1).state
    let step : FieldStep Nat := ⟨1, some 0, none, some (.literal 0), none⟩
    let e := restSample.perform data 0 s (.act (.field step))
    restSample.step? s.place = some (.act (.field step)) ∧ e.halted = none ∧
      s.position step = 1 ∧
      (restSample.field 1).size.Takes data 1 (step.limit.map s.operand) 0 ∧
      ¬Store.Puts 0 ((restSample.field 1).capture .big (data.bytes 1 0)) s.store e.state.store ∧
      ((restSample.field 1).capture .big (data.bytes 1 0)).integer = 0 ∧
      e.state.store.integer? 0 = some 5 := by
  intro data s step e
  refine ⟨?_, ?_, ?_, ⟨by decide, rfl⟩, ?_, FieldDef.integer_capture_nil _ _, ?_⟩
  case refine_4 =>
    intro hputs
    have hthere := hputs.there
    revert hthere
    decide +kernel
  all_goals decide +kernel

end Definition

end Dissect
