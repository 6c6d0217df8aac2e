import Dissect.Proofs.Arithmetic

/-! Buffers with more bytes behind them. What a signature looks at in a buffer is in every longer
one, at the same place and in the same byte order, so a signature that accepts a buffer accepts the
longer ones. Places are words of 64 bits, and none of them comes round to the front of the
buffer. -/
namespace Dissect

/-! ### Steps over a longer buffer -/

section Longer
variable {data : Buffer} {policy : Endianness Nat} {store : Store}

theorem slice?_append (more : Buffer) {start length : Nat} {bytes : List UInt8}
    (h : slice? data start length = some bytes) :
    slice? (data ++ more) start length = some bytes := by
  rw [slice?] at h ⊢
  by_cases hin : start + length ≤ data.size
  · rw [if_pos hin] at h
    have hin' : start + length ≤ (data ++ more).size := by
      rw [Array.size_append]
      omega
    have hbehind : more.extract (start - data.size) (start + length - data.size) = #[] :=
      Array.extract_empty_of_stop_le_start (by omega)
    rw [if_pos hin', Array.extract_append, hbehind, Array.append_empty, h]
  · rw [if_neg hin] at h
    cases h

theorem MagicStep.run_append (more : Buffer) {pos : Nat} {step : MagicStep Nat}
    {after : Nat × Store}
    (h : step.run policy data store pos = some after) :
    step.run policy (data ++ more) store pos = some after := by
  cases step with
  | pattern bytes offset =>
    rw [run] at h ⊢
    by_cases hfound : slice? data pos bytes.length = some bytes
    · rw [if_pos hfound] at h
      rw [if_pos (slice?_append more hfound), h]
    · rw [if_neg hfound] at h
      cases h
  | capture var width offset =>
    rw [run] at h ⊢
    obtain ⟨bytes, hbytes, hafter⟩ := Option.map_eq_some_iff.1 h
    rw [slice?_append more hbytes, Option.map_some, hafter]

theorem judge_append (more : Buffer) {s : Signature Nat} {cursor index : Nat}
    (h : judge policy data cursor store index s = .accepted) :
    judge policy (data ++ more) cursor store index s = .accepted := by
  induction s generalizing cursor store index with
  | nil => rfl
  | cons step rest ih =>
    rw [judge] at h ⊢
    cases hplace : MagicStep.place step.offset cursor store with
    | none =>
      rw [hplace] at h
      cases h
    | some pos =>
      rw [hplace] at h
      dsimp only at h ⊢
      cases hrun : step.run policy data store pos with
      | none =>
        rw [hrun] at h
        cases h
      | some after =>
        rw [hrun] at h
        rw [MagicStep.run_append more hrun]
        exact ih h

end Longer

theorem findIdx?_le_of_imp {α : Type} {p q : α → Bool} (h : ∀ a, p a = true → q a = true)
    {xs : List α} {i : Nat} (hi : xs.findIdx? p = some i) : ∃ j ≤ i, xs.findIdx? q = some j := by
  induction xs generalizing i with
  | nil => cases hi
  | cons a xs ih =>
    rw [List.findIdx?_cons] at hi ⊢
    by_cases hq : q a = true
    · exact ⟨0, Nat.zero_le i, if_pos hq⟩
    · have hp : ¬p a = true := fun hp => hq (h a hp)
      rw [if_neg hp] at hi
      obtain ⟨k, hk, rfl⟩ := Option.map_eq_some_iff.1 hi
      obtain ⟨j, hjk, hj⟩ := ih hk
      refine ⟨j + 1, Nat.succ_le_succ hjk, ?_⟩
      rw [if_neg hq, hj, Option.map_some]

/-! ### Places as words -/

namespace Addressed

def place? (n : Int) : Option UInt64 := if 0 ≤ n ∧ n < 2 ^ 64 then some (UInt64.ofInt n) else none

def stop? (start : UInt64) (length : Nat) : Option UInt64 :=
  if start.toNat + length < 2 ^ 64 then some (start + UInt64.ofNat length) else none

def slice? (data : Buffer) (start : UInt64) (length : Nat) : Option (List UInt8 × UInt64) :=
  (stop? start length).bind fun stop =>
    if stop.toNat ≤ data.size then some ((data.extract start.toNat stop.toNat).toList, stop)
    else none

def place (offset : Option (Operand Nat)) (cursor : UInt64) (store : Store) : Option UInt64 :=
  match offset with
  | none => some cursor
  | some (.literal v) => place? v.toInt
  | some (.var id) => place? ((store.integer? id).getD 0)

def run (policy : Endianness Nat) (data : Buffer) (store : Store) (pos : UInt64) :
    MagicStep Nat → Option (UInt64 × Store)
  | .pattern bytes _ => (slice? data pos bytes.length).bind fun found =>
    if found.1 = bytes then some (found.2, store) else none
  | .capture var width _ => (slice? data pos width.bytes).map fun found =>
    let word := Bytes.word (policy.resolve store) found.1
    (found.2, store.set var ((Variable.ofUnsigned width word).withRaw found.1))

def judge (policy : Endianness Nat) (data : Buffer) (cursor : UInt64) (store : Store)
    (index : Nat) : Signature Nat → Verdict
  | [] => .accepted
  | step :: rest =>
    match place step.offset cursor store with
    | none => .misplaced
    | some pos =>
      match run policy data store pos step with
      | none => .rejected index
      | some (cursor, store) => judge policy data cursor store (index + 1) rest

variable {data : Buffer} {policy : Endianness Nat} {store : Store}

theorem toNat_place? {n : Int} (h : n < 2 ^ 64) :
    (place? n).map UInt64.toNat = if 0 ≤ n then some n.toNat else none := by
  rw [place?]
  by_cases hn : 0 ≤ n
  · have hword : ((UInt64.ofInt n).toNat : Int) = n := by
      rw [Width.toNat_ofInt]
      exact Width.wrap_eq_self ⟨hn, h⟩
    rw [if_pos ⟨hn, h⟩, if_pos hn, Option.map_some]
    congr 1
    omega
  · rw [if_neg (fun hboth => hn hboth.1), if_neg hn, Option.map_none]

/-- Neither a literal nor a variable is past the last word. -/
theorem toNat_place (offset : Option (Operand Nat)) (cursor : UInt64) (store : Store) :
    (place offset cursor store).map UInt64.toNat =
      MagicStep.place offset cursor.toNat store := by
  cases offset with
  | none => rfl
  | some o =>
    cases o with
    | literal v => exact toNat_place? (v.toInt_lt.trans (by decide))
    | var id =>
      refine toNat_place? ?_
      rw [Store.integer?]
      cases store.get? id with
      | none => decide
      | some v =>
        have hpow : (2 : Int) ^ v.width.bits ≤ 2 ^ 64 := by cases v.width <;> decide
        exact v.integer_has.bounds.2.trans_le hpow

theorem slice?_cases (hdata : data.size < 2 ^ 64) (start : UInt64) (length : Nat) :
    (slice? data start length = none ∧ Dissect.slice? data start.toNat length = none) ∨
      ∃ bytes stop, slice? data start length = some (bytes, stop) ∧
        stop.toNat = start.toNat + length ∧
        Dissect.slice? data start.toNat length = some bytes := by
  rw [slice?, stop?, Dissect.slice?]
  by_cases hword : start.toNat + length < 2 ^ 64
  · have hlength : length < UInt64.size := by
      change length < 2 ^ 64
      omega
    have hstop : (start + UInt64.ofNat length).toNat = start.toNat + length := by
      rw [UInt64.toNat_add, UInt64.toNat_ofNat_of_lt' hlength, Nat.mod_eq_of_lt hword]
    rw [if_pos hword, Option.bind_some, hstop]
    by_cases hin : start.toNat + length ≤ data.size
    · rw [if_pos hin, if_pos hin]
      exact .inr ⟨_, _, rfl, hstop, rfl⟩
    · rw [if_neg hin, if_neg hin]
      exact .inl ⟨rfl, rfl⟩
  · rw [if_neg hword, if_neg (by omega)]
    exact .inl ⟨rfl, rfl⟩

theorem run_eq (hdata : data.size < 2 ^ 64) (pos : UInt64) (step : MagicStep Nat) :
    (run policy data store pos step).map (Prod.map UInt64.toNat id) =
      step.run policy data store pos.toNat := by
  cases step with
  | pattern bytes offset =>
    rw [run, MagicStep.run]
    obtain ⟨hword, hnat⟩ | ⟨found, stop, hword, hstop, hnat⟩ := slice?_cases hdata pos bytes.length
    · rw [hword, hnat]
      rfl
    · rw [hword, hnat, Option.bind_some]
      by_cases hfound : found = bytes
      · rw [if_pos hfound, if_pos (congrArg some hfound), ← hstop]
        rfl
      · rw [if_neg hfound, if_neg (fun h => hfound (Option.some.inj h)), Option.map_none]
  | capture var width offset =>
    rw [run, MagicStep.run]
    obtain ⟨hword, hnat⟩ | ⟨found, stop, hword, hstop, hnat⟩ := slice?_cases hdata pos width.bytes
    · rw [hword, hnat]
      rfl
    · rw [hword, hnat, ← hstop]
      rfl

theorem judge_eq (hdata : data.size < 2 ^ 64) (s : Signature Nat) (cursor : UInt64) (store : Store)
    (index : Nat) : judge policy data cursor store index s =
      Dissect.judge policy data cursor.toNat store index s := by
  induction s generalizing cursor store index with
  | nil => rfl
  | cons step rest ih =>
    rw [judge, Dissect.judge, ← toNat_place]
    cases place step.offset cursor store with
    | none => rfl
    | some pos =>
      rw [Option.map_some]
      dsimp only
      rw [← run_eq hdata]
      cases run policy data store pos step with
      | none => rfl
      | some after => exact ih after.1 after.2 (index + 1)

end Addressed

namespace Definition

/-- The verdict when all places are words of 64 bits. -/
def wordVerdict (d : Definition) (data : Buffer) (s : Signature Nat) : Verdict :=
  Addressed.judge d.endianness data 0 (Store.empty d.vars.length) 0 s

/-- A signature that accepts a buffer accepts it with more behind it, and the one that decides comes
no later. Words of 64 bits are enough for all places, up to the last of them. -/
theorem verdict_append (d : Definition) (data more : Buffer) :
    (∀ s, d.verdict data s = .accepted → d.verdict (data ++ more) s = .accepted) ∧
      (∀ i, d.matchingSignature? data = some i →
        ∃ j ≤ i, d.matchingSignature? (data ++ more) = some j) ∧
      (d.detects data = true → d.detects (data ++ more) = true) ∧
      ((data ++ more).size < 2 ^ 64 → ∀ s,
        d.wordVerdict data s = d.verdict data s ∧
        d.wordVerdict (data ++ more) s = d.verdict (data ++ more) s) := by
  have haccepts (s : Signature Nat) (h : d.verdict data s = .accepted) :
      d.verdict (data ++ more) s = .accepted := judge_append more h
  have hmatching (i : Nat) (h : d.matchingSignature? data = some i) :
      ∃ j ≤ i, d.matchingSignature? (data ++ more) = some j := by
    refine findIdx?_le_of_imp (fun s hs => ?_) h
    rw [beq_iff_eq] at hs ⊢
    exact haccepts s hs
  refine ⟨haccepts, hmatching, fun h => ?_, fun hsize s => ?_⟩
  · obtain ⟨i, hi⟩ := Option.isSome_iff_exists.1 h
    obtain ⟨j, -, hj⟩ := hmatching i hi
    rw [detects, hj]
    rfl
  · have hdata : data.size < 2 ^ 64 := by
      rw [Array.size_append] at hsize
      omega
    exact ⟨Addressed.judge_eq hdata s 0 _ 0, Addressed.judge_eq hsize s 0 _ 0⟩

/-- Two bytes say which byte order the place of a mark is in. The first signature also wants a byte
behind the mark, and the last looks at a place that is a word of eight bytes. -/
def markSample : Definition where
  name := "n"
  shortName := "s"
  endianness := .captured 0 [0x4D, 0x4D] [0x49, 0x49]
  colors := []
  fields := [.unused]
  signatures := [
    [.capture 0 .word none, .capture 1 .word none, .pattern [0x5A] (some (.var 1)),
      .capture 2 .byte none],
    [.capture 0 .word none, .capture 1 .word none, .pattern [0x5A] (some (.var 1))],
    [.capture 1 .qword none, .pattern [0] (some (.var 1))]]
  blocks := []
  program := []
  vars := ["order", "place", "next"]
  unused := 0

theorem verdict_append_markSample :
    markSample.matchingSignature? #[0x49, 0x49, 5, 0, 0, 0x5A] = some 1 ∧
      (∃ j ≤ 1, markSample.matchingSignature? (#[0x49, 0x49, 5, 0, 0, 0x5A] ++ #[7]) = some j) ∧
      markSample.wordVerdict (.replicate 8 0xFF ++ .replicate 9 0)
        [.capture 1 .qword none, .pattern [0] (some (.var 1))] = .rejected 1 := by
  have hfirst : markSample.matchingSignature? #[0x49, 0x49, 5, 0, 0, 0x5A] = some 1 := by
    decide +kernel
  obtain ⟨-, hmatching, -, -⟩ := markSample.verdict_append #[0x49, 0x49, 5, 0, 0, 0x5A] #[7]
  obtain ⟨-, -, -, hwords⟩ := markSample.verdict_append (.replicate 8 0xFF) (.replicate 9 0)
  refine ⟨hfirst, hmatching 1 hfirst, ?_⟩
  rw [(hwords (by decide) _).2]
  decide +kernel

end Definition

end Dissect
