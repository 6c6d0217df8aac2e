import Dissect.Format.Definition

/-! Whether a buffer belongs to a format. Signatures are tried in order, each with variables of its
own, and the first one whose steps all succeed decides. -/
namespace Dissect

abbrev Buffer := Array UInt8

def slice? (data : Buffer) (start length : Nat) : Option (List UInt8) :=
  if start + length ≤ data.size then some (data.extract start (start + length)).toList else none

inductive Verdict where
  | accepted
  | rejected (index : Nat)
  /-- A step is to look before the start of the buffer. -/
  | misplaced
  deriving DecidableEq, Repr

namespace MagicStep

/-- Where a step looks; without an offset, behind the step before. -/
def place (offset : Option (Operand Nat)) (cursor : Nat) (store : Store) : Option Nat :=
  let absolute (n : Int) : Option Nat := if 0 ≤ n then some n.toNat else none
  match offset with
  | none => some cursor
  | some (.literal v) => absolute v.toInt
  | some (.var id) => absolute ((store.integer? id).getD 0)

def offset : MagicStep Nat → Option (Operand Nat)
  | .pattern _ offset => offset
  | .capture _ _ offset => offset

def run (policy : Endianness Nat) (data : Buffer) (store : Store) (pos : Nat) :
    MagicStep Nat → Option (Nat × Store)
  | .pattern bytes _ =>
    if slice? data pos bytes.length = some bytes then some (pos + bytes.length, store) else none
  | .capture var width _ =>
    (slice? data pos width.bytes).map fun bytes =>
      let word := Bytes.word (policy.resolve store) bytes
      (pos + width.bytes, store.set var ((Variable.ofUnsigned width word).withRaw bytes))

end MagicStep

/-- Runs the steps of a signature from the one with number `index`. -/
def judge (policy : Endianness Nat) (data : Buffer) (cursor : Nat) (store : Store) (index : Nat) :
    Signature Nat → Verdict
  | [] => .accepted
  | step :: rest =>
    match MagicStep.place step.offset cursor store with
    | none => .misplaced
    | some pos =>
      match step.run policy data store pos with
      | none => .rejected index
      | some (cursor, store) => judge policy data cursor store (index + 1) rest

namespace Definition
variable (d : Definition)

def verdict (data : Buffer) (s : Signature Nat) : Verdict :=
  judge d.endianness data 0 (Store.empty d.vars.length) 0 s

def matchingSignature? (data : Buffer) : Option Nat :=
  d.signatures.findIdx? (d.verdict data · == .accepted)

def detects (data : Buffer) : Bool := (d.matchingSignature? data).isSome

def verdicts (data : Buffer) : List Verdict :=
  let all := d.signatures.map (d.verdict data)
  match d.matchingSignature? data with
  | some i => all.take (i + 1)
  | none => all

end Definition

end Dissect
