/-! Widths of scalars, and what is left of a word that is stored in one. -/
namespace Dissect

inductive Width where
  | byte
  | word
  | dword
  | qword
  deriving DecidableEq, Repr

namespace Width

def bytes : Width → Nat
  | .byte => 1
  | .word => 2
  | .dword => 4
  | .qword => 8

def bits (w : Width) : Nat := 8 * w.bytes

def ofBytes? : Nat → Option Width
  | 1 => some .byte
  | 2 => some .word
  | 4 => some .dword
  | 8 => some .qword
  | _ => none

/-- The narrowest width for `n` bytes, and the widest one if there is none. -/
def fitting (n : Nat) : Width :=
  if n ≤ 1 then .byte else if n ≤ 2 then .word else if n ≤ 4 then .dword else .qword

def wrapUnsigned (w : Width) (value : UInt64) : UInt64 :=
  UInt64.ofNat (value.toNat % (1 <<< w.bits))

def wrapSigned (w : Width) (value : Int64) : Int64 :=
  Int64.ofInt (value.toInt.bmod (1 <<< w.bits))

theorem ofBytes?_bytes (w : Width) : ofBytes? w.bytes = some w := by
  cases w <;> rfl

end Width

end Dissect
