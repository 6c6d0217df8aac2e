import Dissect.Detect
import Dissect.Text.Numeral

/-! The hash that contents are known by: the first octets of BLAKE3, as hexadecimal digits. Data is
cut into chunks and these into blocks; each block is compressed into the value of its chunk, and the
values of chunks are joined in pairs until one is left. -/
namespace Dissect.Survey

namespace ContentHash

/-! ### Compression -/

structure Column where
  a : UInt32
  b : UInt32
  c : UInt32
  d : UInt32

structure State where
  c₀ : Column
  c₁ : Column
  c₂ : Column
  c₃ : Column

def rotateRight (word n : UInt32) : UInt32 := (word >>> n) ||| (word <<< (32 - n))

def Column.mix (s : Column) (x y : UInt32) : Column :=
  let a := s.a + s.b + x
  let d := rotateRight (s.d ^^^ a) 16
  let c := s.c + d
  let b := rotateRight (s.b ^^^ c) 12
  let a := a + b + y
  let d := rotateRight (d ^^^ a) 8
  let c := c + d
  ⟨a, rotateRight (b ^^^ c) 7, c, d⟩

def word (words : List UInt32) (i : Nat) : UInt32 := words.getD i 0

namespace State

def mix (s : State) (message : List UInt32) : State where
  c₀ := s.c₀.mix (word message 0) (word message 1)
  c₁ := s.c₁.mix (word message 2) (word message 3)
  c₂ := s.c₂.mix (word message 4) (word message 5)
  c₃ := s.c₃.mix (word message 6) (word message 7)

/-- Makes the diagonals columns. -/
def shear (s : State) : State where
  c₀ := ⟨s.c₀.a, s.c₁.b, s.c₂.c, s.c₃.d⟩
  c₁ := ⟨s.c₁.a, s.c₂.b, s.c₃.c, s.c₀.d⟩
  c₂ := ⟨s.c₂.a, s.c₃.b, s.c₀.c, s.c₁.d⟩
  c₃ := ⟨s.c₃.a, s.c₀.b, s.c₁.c, s.c₂.d⟩

def unshear (s : State) : State where
  c₀ := ⟨s.c₀.a, s.c₃.b, s.c₂.c, s.c₁.d⟩
  c₁ := ⟨s.c₁.a, s.c₀.b, s.c₃.c, s.c₂.d⟩
  c₂ := ⟨s.c₂.a, s.c₁.b, s.c₀.c, s.c₃.d⟩
  c₃ := ⟨s.c₃.a, s.c₂.b, s.c₁.c, s.c₀.d⟩

def schedule : List Nat := [2, 6, 3, 10, 7, 0, 4, 13, 1, 11, 12, 5, 9, 14, 15, 8]

def rounds : Nat → State → List UInt32 → State
  | 0, s, _ => s
  | n + 1, s, message =>
    rounds n ((s.mix message).shear.mix (message.drop 8)).unshear (schedule.map (word message))

def value (s : State) : List UInt32 :=
  [s.c₀.a ^^^ s.c₀.c, s.c₁.a ^^^ s.c₁.c, s.c₂.a ^^^ s.c₂.c, s.c₃.a ^^^ s.c₃.c,
    s.c₀.b ^^^ s.c₀.d, s.c₁.b ^^^ s.c₁.d, s.c₂.b ^^^ s.c₂.d, s.c₃.b ^^^ s.c₃.d]

end State

def initial : List UInt32 :=
  [0x6A09E667, 0xBB67AE85, 0x3C6EF372, 0xA54FF53A, 0x510E527F, 0x9B05688C, 0x1F83D9AB, 0x5BE0CD19]

def octets (w : UInt32) : List UInt8 :=
  [w.toUInt8, (w >>> 8).toUInt8, (w >>> 16).toUInt8, (w >>> 24).toUInt8]

def words : List UInt8 → List UInt32
  | a :: b :: c :: d :: rest =>
    (a.toUInt32 ||| b.toUInt32 <<< 8 ||| c.toUInt32 <<< 16 ||| d.toUInt32 <<< 24) :: words rest
  | _ => []

def start (value : List UInt32) (number length flags : Nat) : State where
  c₀ := ⟨word value 0, word value 4, word initial 0, .ofNat number⟩
  c₁ := ⟨word value 1, word value 5, word initial 1, .ofNat (number / UInt32.size)⟩
  c₂ := ⟨word value 2, word value 6, word initial 2, .ofNat length⟩
  c₃ := ⟨word value 3, word value 7, word initial 3, .ofNat flags⟩

def blockSize : Nat := 64

def compress (value : List UInt32) (number flags : Nat) (block : List UInt8) : List UInt32 :=
  let message := words (block ++ List.replicate (blockSize - block.length) 0)
  ((start value number block.length flags).rounds 7 message).value

/-! ### Chunks -/

def chunkSize : Nat := 1024

def startFlag : Nat := 1

def endFlag : Nat := 2

def pairFlag : Nat := 4

def rootFlag : Nat := 8

def cut (size : Nat) : Nat → List UInt8 → List (List UInt8)
  | 0, _ => []
  | n + 1, data => data.take size :: cut size n (data.drop size)

/-- Cuts data into pieces of a size, the last of which may be shorter. No data is one piece. -/
def pieces (size : Nat) (data : List UInt8) : List (List UInt8) :=
  cut size (max 1 ((data.length + size - 1) / size)) data

/-- Compresses blocks one after the other, the first and the last one with flags of their own. -/
def absorb (number last : Nat) : Nat → List UInt32 → List (List UInt8) → List UInt32
  | _, value, [] => value
  | first, value, [block] => compress value number (first + last) block
  | first, value, block :: rest => absorb number last 0 (compress value number first block) rest

def chunkValue (flag number : Nat) (data : List UInt8) : List UInt32 :=
  absorb number (endFlag + flag) startFlag initial (pieces blockSize data)

def pairValue (flag : Nat) (left right : List UInt32) : List UInt32 :=
  compress initial 0 (pairFlag + flag) ((left ++ right).flatMap octets)

def joinPairs : List (List UInt32) → List (List UInt32)
  | left :: right :: rest => pairValue 0 left right :: joinPairs rest
  | short => short

def joinAll : Nat → List (List UInt32) → List UInt32
  | _, [left, right] => pairValue rootFlag left right
  | n + 1, values => joinAll n (joinPairs values)
  | 0, _ => []

def hash (data : List UInt8) : List UInt32 :=
  match pieces chunkSize data with
  | [only] => chunkValue rootFlag 0 only
  | chunks => joinAll chunks.length (chunks.mapIdx (chunkValue 0))

end ContentHash

/-- The hash of a content, eight digits long. -/
def contentHash (data : Buffer) : String :=
  String.join (((ContentHash.hash data.toList).flatMap ContentHash.octets).take 4 |>.map
    fun octet => Text.padLeft '0' 2 (Text.hexLower octet.toNat))

example : contentHash "abc".toUTF8.data = "6437b3ac" := by decide +kernel

end Dissect.Survey
