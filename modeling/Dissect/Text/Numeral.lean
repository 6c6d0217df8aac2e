import Dissect.Text.Blank

/-! Integers as text: reading numerals in a radix, with or without a sign, and writing them with
a fill character on the left or blanks on the right. -/
namespace Dissect.Text

/-- Value of a digit below `radix`; letters of either case continue after nine. -/
def digit? (radix : Nat) (c : Char) : Option Nat :=
  let v :=
    if '0' ≤ c ∧ c ≤ '9' then c.toNat - '0'.toNat
    else if 'a' ≤ c ∧ c ≤ 'z' then c.toNat - 'a'.toNat + 10
    else if 'A' ≤ c ∧ c ≤ 'Z' then c.toNat - 'A'.toNat + 10
    else radix
  if v < radix then some v else none

def digits? (radix : Nat) : Nat → List Char → Option Nat
  | acc, [] => some acc
  | acc, c :: cs => (digit? radix c).bind fun d => digits? radix (acc * radix + d) cs

def natural? (radix : Nat) : List Char → Option Nat
  | [] => none
  | c :: cs => digits? radix 0 (c :: cs)

/-- A natural numeral below `bound` that may carry a plus sign. -/
def unsigned? (radix bound : Nat) (cs : List Char) : Option Nat :=
  let body := match cs with
    | '+' :: rest => rest
    | _ => cs
  (natural? radix body).filter (· < bound)

/-- A decimal numeral with an optional sign whose value fits in 64 bits of two's complement. -/
def signed64? (cs : List Char) : Option Int :=
  match cs with
  | '-' :: rest => ((natural? 10 rest).filter (· ≤ 1 <<< 63)).map fun n => -(n : Int)
  | _ => (unsigned? 10 (1 <<< 63) cs).map fun n => (n : Int)

def hexLower (n : Nat) : String := String.ofList (Nat.toDigits 16 n)

def hexUpper (n : Nat) : String := String.ofList ((Nat.toDigits 16 n).map Char.toUpper)

def padLeft (fill : Char) (width : Nat) (s : String) : String :=
  String.ofList (List.replicate (width - s.length) fill ++ s.toList)

def padRight (width : Nat) (s : String) : String :=
  String.ofList (s.toList ++ List.replicate (width - s.length) ' ')

end Dissect.Text
