import Dissect.Text.Utf8

/-! Names and paths as the system has them: octets, which need not be those of a text. -/
namespace Dissect.Survey

structure OsText where
  octets : List UInt8
  deriving DecidableEq, Repr

namespace OsText

def ofString (s : String) : OsText := ⟨s.toUTF8.data.toList⟩

instance : Coe String OsText := ⟨ofString⟩

instance : Append OsText := ⟨fun a b => ⟨a.octets ++ b.octets⟩⟩

instance : LT OsText := ⟨fun a b => a.octets < b.octets⟩

instance : LE OsText := ⟨fun a b => a.octets ≤ b.octets⟩

instance (a b : OsText) : Decidable (a < b) := inferInstanceAs (Decidable (a.octets < b.octets))

instance (a b : OsText) : Decidable (a ≤ b) := inferInstanceAs (Decidable (a.octets ≤ b.octets))

/-- The text that the octets are in UTF-8, if there is one. -/
def text? (s : OsText) : Option String := (Text.Utf8.decode? s.octets).map String.ofList

/-- What is shown of a name, with replacement characters for what is no text. -/
def display (s : OsText) : String := String.ofList (Text.Utf8.decodeLossy s.octets)

end OsText

end Dissect.Survey
