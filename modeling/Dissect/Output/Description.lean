import Dissect.Output.Range

/-! What a run says about a buffer: a sequence of events, and the tree of titled groups that the
events describe. -/
namespace Dissect

structure Line where
  label : String
  value : String
  tooltip : Option String
  deriving DecidableEq, Repr

structure Tab where
  name : String
  lines : List Line
  deriving DecidableEq, Repr

inductive Event where
  | range (range : TaggedRange)
  | title (text : String)
  | line (line : Line)
  | tab (tab : Tab)
  deriving DecidableEq, Repr

inductive Entry where
  | line (line : Line)
  | tab (tab : Tab)
  deriving DecidableEq, Repr

def Entry.lines : Entry → List Line
  | .line l => [l]
  | .tab t => t.lines

structure Group where
  title : String
  entries : List Entry
  deriving DecidableEq, Repr

namespace Group

def ownLines (g : Group) : List Line :=
  g.entries.filterMap fun | .line l => some l | .tab _ => none

def tab? (g : Group) (name : String) : Option Tab :=
  g.entries.findSome? fun | .line _ => none | .tab t => if t.name = name then some t else none

end Group

abbrev Description := List Group

namespace Description

def allLines (d : Description) : List Line :=
  d.flatMap fun g => g.entries.flatMap Entry.lines

def valueOf? (d : Description) (label : String) : Option String :=
  (d.allLines.find? (·.label == label)).map (·.value)

def prepend : Event → List Entry × List Group → List Entry × List Group
  | .range _, d => d
  | .title text, (entries, groups) => ([], ⟨text, entries⟩ :: groups)
  | .line l, (entries, groups) => (.line l :: entries, groups)
  | .tab t, (entries, groups) => (.tab t :: entries, groups)

/-- Every entry goes to the group begun last before it; entries in front of the first title make
an untitled group. -/
def ofEvents (events : List Event) : Description :=
  match events.foldr prepend ([], []) with
  | ([], groups) => groups
  | (entries, groups) => ⟨"", entries⟩ :: groups

end Description

def Event.range? : Event → Option TaggedRange
  | .range r => some r
  | _ => none

def rangesOf (events : List Event) : List TaggedRange := events.filterMap Event.range?

structure Stats where
  ranges : Nat := 0
  /-- Bytes of all ranges, where they overlap more than once. This one can exceed a machine word,
  and wraps; the others count what is in memory. -/
  covered : Nat := 0
  titles : Nat := 0
  /-- Lines in tabs included. -/
  lines : Nat := 0
  tabs : Nat := 0
  deriving DecidableEq, Repr

namespace Stats

def add (s : Stats) : Event → Stats
  | .range r =>
    { s with ranges := s.ranges + 1, covered := (s.covered + r.length) % UInt64.size }
  | .title _ => { s with titles := s.titles + 1 }
  | .line _ => { s with lines := s.lines + 1 }
  | .tab t => { s with tabs := s.tabs + 1, lines := s.lines + t.lines.length }

def ofEvents (events : List Event) : Stats := events.foldl add {}

end Stats

end Dissect
