import Dissect.Machine.Run

/-! Analyses as plain text: one line a range, and the description with a line for each of its
groups, tabs and lines. -/
namespace Dissect.Report
open Text

def rangeLine (r : TaggedRange) : String :=
  "0x" ++ padLeft '0' 8 (hexLower r.start) ++ " " ++ padLeft ' ' 8 (toString r.length) ++ " " ++
    (if r.background then "bg" else "fg") ++ padRight 3 (toString r.color) ++ " " ++ r.label ++
    (match r.navLabel with
      | some nav => " [" ++ nav ++ "]"
      | none => "") ++ "\n"

def descriptionLine (indent : String) (l : Line) : String :=
  indent ++ l.label ++ " = " ++ l.value ++
    (match l.tooltip with
      | some tooltip => "  ; " ++ tooltip
      | none => "") ++ "\n"

def entryText : Entry → String
  | .line l => descriptionLine "  " l
  | .tab t =>
    "  <" ++ t.name ++ ">\n" ++ String.join (t.lines.map (descriptionLine "    "))

def groupText (g : Group) : String :=
  "[" ++ g.title ++ "]\n" ++ String.join (g.entries.map entryText)

def ranges (a : Analysis) : String := String.join (a.ranges.map rangeLine)

def text (path : String) (d : Definition) (a : Analysis) : String :=
  "# " ++ path ++ ": " ++ d.name ++ " (" ++ d.shortName ++ ")\n" ++
    "outcome: " ++ a.outcome.text ++ " (" ++ toString a.steps ++ " steps)\n" ++
    "\n## Ranges\n" ++ ranges a ++
    "\n## Description\n" ++ String.join (a.description.map groupText)

end Dissect.Report
