import Dissect.Proofs.Quantities
import Dissect.Proofs.Tallies
import Dissect.Report
import Mathlib.Algebra.Ring.Nat

/-! Reports as lines. A report is written line by line, each line being followed by a line break, so
it has the lines that were written exactly if none of them has a break inside. What is pasted into
the lines is not looked through for breaks: each one makes a line more. -/
namespace Dissect

namespace Text

/-! ### Lines of a text -/

/-- What stands between line breaks, before the first and behind the last one. -/
def pieces (s : String) : List String := (s.toList.splitOn '\n').map String.ofList

/-- What is followed by a line break. -/
def lines (s : String) : List String := (pieces s).dropLast

def unlines (ls : List String) : String := String.join (ls.map (· ++ "\n"))

def breaks (s : String) : Nat := s.toList.count '\n'

def Plain (s : String) : Prop := breaks s = 0

instance (s : String) : Decidable (Plain s) := inferInstanceAs (Decidable (breaks s = 0))

def breaksIn (ls : List String) : Nat := (ls.map breaks).sum

theorem breaksIn_nil : breaksIn [] = 0 := rfl

theorem breaksIn_cons (s : String) (ls : List String) :
    breaksIn (s :: ls) = breaks s + breaksIn ls := by
  rw [breaksIn, List.map_cons, List.sum_cons, breaksIn]

theorem breaksIn_singleton (s : String) : breaksIn [s] = breaks s := by
  rw [breaksIn_cons, breaksIn_nil, Nat.add_zero]

theorem breaksIn_append (ls ls' : List String) :
    breaksIn (ls ++ ls') = breaksIn ls + breaksIn ls' := by
  rw [breaksIn, List.map_append, List.sum_append, breaksIn, breaksIn]

theorem breaksIn_map {α : Type} {f : α → String} {g : α → List String}
    (h : ∀ item, breaks (f item) = breaksIn (g item)) (items : List α) :
    breaksIn (items.map f) = breaksIn (items.flatMap g) := by
  induction items with
  | nil => rfl
  | cons item items ih =>
    rw [List.map_cons, List.flatMap_cons, breaksIn_cons, breaksIn_append, h, ih]

theorem breaksIn_flatMap_congr {α : Type} {f g : α → List String}
    (h : ∀ item, breaksIn (f item) = breaksIn (g item)) (items : List α) :
    breaksIn (items.flatMap f) = breaksIn (items.flatMap g) := by
  induction items with
  | nil => rfl
  | cons item items ih =>
    rw [List.flatMap_cons, List.flatMap_cons, breaksIn_append, breaksIn_append, h, ih]

theorem breaks_empty : breaks "" = 0 := rfl

theorem breaks_append (s t : String) : breaks (s ++ t) = breaks s + breaks t := by
  rw [breaks, String.toList_append, List.count_append, breaks, breaks]

theorem plain_append {s t : String} : Plain (s ++ t) ↔ Plain s ∧ Plain t := by
  rw [Plain, breaks_append, Nat.add_eq_zero_iff, Plain, Plain]

theorem plain_ofList {cs : List Char} : Plain (String.ofList cs) ↔ '\n' ∉ cs := by
  rw [Plain, breaks, String.toList_ofList, List.count_eq_zero]

theorem length_splitOn (cs : List Char) : (cs.splitOn '\n').length = cs.count '\n' + 1 := by
  induction cs with
  | nil => rfl
  | cons c cs ih =>
    rw [List.splitOn_cons_eq_if_modifyHead, List.count_cons]
    split
    · rw [List.length_cons, ih]
    · rw [List.length_modifyHead, ih, Nat.add_zero]

theorem length_pieces (s : String) : (pieces s).length = breaks s + 1 := by
  rw [pieces, List.length_map, length_splitOn, breaks]

theorem pieces_of_plain {s : String} (h : Plain s) : pieces s = [s] := by
  rw [pieces, List.splitOn_eq_singleton (List.count_eq_zero.1 h), List.map_singleton,
    String.ofList_toList]

theorem lines_append (line rest : String) :
    lines (line ++ "\n" ++ rest) = pieces line ++ lines rest := by
  have hbreak : "\n".toList = ['\n'] := rfl
  have hrest : pieces rest ≠ [] :=
    fun h => List.splitOn_ne_nil '\n' rest.toList (List.map_eq_nil_iff.1 h)
  rw [lines, pieces, String.toList_append, String.toList_append, hbreak, List.append_assoc,
    List.singleton_append, List.splitOn_append_cons_self, List.map_append, ← pieces, ← pieces,
    List.dropLast_append_of_ne_nil hrest, lines]

theorem lines_unlines (ls : List String) : lines (unlines ls) = ls.flatMap pieces := by
  induction ls with
  | nil => rfl
  | cons line ls ih =>
    rw [unlines, List.map_cons, String.join_cons, lines_append, ← unlines, ih, List.flatMap_cons]

theorem length_lines_unlines (ls : List String) :
    (lines (unlines ls)).length = ls.length + breaksIn ls := by
  rw [lines_unlines]
  induction ls with
  | nil => rfl
  | cons line ls ih =>
    rw [List.flatMap_cons, List.length_append, ih, length_pieces, breaksIn_cons, List.length_cons]
    omega

theorem breaksIn_eq_zero {ls : List String} : breaksIn ls = 0 ↔ ∀ line ∈ ls, Plain line := by
  induction ls with
  | nil => simp [breaksIn]
  | cons line ls ih =>
    rw [breaksIn_cons, Nat.add_eq_zero_iff, ih, List.forall_mem_cons, Plain]

/-- What was written line by line is read line by line exactly if no line has a break inside. -/
theorem lines_unlines_iff {ls : List String} :
    lines (unlines ls) = ls ↔ ∀ line ∈ ls, Plain line := by
  constructor
  · intro h
    have hlength := length_lines_unlines ls
    rw [h] at hlength
    exact breaksIn_eq_zero.1 (by omega)
  · intro h
    rw [lines_unlines, List.flatMap_congr fun line hline => pieces_of_plain (h line hline)]
    exact List.flatMap_singleton' ls

theorem unlines_nil : unlines [] = "" := rfl

theorem unlines_cons (line : String) (ls : List String) :
    unlines (line :: ls) = line ++ "\n" ++ unlines ls := by
  rw [unlines, List.map_cons, String.join_cons, unlines]

theorem unlines_append (ls ls' : List String) :
    unlines (ls ++ ls') = unlines ls ++ unlines ls' := by
  rw [unlines, List.map_append, String.join_append, unlines, unlines]

theorem unlines_flatMap {α : Type} (f : α → List String) (items : List α) :
    unlines (items.flatMap f) = String.join (items.map fun item => unlines (f item)) := by
  induction items with
  | nil => rfl
  | cons item items ih =>
    rw [List.flatMap_cons, unlines_append, ih, List.map_cons, String.join_cons]

theorem head?_pieces {front : String} (h : Plain front) (rest : String) :
    ∃ more, (pieces (front ++ rest)).head? = some (front ++ more) := by
  have hlist (cs : List Char) (hcs : '\n' ∉ cs) :
      ∃ more, ((cs ++ rest.toList).splitOn '\n').head? = some (cs ++ more) := by
    induction cs with
    | nil =>
      obtain ⟨first, others, hsplit⟩ :=
        List.exists_cons_of_ne_nil (List.splitOn_ne_nil '\n' rest.toList)
      exact ⟨first, by rw [List.nil_append, hsplit]; rfl⟩
    | cons c cs ih =>
      obtain ⟨hc, hcs⟩ := not_or.1 (mt List.mem_cons.2 hcs)
      obtain ⟨more, hmore⟩ := ih hcs
      refine ⟨more, ?_⟩
      rw [List.cons_append, List.splitOn_cons_eq_if_modifyHead,
        if_neg fun he => hc (eq_of_beq he).symm, List.head?_modifyHead, hmore]
      rfl
  obtain ⟨more, hmore⟩ := hlist front.toList (List.count_eq_zero.1 h)
  refine ⟨String.ofList more, ?_⟩
  rw [pieces, List.head?_map, String.toList_append, hmore, Option.map_some, String.ofList_append,
    String.ofList_toList]

/-! ### Numerals -/

section Numerals
variable {radix n : Nat} {cs : List Char}

theorem digit?_break (radix : Nat) : digit? radix '\n' = none := by
  simp [digit?]

theorem digit?_blank (radix : Nat) : digit? radix ' ' = none := by
  simp [digit?]

theorem not_blank_of_digits (h : Document.Digits radix cs n) : ∀ c ∈ cs, c ≠ ' ' := by
  rintro c hc rfl
  have hdigit := h.2.1 _ hc
  rw [digit?_blank] at hdigit
  cases hdigit

theorem no_break_of_digits (h : Document.Digits radix cs n) : '\n' ∉ cs := by
  intro hc
  have hdigit := h.2.1 _ hc
  rw [digit?_break] at hdigit
  cases hdigit

theorem plain_of_digits {s : String} (h : Document.Digits radix s.toList n) : Plain s :=
  List.count_eq_zero.2 (no_break_of_digits h)

theorem digits_hexLower (n : Nat) : Document.Digits 16 (hexLower n).toList n := by
  have h : Document.Digits 16 ((Nat.toDigits 16 n).map id) n :=
    Document.digits_toDigits (by decide) (by decide) n
  rwa [List.map_id, ← String.toList_ofList (l := Nat.toDigits 16 n), ← hexLower] at h

theorem digits_zeros (k : Nat) (h : Document.Digits 16 cs n) :
    Document.Digits 16 (List.replicate k '0' ++ cs) n := by
  induction k with
  | zero => exact h
  | succ k ih =>
    obtain ⟨hne, hdigits, hvalue⟩ := ih
    refine ⟨List.cons_ne_nil _ _, ?_, hvalue⟩
    rw [List.replicate_succ, List.cons_append]
    exact List.forall_mem_cons.2 ⟨rfl, hdigits⟩

theorem breaks_padLeft {fill : Char} (h : fill ≠ '\n') (width : Nat) (s : String) :
    breaks (padLeft fill width s) = breaks s := by
  rw [breaks, padLeft, String.toList_ofList, List.count_append, List.count_replicate,
    if_neg (by simpa using h), Nat.zero_add, breaks]

theorem breaks_padRight (width : Nat) (s : String) : breaks (padRight width s) = breaks s := by
  rw [breaks, padRight, String.toList_ofList, List.count_append, List.count_replicate,
    if_neg (by decide), Nat.add_zero, breaks]

theorem breaks_toString (n : Nat) : breaks (toString n) = 0 := plain_of_digits (digits_toString n)

theorem breaks_hexLower (n : Nat) : breaks (hexLower n) = 0 := plain_of_digits (digits_hexLower n)

end Numerals

end Text

/-! ### The texts that are pasted into lines -/

def TaggedRange.texts (r : TaggedRange) : List String := r.label :: r.navLabel.toList

def Line.texts (l : Line) : List String := l.label :: l.value :: l.tooltip.toList

def Entry.texts : Entry → List String
  | .line l => l.texts
  | .tab t => t.name :: t.lines.flatMap Line.texts

def Group.texts (g : Group) : List String := g.title :: g.entries.flatMap Entry.texts

def Outcome.texts : Outcome → List String
  | .exhausted _ field => [field]
  | .unknownValue _ field => [field]
  | .blockDepth block => [block]
  | .completed => []
  | .stepLimit _ => []

def Analysis.texts (a : Analysis) : List String :=
  a.outcome.texts ++ a.ranges.flatMap TaggedRange.texts ++ a.description.flatMap Group.texts

/-! ### The lines of a report -/

namespace Report
open Text

def columns (r : TaggedRange) : String :=
  "0x" ++ padLeft '0' 8 (hexLower r.start) ++ " " ++ padLeft ' ' 8 (toString r.length) ++ " "

def rangeText (r : TaggedRange) : String :=
  columns r ++ (if r.background then "bg" else "fg") ++ padRight 3 (toString r.color) ++ " " ++
    r.label ++
    (match r.navLabel with
      | some nav => " [" ++ nav ++ "]"
      | none => "")

def lineText (indent : String) (l : Line) : String :=
  indent ++ l.label ++ " = " ++ l.value ++
    (match l.tooltip with
      | some tooltip => "  ; " ++ tooltip
      | none => "")

def entryLines : Entry → List String
  | .line l => [lineText "  " l]
  | .tab t => ("  <" ++ t.name ++ ">") :: t.lines.map (lineText "    ")

def groupLines (g : Group) : List String :=
  ("[" ++ g.title ++ "]") :: g.entries.flatMap entryLines

/-- The lines of the report on a file: one for every range, group, tab and line of the description
besides six that every report has. -/
def textLines (path : String) (d : Definition) (a : Analysis) : List String :=
  ["# " ++ path ++ ": " ++ d.name ++ " (" ++ d.shortName ++ ")",
    "outcome: " ++ a.outcome.text ++ " (" ++ toString a.steps ++ " steps)", "", "## Ranges"] ++
    a.ranges.map rangeText ++ ["", "## Description"] ++ a.description.flatMap groupLines

theorem ranges_eq (a : Analysis) : ranges a = unlines (a.ranges.map rangeText) := by
  rw [ranges, unlines, List.map_map]
  rfl

theorem descriptionLine_eq (indent : String) (l : Line) :
    descriptionLine indent l = lineText indent l ++ "\n" := rfl

theorem entryText_eq (e : Entry) : entryText e = unlines (entryLines e) := by
  have hclose : ">\n" = ">" ++ "\n" := by decide
  cases e with
  | line l =>
    rw [entryText, descriptionLine_eq, entryLines, unlines_cons, unlines, List.map_nil,
      String.join_nil, String.append_empty]
  | tab t =>
    rw [entryText, entryLines, unlines_cons, unlines, List.map_map, hclose, ← String.append_assoc]
    rfl

theorem groupText_eq (g : Group) : groupText g = unlines (groupLines g) := by
  have hclose : "]\n" = "]" ++ "\n" := by decide
  rw [groupText, funext entryText_eq, ← unlines_flatMap, groupLines, unlines_cons, hclose,
    ← String.append_assoc]

theorem text_eq (path : String) (d : Definition) (a : Analysis) :
    text path d a = unlines (textLines path d a) := by
  have hname : ")\n" = ")" ++ "\n" := by decide
  have hsteps : " steps)\n" = " steps)" ++ "\n" := by decide
  have hranges : "\n## Ranges\n" = "\n" ++ ("## Ranges" ++ "\n") := by decide
  have hdescription : "\n## Description\n" = "\n" ++ ("## Description" ++ "\n") := by decide
  unfold text
  rw [funext groupText_eq, ← unlines_flatMap, ranges_eq, textLines, unlines_append,
    unlines_append, unlines_append]
  simp only [unlines_cons, unlines_nil, hname, hsteps, hranges, hdescription,
    String.append_assoc, String.append_empty, String.empty_append]

/-! ### Breaks in the lines of a report -/

theorem breaks_columns (r : TaggedRange) : breaks (columns r) = 0 := by
  have hzero : '0' ≠ '\n' := by decide
  have hblank : ' ' ≠ '\n' := by decide
  simp only [columns, breaks_append, breaks_padLeft hzero, breaks_padLeft hblank, breaks_hexLower,
    breaks_toString]
  rfl

theorem breaks_rangeText (r : TaggedRange) : breaks (rangeText r) = breaksIn r.texts := by
  have hstyle : breaks (if r.background then "bg" else "fg") = 0 := by split <;> rfl
  have hblank : breaks " " = 0 := rfl
  rw [rangeText, breaks_append, breaks_append, breaks_append, breaks_append, breaks_append,
    breaks_columns, hstyle, breaks_padRight, breaks_toString, hblank, TaggedRange.texts,
    breaksIn_cons]
  cases r.navLabel with
  | none => rw [Option.toList_none, breaksIn_nil, breaks_empty]; omega
  | some nav =>
    have hopen : breaks " [" = 0 := rfl
    have hclose : breaks "]" = 0 := rfl
    rw [breaks_append, breaks_append, hopen, hclose, Option.toList_some, breaksIn_singleton]
    omega

theorem breaks_lineText {indent : String} (h : Plain indent) (l : Line) :
    breaks (lineText indent l) = breaksIn l.texts := by
  have hequals : breaks " = " = 0 := rfl
  rw [lineText, breaks_append, breaks_append, breaks_append, breaks_append, h, hequals,
    Line.texts, breaksIn_cons, breaksIn_cons]
  cases l.tooltip with
  | none => rw [Option.toList_none, breaksIn_nil, breaks_empty]; omega
  | some tooltip =>
    have hopen : breaks "  ; " = 0 := rfl
    rw [breaks_append, hopen, Option.toList_some, breaksIn_singleton]
    omega

theorem breaksIn_entryLines (e : Entry) : breaksIn (entryLines e) = breaksIn e.texts := by
  cases e with
  | line l =>
    have hindent : Plain "  " := rfl
    rw [entryLines, Entry.texts, breaksIn_singleton, breaks_lineText hindent]
  | tab t =>
    have hindent : Plain "    " := rfl
    have hopen : breaks "  <" = 0 := rfl
    have hclose : breaks ">" = 0 := rfl
    rw [entryLines, Entry.texts, breaksIn_cons, breaksIn_cons, breaks_append, breaks_append,
      hopen, hclose, Nat.zero_add, Nat.add_zero, breaksIn_map (breaks_lineText hindent)]

theorem breaksIn_groupLines (g : Group) : breaksIn (groupLines g) = breaksIn g.texts := by
  have hopen : breaks "[" = 0 := rfl
  have hclose : breaks "]" = 0 := rfl
  rw [groupLines, Group.texts, breaksIn_cons, breaksIn_cons, breaks_append, breaks_append, hopen,
    hclose, Nat.zero_add, Nat.add_zero, breaksIn_flatMap_congr breaksIn_entryLines]

theorem breaks_outcome (o : Outcome) : breaks o.text = breaksIn o.texts := by
  have hread : breaks "out of data reading '" = 0 := by decide
  have hunknown : breaks "unknown value for '" = 0 := by decide
  have hat : breaks "' at offset 0x" = 0 := by decide
  have hstopped : breaks "stopped after " = 0 := by decide
  have hsteps : breaks " steps" = 0 := by decide
  have hcall : breaks "block calls nested too deeply entering '" = 0 := by decide
  have hquote : breaks "'" = 0 := by decide
  unfold Outcome.text Outcome.texts
  cases o with
  | completed => decide
  | exhausted offset field =>
    rw [breaks_append, breaks_append, breaks_append, hread, hat, breaks_hexLower,
      breaksIn_singleton]
    omega
  | unknownValue offset field =>
    rw [breaks_append, breaks_append, breaks_append, hunknown, hat, breaks_hexLower,
      breaksIn_singleton]
    omega
  | stepLimit steps =>
    rw [breaks_append, breaks_append, hstopped, hsteps, breaks_toString, breaksIn_nil]
  | blockDepth block =>
    rw [breaks_append, breaks_append, hcall, hquote, breaksIn_singleton]
    omega

/-- Reads the start and the length in the first two columns of a line. -/
def columns? (line : String) : Option (Nat × Nat) :=
  match line.toList with
  | '0' :: 'x' :: cs => do
    let start ← natural? 16 (cs.takeWhile (· != ' '))
    let rest := (cs.dropWhile (· != ' ')).dropWhile (· == ' ')
    let length ← natural? 10 (rest.takeWhile (· != ' '))
    return (start, length)
  | _ => none

theorem columns?_columns (r : TaggedRange) (more : String) :
    columns? (columns r ++ more) = some (r.start, r.length) := by
  have hlist : (columns r ++ more).toList =
      '0' :: 'x' :: ((padLeft '0' 8 (hexLower r.start)).toList ++ ' ' ::
        (List.replicate (8 - (toString r.length).length) ' ' ++
          ((toString r.length).toList ++ ' ' :: more.toList))) := by
    simp [columns, padLeft, String.toList_append]
  have hstart : Document.Digits 16 (padLeft '0' 8 (hexLower r.start)).toList r.start := by
    rw [padLeft, String.toList_ofList]
    exact digits_zeros _ (digits_hexLower r.start)
  have hlength := digits_toString r.length
  have hword {cs : List Char} {radix n : Nat} (h : Document.Digits radix cs n) :
      ∀ c ∈ cs, (c != ' ') = true := fun c hc => bne_iff_ne.2 (not_blank_of_digits h c hc)
  have hblanks (k : Nat) : ∀ c ∈ List.replicate k ' ', (c == ' ') = true := fun c hc =>
    beq_iff_eq.2 (List.eq_of_mem_replicate hc)
  have hfirst : ((toString r.length).toList ++ ' ' :: more.toList).dropWhile (· == ' ') =
      (toString r.length).toList ++ ' ' :: more.toList := by
    obtain ⟨c, cs, hcs⟩ := List.exists_cons_of_ne_nil hlength.1
    have hc : (c == ' ') = false :=
      beq_eq_false_iff_ne.2 (not_blank_of_digits hlength c (by rw [hcs]; exact List.mem_cons_self))
    rw [hcs, List.cons_append, List.dropWhile_cons_of_neg (by rw [hc]; exact Bool.false_ne_true)]
  have hstop (cs : List Char) : (' ' :: cs).takeWhile (· != ' ') = [] := rfl
  have hrest (cs : List Char) : (' ' :: cs).dropWhile (· != ' ') = ' ' :: cs := rfl
  have hblank (cs : List Char) : (' ' :: cs).dropWhile (· == ' ') = cs.dropWhile (· == ' ') := rfl
  rw [columns?, hlist]
  simp only [List.takeWhile_append_of_pos (hword hstart),
    List.dropWhile_append_of_pos (hword hstart), hstop, hrest, hblank,
    List.dropWhile_append_of_pos (hblanks _), hfirst, List.append_nil,
    List.takeWhile_append_of_pos (hword hlength)]
  rw [Document.natural?_eq_some.2 hstart, Document.natural?_eq_some.2 hlength]
  rfl

/-! ### Whole reports -/

/-- The first line on a range begins with its columns, whatever is pasted behind them. -/
theorem columns?_pieces (r : TaggedRange) :
    ((pieces (rangeText r)).head?).bind columns? = some (r.start, r.length) := by
  have hcolumns : Plain (columns r) := breaks_columns r
  obtain ⟨behind, hbehind⟩ : ∃ behind, rangeText r = columns r ++ behind :=
    ⟨_, by simp only [rangeText, String.append_assoc]; rfl⟩
  obtain ⟨more, hmore⟩ := head?_pieces hcolumns behind
  rw [hbehind, hmore, Option.bind_some, columns?_columns]

theorem lines_ranges (a : Analysis) :
    lines (ranges a) = a.ranges.flatMap fun r => pieces (rangeText r) := by
  rw [ranges_eq, lines_unlines, List.flatMap_map]

theorem breaksIn_textLines (path : String) (d : Definition) (a : Analysis) :
    breaksIn (textLines path d a) = breaksIn (path :: d.name :: d.shortName :: a.texts) := by
  have hhash : breaks "# " = 0 := by decide
  have hcolon : breaks ": " = 0 := by decide
  have hopen : breaks " (" = 0 := by decide
  have hclose : breaks ")" = 0 := by decide
  have houtcome : breaks "outcome: " = 0 := by decide
  have hsteps : breaks " steps)" = 0 := by decide
  have hranges : breaks "## Ranges" = 0 := by decide
  have hdescription : breaks "## Description" = 0 := by decide
  rw [textLines, Analysis.texts, breaksIn_append, breaksIn_append, breaksIn_append,
    breaksIn_map breaks_rangeText, breaksIn_flatMap_congr breaksIn_groupLines]
  simp only [breaksIn_cons, breaksIn_nil, breaksIn_append, breaks_append, breaks_empty,
    breaks_outcome, breaks_toString, hhash, hcolon, hopen, hclose, houtcome, hsteps, hranges,
    hdescription]
  omega

theorem length_entryLines (e : Entry) :
    (entryLines e).length = [e].countP Entry.isTab + e.lines.length := by
  cases e with
  | line l => rfl
  | tab t => rw [entryLines, List.length_cons, List.length_map, Nat.add_comm]; rfl

theorem length_flatMap_groupLines (description : Description) :
    (description.flatMap groupLines).length = description.length +
      (description.flatMap Group.entries).countP Entry.isTab + description.allLines.length := by
  have hentries (entries : List Entry) : (entries.flatMap entryLines).length =
      entries.countP Entry.isTab + (entries.flatMap Entry.lines).length := by
    induction entries with
    | nil => rfl
    | cons e entries ih =>
      rw [List.flatMap_cons, List.length_append, length_entryLines, ih, List.flatMap_cons,
        List.length_append, List.countP_singleton, List.countP_cons]
      omega
  rw [Description.allLines]
  induction description with
  | nil => rfl
  | cons g description ih =>
    rw [List.flatMap_cons, List.length_append, ih, groupLines, List.length_cons, hentries,
      List.length_cons, List.flatMap_cons, List.countP_append, List.flatMap_cons,
      List.length_append]
    omega

theorem length_textLines (path : String) (d : Definition) (a : Analysis) :
    (textLines path d a).length = 6 + a.ranges.length + a.description.length +
      (a.description.flatMap Group.entries).countP Entry.isTab + a.description.allLines.length := by
  rw [textLines, List.length_append, List.length_append, List.length_append,
    length_flatMap_groupLines, List.length_map]
  simp only [List.length_cons, List.length_nil]
  omega

end Report

end Dissect
