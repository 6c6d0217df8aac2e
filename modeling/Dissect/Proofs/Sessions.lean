import Dissect.Proofs.Places
import Dissect.Survey.Session

/-! What a file does to a session. Messages about the course of events come among what is printed,
but change nothing else, so a visit comes down to what is found out about the content: it goes into
the memory and the counts, and is printed or reported on. -/
namespace Dissect.Survey

/-! ### What is printed -/

inductive Piece where
  | message (level : Level) (text : String)
  | output (text : String)
  deriving DecidableEq, Repr

namespace Piece

def text : Piece → String
  | .message level text => level.name ++ " " ++ text ++ "\n"
  | .output text => text

def output? : Piece → Option String
  | .message _ _ => none
  | .output text => some text

def Shown (least verbosity : Nat) : Piece → Prop
  | .message level _ => least ≤ level.threshold ∧ level.threshold ≤ verbosity
  | .output _ => True

theorem map_text {least verbosity : Nat} (hlt : verbosity < least) {pieces : List Piece}
    (h : ∀ piece ∈ pieces, piece.Shown least verbosity) :
    pieces.map text = pieces.filterMap output? := by
  induction pieces with
  | nil => rfl
  | cons piece pieces ih =>
    obtain ⟨hpiece, hpieces⟩ := List.forall_mem_cons.1 h
    cases piece with
    | message level text =>
      obtain ⟨hleast, hverbosity⟩ := hpiece
      exact absurd (Nat.le_trans hleast hverbosity) (Nat.not_le.2 hlt)
    | output text =>
      rw [List.map_cons, ih hpieces]
      rfl

end Piece

namespace Session
variable {s s' s'' : Session} {least : Nat} {outputs outputs' : List String}

/-- From one session to a later one these outputs are printed, with messages among them. -/
structure Prints (least : Nat) (outputs : List String) (s s' : Session) : Prop where
  verbosity : s'.verbosity = s.verbosity
  pieces : ∃ pieces : List Piece, s'.printed = (pieces.map Piece.text).reverse ++ s.printed ∧
    pieces.filterMap Piece.output? = outputs ∧
    ∀ piece ∈ pieces, piece.Shown least s.verbosity

theorem Prints.silent (hverbosity : s'.verbosity = s.verbosity)
    (hprinted : s'.printed = s.printed) : Prints least [] s s' :=
  ⟨hverbosity, [], hprinted, rfl, fun _ h => nomatch h⟩

theorem Prints.trans (h : Prints least outputs s s') (h' : Prints least outputs' s' s'') :
    Prints least (outputs ++ outputs') s s'' := by
  obtain ⟨pieces, hprinted, houtputs, hshown⟩ := h.pieces
  obtain ⟨pieces', hprinted', houtputs', hshown'⟩ := h'.pieces
  refine ⟨h'.verbosity.trans h.verbosity, pieces ++ pieces', ?_, ?_, ?_⟩
  · rw [hprinted', hprinted, List.map_append, List.reverse_append, List.append_assoc]
  · rw [List.filterMap_append, houtputs, houtputs']
  · rw [h.verbosity] at hshown'
    exact List.forall_mem_append.2 ⟨hshown, hshown'⟩

theorem Prints.mono {most : Nat} (h : Prints most outputs s s') (hle : least ≤ most) :
    Prints least outputs s s' := by
  obtain ⟨pieces, hprinted, houtputs, hshown⟩ := h.pieces
  refine ⟨h.verbosity, pieces, hprinted, houtputs, fun piece hpiece => ?_⟩
  have hpiece := hshown piece hpiece
  cases piece with
  | message level text => exact ⟨Nat.le_trans hle hpiece.1, hpiece.2⟩
  | output text => trivial

theorem prints_print (s : Session) (text : String) : Prints least [text] s (s.print text) := by
  refine ⟨rfl, [.output text], rfl, rfl, fun piece hpiece => ?_⟩
  rw [List.mem_singleton.1 hpiece]
  trivial

theorem prints_log (s : Session) (level : Level) (text : String)
    (hleast : least ≤ level.threshold) : Prints least [] s (s.log level text) := by
  rw [log]
  split
  · refine ⟨rfl, [.message level text], rfl, rfl, fun piece hpiece => ?_⟩
    rw [List.mem_singleton.1 hpiece]
    exact ⟨hleast, ‹_›⟩
  · exact .silent rfl rfl

theorem Prints.output {fs : Files} {verbosity : Nat}
    (h : Prints least outputs { files := fs, verbosity := verbosity } s) :
    ∃ pieces : List Piece, s.output = String.join (pieces.map Piece.text) ∧
      pieces.filterMap Piece.output? = outputs ∧ ∀ piece ∈ pieces, piece.Shown least verbosity := by
  obtain ⟨pieces, hprinted, hpieces⟩ := h.pieces
  refine ⟨pieces, ?_, hpieces⟩
  rw [Session.output, hprinted, List.append_nil, List.reverse_reverse]

structure Logs (s s' : Session) : Prop where
  eq : s' = { s with printed := s'.printed }
  prints : Prints 1 [] s s'

theorem Logs.refl (s : Session) : Logs s s := ⟨rfl, .silent rfl rfl⟩

theorem Logs.trans (h : Logs s s') (h' : Logs s' s'') : Logs s s'' := by
  refine ⟨?_, h.prints.trans h'.prints⟩
  rw [h'.eq, h.eq]

theorem Logs.files (h : Logs s s') : s'.files = s.files := by rw [h.eq]

theorem Logs.seen (h : Logs s s') : s'.seen = s.seen := by rw [h.eq]

theorem Logs.counts (h : Logs s s') : s'.counts = s.counts := by rw [h.eq]

theorem logs_log (s : Session) (level : Level) (text : String) (hlevel : 1 ≤ level.threshold) :
    Logs s (s.log level text) := by
  refine ⟨?_, prints_log s level text hlevel⟩
  rw [log]
  split <;> rfl

theorem logs_foldl {α : Type} (s : Session) (level : Level) (text : α → String) (items : List α)
    (hlevel : 1 ≤ level.threshold) :
    Logs s (items.foldl (fun s item => s.log level (text item)) s) := by
  induction items generalizing s with
  | nil => exact .refl s
  | cons item items ih => exact (logs_log s level (text item) hlevel).trans (ih _)

theorem Logs.count (h : Logs s s') (add : Counts → Counts) : Logs (s.count add) (s'.count add) := by
  refine ⟨?_, h.prints.verbosity, h.prints.pieces⟩
  rw [h.eq]
  rfl

theorem Logs.see (h : Logs s s') (seen : List (String × OsText)) :
    Logs { s with seen := seen } { s' with seen := seen } := by
  refine ⟨?_, h.prints.verbosity, h.prints.pieces⟩
  rw [h.eq]

theorem Logs.quiet (h : Logs s s') (hquiet : s.verbosity = 0) : s' = s := by
  obtain ⟨pieces, hprinted, hnone, hshown⟩ := h.prints.pieces
  rw [hquiet] at hshown
  rw [Piece.map_text Nat.zero_lt_one hshown, hnone] at hprinted
  rw [h.eq, hprinted]
  rfl

theorem files_log (s : Session) (level : Level) (text : String) :
    (s.log level text).files = s.files := by
  rw [log]
  split <;> rfl

theorem files_summarize (s : Session) (o : Options) : (s.summarize o).files = s.files := by
  rw [summarize]
  split
  · rfl
  · exact s.files_log _ _

theorem prints_summarize (hleast : least ≤ 1) (s : Session) (o : Options) :
    Prints least [] s (s.summarize o) := by
  rw [summarize]
  split
  · exact .silent rfl rfl
  · exact prints_log s _ _ hleast

end Session

/-! ### What is found out -/

inductive Finding where
  | duplicate (first : OsText)
  | unknown
  | format (d : Definition)

def Finding.text : Finding → String
  | .duplicate first => "duplicate of " ++ first.display
  | .unknown => "unknown"
  | .format d => d.name

def newFinding (ds : List Definition) (data : Buffer) : Finding :=
  match ds.find? (·.detects data) with
  | some d => .format d
  | none => .unknown

section Keys
variable {κ : Type} [BEq κ]

/-- Looks for the key of a content among those seen so far, and only then for a definition. -/
def finding (ds : List Definition) (seen : List (κ × OsText)) (key : κ) (data : Buffer) : Finding :=
  match seen.find? (·.1 == key) with
  | some (_, first) => .duplicate first
  | none => newFinding ds data

def remember (seen : List (κ × OsText)) (path : OsText) (key : κ) : List (κ × OsText) :=
  if (seen.find? (·.1 == key)).isSome then seen else seen ++ [(key, path)]

theorem finding_of_detects {seen : List (κ × OsText)} {key : κ} {d : Definition} {data : Buffer}
    (hnew : seen.find? (·.1 == key) = none) (hdetects : d.detects data = true) :
    finding [d] seen key data = .format d := by
  rw [finding, hnew, newFinding, List.find?_cons, hdetects]

end Keys

/-- What a file counts as in the summary. -/
inductive Category where
  | duplicate
  | unrecognized
  | complete
  | halted
  deriving DecidableEq, Repr

def Options.config (o : Options) : Config := { stepLimit := o.stepLimit, fillGaps := !o.noGaps }

def Finding.category (o : Options) (data : Buffer) : Finding → Category
  | .duplicate _ => .duplicate
  | .unknown => .unrecognized
  | .format d => if (d.run data o.config).outcome.isComplete then .complete else .halted

namespace Counts

def add (category : Category) (c : Counts) : Counts :=
  match category with
  | .duplicate => { c with duplicates := c.duplicates + 1 }
  | .unrecognized => { c with unrecognized := c.unrecognized + 1 }
  | .complete => { c with complete := c.complete + 1 }
  | .halted => { c with halted := c.halted + 1 }

def visit (category : Category) (c : Counts) : Counts :=
  { c with files := c.files + 1 }.add category

def of (c : Counts) : Category → Nat
  | .duplicate => c.duplicates
  | .unrecognized => c.unrecognized
  | .complete => c.complete
  | .halted => c.halted

theorem of_visit (category category' : Category) (c : Counts) :
    (c.visit category).of category' = c.of category' + if category = category' then 1 else 0 := by
  cases category <;> cases category' <;> rfl

theorem of_written (c : Counts) (written : Nat) (category : Category) :
    { c with written := written }.of category = c.of category := by
  cases category <;> rfl

theorem files_visit (category : Category) (c : Counts) :
    (c.visit category).files = c.files + 1 := by
  cases category <;> rfl

theorem written_add (category : Category) (c : Counts) :
    (c.add category).written = c.written := by
  cases category <;> rfl

end Counts

def reportOn (o : Options) (d : Definition) (path : OsText) (data : Buffer) : String :=
  match o.format with
  | .text => Report.text path.display d (d.analyze o.config data)
  | .ranges => Report.ranges (d.analyze o.config data)

open Session

variable (hash : Buffer → String) (o : Options) (ds : List Definition) (path : OsText)
  (data : Buffer) (s : Session)

theorem recognize_eq : ∃ s', recognize data ds s = (s', ds.find? (·.detects data)) ∧ Logs s s' := by
  induction ds generalizing s with
  | nil => exact ⟨s, rfl, .refl s⟩
  | cons d rest ih =>
    have hverdicts := logs_foldl s .trace id ((d.verdicts data).filterMap (verdictText d))
      (by decide)
    rw [recognize, List.find?_cons]
    cases d.detects data with
    | true => exact ⟨_, rfl, hverdicts⟩
    | false =>
      obtain ⟨s', heq, hlogs⟩ := ih _
      exact ⟨s', heq, hverdicts.trans hlogs⟩

theorem analyzeFile_eq (d : Definition) :
    ∃ s', analyzeFile o d path data s = (s', d.analyze o.config data) ∧
      Logs (s.count (·.add ((Finding.format d).category o data))) s' := by
  have hstart := logs_log s .debug
    ("Running '" ++ d.name ++ "' over " ++ toString data.size ++ " bytes") (by decide)
  have hnotes (s₁ : Session) : Logs s₁ (if Level.trace.threshold ≤ s₁.verbosity then
      (d.run data o.config).notes.foldl (fun s note => s.log .trace (noteText note)) s₁
      else s₁) := by
    split
    · exact logs_foldl s₁ .trace noteText _ (by decide)
    · exact .refl s₁
  refine ⟨(analyzeFile o d path data s).1, rfl, ?_⟩
  rw [Finding.category, analyzeFile]
  change Logs _ (if (d.run data o.config).outcome.isComplete then _ else _)
  cases hcomplete : (d.run data o.config).outcome.isComplete with
  | true =>
    refine Logs.count (.trans (hstart.trans (hnotes _)) ?_) _
    change Logs _ (if (d.run data o.config).outcome.isComplete then _ else _)
    rw [hcomplete]
    exact logs_log _ _ _ (by decide)
  | false =>
    refine .trans (Logs.count (.trans (hstart.trans (hnotes _)) ?_) _) (logs_log _ _ _ (by decide))
    change Logs _ (if (d.run data o.config).outcome.isComplete then _ else _)
    rw [hcomplete]
    exact logs_log _ _ _ (by decide)

/-- What follows when the content of a file is found out. -/
def Session.conclude (found : Finding) : Session :=
  if o.detectOnly then s.print (path.display ++ ": " ++ found.text ++ "\n")
  else
    match found with
    | .format d => deliver o d path (reportOn o d path data) s
    | _ => s

/-- What `surveyFile` does with a content that was not seen before. -/
def surveyNew : Session :=
  match recognize data ds s with
  | (s, none) =>
    let s := s.log .debug ("No definition recognizes " ++ path.display)
    let s := s.count fun c => { c with unrecognized := c.unrecognized + 1 }
    if o.detectOnly then s.print (path.display ++ ": unknown\n") else s
  | (s, some d) =>
    if o.detectOnly then s.print (path.display ++ ": " ++ d.name ++ "\n")
    else
      let (s, analysis) := analyzeFile o d path data s
      let content := match o.format with
        | .text => Report.text path.display d analysis
        | .ranges => Report.ranges analysis
      deliver o d path content s

theorem surveyNew_eq :
    ∃ before counts, Logs { s with counts := counts } before ∧
      counts.written = s.counts.written ∧
      (o.detectOnly = false → counts = s.counts.add ((newFinding ds data).category o data)) ∧
      surveyNew o ds path data s = before.conclude o path data (newFinding ds data) := by
  obtain ⟨s₁, hrecognize, hlogs⟩ := recognize_eq ds data s
  rw [surveyNew, hrecognize, newFinding]
  cases ds.find? (·.detects data) with
  | none =>
    have hreject := logs_log s₁ .debug ("No definition recognizes " ++ path.display) (by decide)
    refine ⟨_, _, (hlogs.trans hreject).count (·.add .unrecognized), rfl, fun _ => rfl, ?_⟩
    have hline : ": unknown\n" = ": " ++ ("unknown" ++ "\n") := rfl
    simp only [conclude, Finding.text, hline, String.append_assoc]
    rfl
  | some d =>
    obtain ⟨s₂, hanalyze, hlogs'⟩ := analyzeFile_eq o path data s₁ d
    dsimp only
    rw [hanalyze]
    cases hmode : o.detectOnly with
    | true =>
      refine ⟨_, _, hlogs, rfl, (nomatch ·), ?_⟩
      rw [conclude, hmode]
      rfl
    | false =>
      refine ⟨_, _, (hlogs.count _).trans hlogs', ?_, fun _ => rfl, ?_⟩
      · exact Counts.written_add ((Finding.format d).category o data) s.counts
      · rw [conclude, hmode, reportOn]
        rfl

theorem surveyFile_eq :
    ∃ before counts,
      Logs { s with seen := remember s.seen path (hash data), counts := counts } before ∧
      counts.written = s.counts.written ∧
      (o.detectOnly = false →
        counts = s.counts.visit ((finding ds s.seen (hash data) data).category o data)) ∧
      surveyFile hash o ds path data s =
        before.conclude o path data (finding ds s.seen (hash data) data) := by
  have hread := ((logs_log s .trace ("Reading " ++ path.display) (by decide)).trans
    (logs_log _ .trace ("Read " ++ toString data.size ++ " bytes from " ++ path.display)
      (by decide))).count fun c => { c with files := c.files + 1 }
  rw [surveyFile, remember, finding]
  generalize ((s.log .trace ("Reading " ++ path.display)).log .trace
    ("Read " ++ toString data.size ++ " bytes from " ++ path.display)).count
      (fun c => { c with files := c.files + 1 }) = s₁ at hread ⊢
  have hseen : s₁.seen = s.seen := hread.seen
  rw [hseen]
  cases s.seen.find? (·.1 == hash data) with
  | some entry =>
    obtain ⟨key, first⟩ := entry
    have hskip := logs_log s₁ .debug
      ("Skipping duplicate: " ++ path.display ++ " (same content as " ++ first.display ++
        ", hash: " ++ hash data ++ ")") (by decide)
    refine ⟨_, _, (hread.trans hskip).count (·.add .duplicate), rfl, fun _ => rfl, ?_⟩
    have hline : ": duplicate of " = ": " ++ "duplicate of " := rfl
    simp only [conclude, Finding.text, hline, String.append_assoc]
    rfl
  | none =>
    obtain ⟨before, counts, hlogs, hwritten, hcounts, heq⟩ :=
      surveyNew_eq o ds path data { s₁ with seen := s.seen ++ [(hash data, path)] }
    have hcount : s₁.counts = { s.counts with files := s.counts.files + 1 } := hread.counts
    rw [hcount] at hwritten hcounts
    exact ⟨before, counts, ((hread.see _).count fun _ => counts).trans hlogs, hwritten, hcounts,
      heq⟩

/-! ### Reports -/

/-- A report on its way to a place: the directories that lead to it are there, and without `force`
nothing else is at the place. -/
structure Files.Receives (place : List OsText) (content : Buffer) (force : Bool) (target : OsText)
    (fs fs' : Files) : Prop where
  between : ∃ between, fs.Grows between ∧ between.place? target = some place ∧
    (force = false → between.root.kind place = none) ∧ Puts place (some content) between fs'

/-- A report is written to where its path leads, or there are only more directories than before. -/
theorem writeReport_cases (fs : Files) (target : OsText) (content : String) (force : Bool) :
    (∃ fs', writeReport fs target content force = (fs', none) ∧
      ∃ place, Files.Receives place content.toUTF8.data force target fs fs') ∨
    ∃ fs' message, writeReport fs target content force = (fs', some message) ∧ fs.Grows fs' := by
  have hgrows := Files.makeDirs_grows fs (Path.parents target)
  rw [writeReport]
  cases hmade : fs.makeDirs (Path.parents target) with
  | mk fs₁ made =>
    rw [hmade] at hgrows
    cases made with
    | false => exact .inr ⟨_, _, rfl, hgrows⟩
    | true =>
      simp only
      split
      · exact .inr ⟨_, _, rfl, hgrows⟩
      · rename_i hfree
        split
        · rename_i fs' hwrite
          obtain ⟨place, hplace, hputs⟩ := Files.write_eq_ok hwrite
          refine .inl ⟨_, rfl, place, fs₁, hgrows, hplace, fun hforce => ?_, hputs⟩
          -- What is at the place would have been found.
          rw [Tree.kind, Option.map_eq_none_iff, Option.eq_none_iff_forall_ne_some]
          intro found hfound
          rw [hforce, Files.found?_eq_some.2 ⟨place, hplace, hfound⟩] at hfree
          exact hfree rfl
        · exact .inr ⟨_, _, rfl, hgrows⟩

namespace Files.Receives
variable {fs fs' : Files} {place : List OsText} {content : Buffer} {force : Bool} {target : OsText}

theorem keeps (h : Receives place content force target fs fs') : fs.Keeps fs' := by
  obtain ⟨between, hgrows, -, -, hputs⟩ := h.between
  exact hgrows.keeps.trans hputs.keeps

theorem place? (h : Receives place content force target fs fs') :
    fs'.place? target = some place := by
  obtain ⟨between, -, hplace, -, hputs⟩ := h.between
  exact hputs.keeps.place? hplace

theorem kind (h : Receives place content force target fs fs') :
    fs'.root.kind place = some (some content) := by
  obtain ⟨between, -, -, -, hputs⟩ := h.between
  rw [hputs.kind, if_pos rfl]

theorem kind_of_ne (h : Receives place content force target fs fs') {other : List OsText}
    (hother : other ≠ place) (hsome : (fs.root.kind other).isSome) :
    fs'.root.kind other = fs.root.kind other := by
  obtain ⟨between, hgrows, -, -, hputs⟩ := h.between
  rw [hputs.kind, if_neg hother, hgrows.kind other hsome]

theorem fresh (h : Receives place content force target fs fs') (hforce : force = false) :
    fs.root.kind place = none := by
  obtain ⟨between, hgrows, -, hfresh, -⟩ := h.between
  by_contra hsome
  have hkind := hgrows.kind place (Option.isSome_iff_ne_none.2 hsome)
  exact hsome (hkind ▸ hfresh hforce)

end Files.Receives

variable {o}

theorem deliver_cases {dir : OsText} (hout : o.output = some dir) (d : Definition)
    (content : String) :
    (∃ fs' place,
      Files.Receives place content.toUTF8.data o.force (reportPath dir path d) s.files fs' ∧
      deliver o d path content s =
        ({ s with files := fs' }.print ("Wrote " ++ (reportPath dir path d).display ++ "\n")).count
          fun c => { c with written := c.written + 1 }) ∨
    ∃ fs' message, s.files.Grows fs' ∧
      deliver o d path content s = { s with files := fs' }.log .error message := by
  rw [deliver, hout]
  obtain ⟨fs', hwrite, place, hreceives⟩ | ⟨fs', message, hwrite, hgrows⟩ :=
    writeReport_cases s.files (reportPath dir path d) content o.force
  · dsimp only
    rw [hwrite]
    exact .inl ⟨fs', place, hreceives, rfl⟩
  · dsimp only
    rw [hwrite]
    exact .inr ⟨fs', _, hgrows, rfl⟩

theorem deliver_keeps (d : Definition) (content : String) :
    s.files.Keeps (deliver o d path content s).files := by
  cases hout : o.output with
  | none =>
    rw [deliver, hout]
    exact .refl _
  | some dir =>
    obtain ⟨fs', place, hreceives, heq⟩ | ⟨fs', message, hgrows, heq⟩ :=
      deliver_cases path s hout d content
    · rw [heq]
      exact hreceives.keeps
    · rw [heq, files_log]
      exact hgrows.keeps

theorem deliver_seen (d : Definition) (content : String) :
    (deliver o d path content s).seen = s.seen := by
  cases hout : o.output with
  | none =>
    rw [deliver, hout]
    rfl
  | some dir =>
    obtain ⟨fs', place, -, heq⟩ | ⟨fs', message, -, heq⟩ := deliver_cases path s hout d content
    · rw [heq]
      rfl
    · rw [heq, log]
      split <;> rfl

theorem deliver_counts (d : Definition) (content : String) :
    ∃ written, (deliver o d path content s).counts = { s.counts with written := written } := by
  cases hout : o.output with
  | none =>
    rw [deliver, hout]
    exact ⟨_, rfl⟩
  | some dir =>
    obtain ⟨fs', place, -, heq⟩ | ⟨fs', message, -, heq⟩ := deliver_cases path s hout d content
    · rw [heq]
      exact ⟨_, rfl⟩
    · rw [heq, log]
      split <;> exact ⟨_, rfl⟩

variable (o)

theorem conclude_cases (found : Finding) :
    o.detectOnly = true ∧
      s.conclude o path data found = s.print (path.display ++ ": " ++ found.text ++ "\n") ∨
    o.detectOnly = false ∧ (∀ d, found ≠ .format d) ∧ s.conclude o path data found = s ∨
    o.detectOnly = false ∧ ∃ d, found = .format d ∧
      s.conclude o path data found = deliver o d path (reportOn o d path data) s := by
  unfold conclude
  cases o.detectOnly with
  | true => exact .inl ⟨rfl, rfl⟩
  | false =>
    cases found with
    | format d => exact .inr (.inr ⟨rfl, d, rfl, rfl⟩)
    | duplicate first => exact .inr (.inl ⟨rfl, by simp, rfl⟩)
    | unknown => exact .inr (.inl ⟨rfl, by simp, rfl⟩)

theorem conclude_counts (found : Finding) : ∃ written,
    (s.conclude o path data found).counts = { s.counts with written := written } := by
  obtain ⟨-, heq⟩ | ⟨-, -, heq⟩ | ⟨-, d, -, heq⟩ :=
    conclude_cases o path data s found
  · rw [heq]
    exact ⟨_, rfl⟩
  · rw [heq]
    exact ⟨_, rfl⟩
  · rw [heq]
    exact deliver_counts _ _ _ _

variable {o path data s}

theorem conclude_seen (found : Finding) : (s.conclude o path data found).seen = s.seen := by
  obtain ⟨-, heq⟩ | ⟨-, -, heq⟩ | ⟨-, d, -, heq⟩ :=
    conclude_cases o path data s found
  · rw [heq]
    rfl
  · rw [heq]
  · rw [heq, deliver_seen]

theorem conclude_keeps (found : Finding) :
    s.files.Keeps (s.conclude o path data found).files := by
  obtain ⟨-, heq⟩ | ⟨-, -, heq⟩ | ⟨-, d, -, heq⟩ :=
    conclude_cases o path data s found
  · rw [heq]
    exact .refl _
  · rw [heq]
    exact .refl _
  · rw [heq]
    exact deliver_keeps _ _ _ _

theorem conclude_files (h : o.detectOnly = true ∨ o.output = none) (found : Finding) :
    (s.conclude o path data found).files = s.files := by
  obtain ⟨-, heq⟩ | ⟨-, -, heq⟩ | ⟨hmode, d, -, heq⟩ :=
    conclude_cases o path data s found
  · rw [heq]
    rfl
  · rw [heq]
  · rw [heq, deliver, h.resolve_left (by simp [hmode])]
    rfl

end Dissect.Survey
