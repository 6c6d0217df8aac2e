import Dissect.Document.Tables
import Dissect.Failure
import Dissect.Report
import Dissect.Survey.ContentHash
import Dissect.Survey.Files
import Dissect.Survey.Options
import Dissect.Text.Lowercase

/-! A survey of files: each is read, recognised by the first definition that accepts it and
reported on, unless a content with the same hash was seen before. The hash is a parameter; the
command takes `contentHash` for it. What is printed, the messages about the course of events
included, is collected in order. -/
namespace Dissect.Survey

inductive Level where
  | error
  | warn
  | info
  | debug
  | trace
  deriving DecidableEq, Repr

def Level.name : Level → String
  | .error => "ERROR"
  | .warn => "WARN"
  | .info => "INFO"
  | .debug => "DEBUG"
  | .trace => "TRACE"

def Level.threshold : Level → Nat
  | .error => 0
  | .warn => 0
  | .info => 1
  | .debug => 2
  | .trace => 3

structure Counts where
  files : Nat := 0
  duplicates : Nat := 0
  unrecognized : Nat := 0
  complete : Nat := 0
  halted : Nat := 0
  written : Nat := 0
  deriving DecidableEq, Repr

structure Session where
  files : Files
  verbosity : Nat
  /-- Hashes of the contents seen so far, with the file that each was first seen in. -/
  seen : List (String × OsText) := []
  counts : Counts := {}
  /-- What is printed, last piece first. -/
  printed : List String := []

namespace Session

def print (s : Session) (text : String) : Session := { s with printed := text :: s.printed }

def log (s : Session) (level : Level) (message : String) : Session :=
  if level.threshold ≤ s.verbosity then s.print (level.name ++ " " ++ message ++ "\n") else s

def count (s : Session) (add : Counts → Counts) : Session := { s with counts := add s.counts }

def output (s : Session) : String := String.join s.printed.reverse

end Session

/-! ### Messages -/

def opText : ArithOp → String
  | .set => "Set"
  | .mod => "Mod"
  | .add => "Add"
  | .sub => "Sub"
  | .mul => "Mul"
  | .div => "Div"

def valueText : Value → String
  | .unsigned v => "Unsigned(" ++ toString v.toNat ++ ")"
  | .signed v => "Signed(" ++ toString v.toInt ++ ")"
  | .rational r =>
    "Rational(Ratio \x7b num: " ++ toString r.num ++ ", den: " ++ toString r.den ++ " \x7d)"

def optionText : Option Value → String
  | some v => "Some(" ++ valueText v ++ ")"
  | none => "None"

def noteText : Note → String
  | .returned pc => "Returning from block at step " ++ toString pc
  | .entered block => "Entering block '" ++ block ++ "'"
  | .matchFailed pc target =>
    "Match at step " ++ toString pc ++ " failed, skipping to " ++ toString target
  | .selectionLeft target => "Selection satisfied, skipping to " ++ toString target
  | .loopLeft pc iterations =>
    "Loop at step " ++ toString pc ++ " done after " ++ toString iterations ++ " iterations"
  | .executed op name value =>
    "exec " ++ opText op ++ " on '" ++ name ++ "' -> " ++ optionText value

def verdictText (d : Definition) : Verdict → Option String
  | .accepted => some ("Signature of '" ++ d.name ++ "' accepted")
  | .rejected index =>
    some ("Signature of '" ++ d.name ++ "' rejected at step " ++ toString index)
  | .misplaced => none

def definitionText (d : Definition) : String :=
  "Compiled '" ++ d.name ++ "': " ++ toString d.fields.length ++ " fields, " ++
    toString d.blocks.length ++ " blocks, " ++ toString d.signatures.length ++
    " signatures, " ++ toString d.program.length ++ " steps"

def summaryText (c : Counts) : String :=
  "Summary: " ++ toString c.files ++ " files, " ++ toString c.duplicates ++
    " duplicates skipped, " ++ toString c.unrecognized ++ " unrecognized, " ++
    toString c.complete ++ " complete, " ++ toString c.halted ++ " partial, " ++
    toString c.written ++ " written"

/-! ### Definitions -/

def loadDefinition (fs : Files) (path : OsText) : Except Failure Definition :=
  match fs.read path with
  | .error fault => .error (.read path.display fault.message)
  | .ok content =>
    match Text.Utf8.decode? content.toList with
    | none => .error (.read path.display "stream did not contain valid UTF-8")
    | some source => (Document.compile source).mapError .document

def loadDefinitions (s : Session) :
    List OsText → Session × Except (OsText × Failure) (List Definition)
  | [] => (s, .ok [])
  | path :: rest =>
    match loadDefinition s.files path with
    | .error failure => (s, .error (path, failure))
    | .ok d =>
      let s := s.log .debug (definitionText d)
      let s := s.log .debug ("Compiled " ++ d.name ++ " from " ++ path.display)
      let s := s.log .info
        ("Loaded definition '" ++ d.name ++ "' (" ++ d.shortName ++ ") from " ++ path.display)
      let (s, others) := loadDefinitions s rest
      (s, others.map (d :: ·))

/-! ### Single files -/

def recognize (data : Buffer) : List Definition → Session → Session × Option Definition
  | [], s => (s, none)
  | d :: rest, s =>
    let s := ((d.verdicts data).filterMap (verdictText d)).foldl (·.log .trace ·) s
    if d.detects data then (s, some d) else recognize data rest s

def reportPath (dir input : OsText) (d : Definition) : OsText :=
  Path.join dir (.ofString (Path.stem input ++ "." ++ Text.lowercase d.shortName ++ ".txt"))

/-- Writes a report, which replaces another one only by `force`. The directories that lead to it are
made in any case; a message says why it could not be written. -/
def writeReport (fs : Files) (path : OsText) (content : String) (force : Bool) :
    Files × Option String :=
  let parents := Path.parents path
  match fs.makeDirs parents with
  | (fs, false) => (fs, some ("Failed to create directory: " ++ (parents.headD "").display))
  | (fs, true) =>
    if (fs.found? path).isSome && !force then
      (fs, some ("File already exists: " ++ path.display ++ " (use --force to overwrite)"))
    else
      match fs.write path content.toUTF8.data with
      | .ok fs => (fs, none)
      | .error fault => (fs, some (Failure.write path.display fault.message).message)

def analyzeFile (o : Options) (d : Definition) (path : OsText) (data : Buffer) (s : Session) :
    Session × Analysis :=
  let config : Config := { stepLimit := o.stepLimit, fillGaps := !o.noGaps }
  let s := s.log .debug
    ("Running '" ++ d.name ++ "' over " ++ toString data.size ++ " bytes")
  let run := d.run data config
  let s := if Level.trace.threshold ≤ s.verbosity then
      run.notes.foldl (fun s note => s.log .trace (noteText note)) s
    else s
  let s :=
    if run.outcome.isComplete then
      s.log .debug ("Run completed after " ++ toString run.steps ++ " steps")
    else s.log .debug ("Run halted: " ++ run.outcome.text)
  let s :=
    if run.outcome.isComplete then s.count fun c => { c with complete := c.complete + 1 }
    else
      (s.count fun c => { c with halted := c.halted + 1 }).log .debug
        (path.display ++ ": " ++ run.outcome.text)
  (s, d.analysisOf config data run)

def deliver (o : Options) (d : Definition) (path : OsText) (content : String) (s : Session) :
    Session :=
  match o.output with
  | none => s.print content
  | some dir =>
    let target := reportPath dir path d
    let (files, fault) := writeReport s.files target content o.force
    let s := { s with files := files }
    match fault with
    | none =>
      (s.print ("Wrote " ++ target.display ++ "\n")).count
        fun c => { c with written := c.written + 1 }
    | some message => s.log .error ("Failed to write " ++ target.display ++ ": " ++ message)

def surveyFile (hash : Buffer → String) (o : Options) (definitions : List Definition)
    (path : OsText) (data : Buffer) (s : Session) : Session :=
  let key := hash data
  let s := s.log .trace ("Reading " ++ path.display)
  let s := s.log .trace ("Read " ++ toString data.size ++ " bytes from " ++ path.display)
  let s := s.count fun c => { c with files := c.files + 1 }
  match s.seen.find? (·.1 == key) with
  | some (_, first) =>
    let s := s.log .debug
      ("Skipping duplicate: " ++ path.display ++ " (same content as " ++ first.display ++
        ", hash: " ++ key ++ ")")
    let s := s.count fun c => { c with duplicates := c.duplicates + 1 }
    if o.detectOnly then s.print (path.display ++ ": duplicate of " ++ first.display ++ "\n")
    else s
  | none =>
    let s := { s with seen := s.seen ++ [(key, path)] }
    match recognize data definitions s with
    | (s, none) =>
      let s := s.log .debug ("No definition recognizes " ++ path.display)
      let s := s.count fun c => { c with unrecognized := c.unrecognized + 1 }
      if o.detectOnly then s.print (path.display ++ ": unknown\n") else s
    | (s, some d) =>
      if o.detectOnly then s.print (path.display ++ ": " ++ d.name ++ "\n")
      else
        let (s, analysis) := analyzeFile o d path data s
        let content := match o.format with
          | .text => Report.text path.display d analysis
          | .ranges => Report.ranges analysis
        deliver o d path content s

/-! ### Directories -/

/-- A name with a dot in front. One that is no text does not count. -/
def isHidden (name : OsText) : Bool :=
  match name.text? with
  | some text => text.toList.head? = some '.'
  | none => false

/-- Goes through the entries that a directory has when it is reached, to a depth of nesting that
no directory exceeds. Comes with the number of files. -/
def surveyDir (hash : Buffer → String) (o : Options) (definitions : List Definition) :
    Nat → OsText → Session × Nat → Session × Nat
  | 0, _, acc => acc
  | depth + 1, dir, acc =>
    (acc.1.files.list dir).foldl (fun (s, n) (name, isDir) =>
      let path := Path.join dir name
      if isDir then surveyDir hash o definitions depth path (s, n)
      else
        match isHidden name, s.files.found? path with
        | false, some (.file data) =>
          let s := s.log .debug ("Processing file: " ++ path.display)
          (surveyFile hash o definitions path data s, n + 1)
        | _, _ => (s, n)) acc

/-- How deep directories can be nested at most, those that reports may need included. -/
def depthBound (fs : Files) (o : Options) (definitions : List Definition) : Nat :=
  fs.root.height + (Path.names (o.output.getD "")).length +
    definitions.foldl (fun n d => n + (Path.names (.ofString d.shortName)).length) 0 + 1

/-! ### The whole survey -/

structure Result where
  code : Nat
  stdout : String
  stderr : String
  files : Files

/-- A cause behind an error; its lines are set in by the width of its number. -/
def causeText (number : Nat) (message : String) : String :=
  Text.padLeft ' ' 5 (toString number) ++ ": " ++
    "\n       ".intercalate ((message.toList.splitOn '\n').map String.ofList) ++ "\n"

def failureText (path : OsText) (failure : Failure) : String :=
  "Error: Failed to load definition: " ++ path.display ++ "\n\nCaused by:\n" ++
    causeText 0 failure.message ++ causeText 1 failure.source

def Session.result (s : Session) : Result := ⟨0, s.output, "", s.files⟩

def Session.refuse (s : Session) (message : String) : Result :=
  ⟨1, s.output, "Error: " ++ message ++ "\n", s.files⟩

def Session.summarize (s : Session) (o : Options) : Session :=
  if o.detectOnly then s else s.log .info (summaryText s.counts)

def surveyInput (hash : Buffer → String) (o : Options) (definitions : List Definition)
    (s : Session) : Result :=
  match o.input with
  | .file path =>
    match s.files.found? path with
    | none => s.refuse ("Input file does not exist: " ++ path.display)
    | some (.dir _) => s.refuse ("Input path is not a file: " ++ path.display)
    | some (.file data) => ((surveyFile hash o definitions path data s).summarize o).result
  | .directory path =>
    match s.files.found? path with
    | none => s.refuse ("Directory does not exist: " ++ path.display)
    | some (.file _) => s.refuse ("Path is not a directory: " ++ path.display)
    | some (.dir _) =>
      let s := s.log .info ("Scanning directory: " ++ path.display)
      let (s, n) := surveyDir hash o definitions (depthBound s.files o definitions) path (s, 0)
      ((s.log .info ("Processed " ++ toString n ++ " files")).summarize o).result

/-- Contents are known by a hash, and those of the same hash are taken for the same. -/
def survey (hash : Buffer → String) (o : Options) (fs : Files) : Result :=
  match loadDefinitions { files := fs, verbosity := o.verbosity } o.definitions with
  | (s, .error (path, failure)) => ⟨1, s.output, failureText path failure, s.files⟩
  | (s, .ok definitions) => surveyInput hash o definitions s

def versionText : String := "hexform 0.1.0\n"

def usageText : String :=
  "Usage: hexform [OPTIONS] --definition <DEFINITIONS> <--file <FILE>|--directory <DIRECTORY>>\n"

def runCommand (args : List String) (fs : Files) (hash : Buffer → String := contentHash) : Result :=
  match Command.ofArguments args with
  | .usage => ⟨2, "", usageText, fs⟩
  | .help => ⟨0, usageText, "", fs⟩
  | .version => ⟨0, versionText, "", fs⟩
  | .survey o => survey hash o fs

end Dissect.Survey
