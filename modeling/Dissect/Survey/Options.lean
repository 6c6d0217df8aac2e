import Dissect.Survey.OsText
import Dissect.Text.Numeral

/-! The command line, whose arguments are texts. Options may be given in any order; what cannot be
understood, is missing or is given too often ends in a usage error, and a request for help or for
the version counts as soon as it is read. -/
namespace Dissect.Survey

inductive ReportFormat where
  | text
  | ranges
  deriving DecidableEq, Repr

inductive Input where
  | file (path : OsText)
  | directory (path : OsText)
  deriving DecidableEq, Repr

structure Options where
  definitions : List OsText
  input : Input
  output : Option OsText
  verbosity : Nat
  format : ReportFormat
  stepLimit : Nat
  noGaps : Bool
  force : Bool
  detectOnly : Bool
  deriving DecidableEq, Repr

inductive Command where
  | usage
  | help
  | version
  | survey (options : Options)
  deriving DecidableEq, Repr

inductive Key where
  | definition
  | file
  | directory
  | output
  | verbose
  | format
  | stepLimit
  | noGaps
  | force
  | detectOnly
  | help
  | version
  deriving DecidableEq, Repr

namespace Key

def ofLong? : String → Option Key
  | "definition" => some .definition
  | "file" => some .file
  | "directory" => some .directory
  | "output" => some .output
  | "verbose" => some .verbose
  | "format" => some .format
  | "step-limit" => some .stepLimit
  | "no-gaps" => some .noGaps
  | "force" => some .force
  | "detect-only" => some .detectOnly
  | "help" => some .help
  | "version" => some .version
  | _ => none

def ofShort? : Char → Option Key
  | 'D' => some .definition
  | 'f' => some .file
  | 'd' => some .directory
  | 'o' => some .output
  | 'v' => some .verbose
  | 'h' => some .help
  | 'V' => some .version
  | _ => none

def takesValue : Key → Bool
  | .definition | .file | .directory | .output | .format | .stepLimit => true
  | _ => false

end Key

structure Draft where
  definitions : List String := []
  file : Option String := none
  directory : Option String := none
  output : Option String := none
  verbosity : Nat := 0
  format : Option ReportFormat := none
  stepLimit : Option Nat := none
  noGaps : Bool := false
  force : Bool := false
  detectOnly : Bool := false

namespace Draft

def once {α : Type} (earlier value : Option α) : Option (Option α) :=
  match earlier, value with
  | none, some v => some (some v)
  | _, _ => none

def nonEmpty (value : String) : Option String := if value = "" then none else some value

def reportFormat? : String → Option ReportFormat
  | "text" => some .text
  | "ranges" => some .ranges
  | _ => none

def setValue (d : Draft) (value : String) : Key → Option Draft
  | .definition =>
    (nonEmpty value).map fun v => { d with definitions := d.definitions ++ [v] }
  | .file => (once d.file (nonEmpty value)).map fun v => { d with file := v }
  | .directory => (once d.directory (nonEmpty value)).map fun v => { d with directory := v }
  | .output => (once d.output (nonEmpty value)).map fun v => { d with output := v }
  | .format => (once d.format (reportFormat? value)).map fun v => { d with format := v }
  | .stepLimit =>
    (once d.stepLimit (Text.unsigned? 10 UInt64.size value.toList)).map fun v =>
      { d with stepLimit := v }
  | _ => none

def setFlag (d : Draft) : Key → Option Draft
  | .verbose => some { d with verbosity := d.verbosity + 1 }
  | .noGaps => if d.noGaps then none else some { d with noGaps := true }
  | .force => if d.force then none else some { d with force := true }
  | .detectOnly => if d.detectOnly then none else some { d with detectOnly := true }
  | _ => none

/-- At least one definition and exactly one input are needed. -/
def finish (d : Draft) : Command :=
  let input := match d.file, d.directory with
    | some path, none => some (Input.file path)
    | none, some path => some (Input.directory path)
    | _, _ => none
  match d.definitions, input with
  | _ :: _, some input =>
    .survey {
      definitions := d.definitions.map .ofString
      input := input
      output := d.output.map .ofString
      verbosity := d.verbosity
      format := d.format.getD .text
      stepLimit := d.stepLimit.getD 1000000
      noGaps := d.noGaps
      force := d.force
      detectOnly := d.detectOnly }
  | _, _ => .usage

end Draft

inductive Progress where
  | stop (command : Command)
  | next (d : Draft)
  /-- The value of the option is the next argument. -/
  | valueOf (key : Key) (d : Draft)

def Progress.ofDraft : Option Draft → Progress
  | some d => .next d
  | none => .stop .usage

/-- Short options may stand together; the first one with a value takes the rest for it. -/
def readShort (d : Draft) : List Char → Progress
  | [] => .next d
  | c :: cs =>
    match Key.ofShort? c with
    | none => .stop .usage
    | some .help => .stop .help
    | some .version => .stop .version
    | some key =>
      if key.takesValue then
        match cs with
        | [] => .valueOf key d
        | '=' :: value => .ofDraft (d.setValue (String.ofList value) key)
        | value => .ofDraft (d.setValue (String.ofList value) key)
      else
        match d.setFlag key with
        | some d => readShort d cs
        | none => .stop .usage

def readLong (d : Draft) (arg : List Char) : Progress :=
  let name := arg.takeWhile (· != '=')
  match Key.ofLong? (String.ofList name), arg.drop name.length with
  | none, _ => .stop .usage
  | some .help, [] => .stop .help
  | some .version, [] => .stop .version
  | some key, [] => if key.takesValue then .valueOf key d else .ofDraft (d.setFlag key)
  | some key, _ :: value =>
    if key.takesValue then .ofDraft (d.setValue (String.ofList value) key) else .stop .usage

def readArgument (d : Draft) (arg : String) : Progress :=
  match arg.toList with
  | '-' :: '-' :: [] => .stop .usage
  | '-' :: '-' :: long => readLong d long
  | '-' :: c :: short => readShort d (c :: short)
  | _ => .stop .usage

def isValue (arg : String) : Bool :=
  match arg.toList with
  | '-' :: _ :: _ => false
  | _ => true

def readArguments (d : Draft) : List String → Command
  | [] => d.finish
  | ["--"] => d.finish
  | arg :: rest =>
    match readArgument d arg with
    | .stop command => command
    | .next d => readArguments d rest
    | .valueOf key d =>
      match rest with
      | [] => .usage
      | value :: rest =>
        if isValue value then
          match d.setValue value key with
          | some d => readArguments d rest
          | none => .usage
        else .usage

def Command.ofArguments (args : List String) : Command := readArguments {} args

end Dissect.Survey
