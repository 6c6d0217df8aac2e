import Dissect.Survey.Tree

/-! Files by the paths that name them, and what the system says when it cannot do something. There
are regular files, all of which can be read, and directories; nothing links to a place elsewhere. -/
namespace Dissect.Survey

inductive SystemFault where
  | notFound
  | exists
  | notDirectory
  | isDirectory
  | nameTooLong
  deriving DecidableEq, Repr

def SystemFault.message : SystemFault → String
  | .notFound => "No such file or directory (os error 2)"
  | .exists => "File exists (os error 17)"
  | .notDirectory => "Not a directory (os error 20)"
  | .isDirectory => "Is a directory (os error 21)"
  | .nameTooLong => "File name too long (os error 36)"

namespace Path

def slash : UInt8 := 0x2F

def dot : UInt8 := 0x2E

def names (path : OsText) : List OsText := (path.octets.splitOn slash).map .mk

def ofNames (names : List OsText) : OsText := ⟨[slash].intercalate (names.map OsText.octets)⟩

def join (dir name : OsText) : OsText :=
  if dir.octets.getLast? = some slash then dir ++ name else dir ++ "/" ++ name

/-- Cuts what adds nothing to the end of a path, last name first. -/
def cutEnd : List OsText → List OsText
  | name :: other :: rest =>
    if name = "" ∨ name = "." then cutEnd (other :: rest) else name :: other :: rest
  | short => short

theorem length_cutEnd_le (names : List OsText) : (cutEnd names).length ≤ names.length := by
  fun_induction cutEnd names with
  | case1 name other rest _ ih => exact Nat.le_succ_of_le ih
  | case2 => exact Nat.le_refl _
  | case3 => exact Nat.le_refl _

def ofReversed (names : List OsText) : OsText :=
  if names = [("" : OsText)] then "/" else ofNames names.reverse

def parentsFrom : List OsText → List OsText
  | [] => []
  | _ :: rest => ofReversed (cutEnd rest) :: parentsFrom (cutEnd rest)
termination_by names => names.length
decreasing_by exact Nat.lt_succ_of_le (length_cutEnd_le rest)

def parents (path : OsText) : List OsText := parentsFrom (cutEnd (names path).reverse)

/-- The last name of a path, if it can be that of a file. -/
def fileName? (path : OsText) : Option OsText :=
  match cutEnd (names path).reverse with
  | name :: _ => if name = "" ∨ name = "." ∨ name = ".." then none else some name
  | [] => none

/-- A name without its last extension. A dot in front begins no extension. -/
def withoutExtension (name : OsText) : OsText :=
  match (name.octets.reverse.dropWhile (· != dot)).drop 1 with
  | [] => name
  | before => ⟨before.reverse⟩

/-- The name of a file without its extension, where it is a text. -/
def stem (path : OsText) : String :=
  ((fileName? path).bind fun name => (withoutExtension name).text?).getD "input"

end Path

structure Files where
  root : Tree
  /-- The working directory, from which paths start that do not start at the root. -/
  home : List OsText
  deriving Repr

namespace Files

/-- Follows names from a directory. The last one may lead nowhere. -/
def follow (root : Tree) (here : List OsText) :
    List OsText → Except SystemFault (List OsText × Option Found)
  | [] => .ok (here, root.at? here)
  | name :: rest =>
    match root.at? here with
    | none => .error .notFound
    | some (.file _) => .error .notDirectory
    | some (.dir _) =>
      if name = "" ∨ name = "." then follow root here rest
      else if name = ".." then follow root here.dropLast rest
      else if 255 < name.octets.length then .error .nameTooLong
      else follow root (here ++ [name]) rest

def resolve (fs : Files) (path : OsText) : Except SystemFault (List OsText × Option Found) :=
  if path = "" then .error .notFound
  else
    let start := if path.octets.head? = some Path.slash then [] else fs.home
    follow fs.root start (Path.names path)

def found? (fs : Files) (path : OsText) : Option Found :=
  match fs.resolve path with
  | .ok (_, found) => found
  | .error _ => none

def isDir (fs : Files) (path : OsText) : Bool :=
  match fs.found? path with
  | some (.dir _) => true
  | _ => false

def read (fs : Files) (path : OsText) : Except SystemFault Buffer :=
  match fs.resolve path with
  | .error e => .error e
  | .ok (_, none) => .error .notFound
  | .ok (_, some (.dir _)) => .error .isDirectory
  | .ok (_, some (.file content)) => .ok content

def list (fs : Files) (path : OsText) : List (OsText × Bool) :=
  match fs.found? path with
  | some (.dir entries) => entries.entries.mergeSort fun a b => a.1 ≤ b.1
  | _ => []

def makeDir (fs : Files) (path : OsText) : Except SystemFault Files :=
  match fs.resolve path with
  | .error e => .error e
  | .ok (_, some _) => .error .exists
  | .ok (place, none) => .ok { fs with root := fs.root.put none place }

/-- Makes the first of these directories, and the others before it as far as needed, each of them
being the one that leads to the directory before. Tells whether it is there in the end. -/
def makeDirs (fs : Files) : List OsText → Files × Bool
  | [] => (fs, false)
  | path :: parents =>
    match fs.makeDir path with
    | .ok fs => (fs, true)
    | .error .notFound =>
      if path = "" then (fs, true)
      else
        match makeDirs fs parents with
        | (fs, false) => (fs, false)
        | (fs, true) =>
          match fs.makeDir path with
          | .ok fs => (fs, true)
          | .error _ => (fs, fs.isDir path)
    | .error _ => (fs, fs.isDir path)

def write (fs : Files) (path : OsText) (content : Buffer) : Except SystemFault Files :=
  match fs.resolve path with
  | .error e => .error e
  | .ok (_, some (.dir _)) => .error .isDirectory
  | .ok (place, _) => .ok { fs with root := fs.root.put (some content) place }

def pathOf (fs : Files) (place : List OsText) : OsText :=
  if fs.home.isPrefixOf place then Path.ofNames (place.drop fs.home.length)
  else "/" ++ Path.ofNames place

/-- The files that are new or have another content than before, by what is shown of their paths. -/
def changes (before after : Files) : List (String × Buffer) :=
  after.root.files.filterMap fun (place, content) =>
    match before.root.at? place with
    | some (.file old) =>
      if old = content then none else some ((before.pathOf place).display, content)
    | _ => some ((before.pathOf place).display, content)

def newDirs (before after : Files) : List String :=
  (after.root.dirs.filter fun place => (before.root.at? place).isNone).map
    fun place => (before.pathOf place).display

end Files

end Dissect.Survey
