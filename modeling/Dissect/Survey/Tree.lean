import Dissect.Detect
import Dissect.Survey.OsText

/-! Directory trees. A tree is the row of entries of one directory. -/
namespace Dissect.Survey

inductive Tree where
  | nil
  | file (name : OsText) (content : Buffer) (rest : Tree)
  | dir (name : OsText) (inner rest : Tree)
  deriving Repr

inductive Found where
  | file (content : Buffer)
  | dir (entries : Tree)
  deriving Repr

namespace Tree

def find? (name : OsText) : Tree → Option Found
  | .nil => none
  | .file n content rest => if n = name then some (.file content) else rest.find? name
  | .dir n inner rest => if n = name then some (.dir inner) else rest.find? name

/-- Puts a file in the place of the entry of that name, or behind the others. -/
def putFile (name : OsText) (content : Buffer) : Tree → Tree
  | .nil => .file name content .nil
  | .file n c rest =>
    if n = name then .file name content rest else .file n c (rest.putFile name content)
  | .dir n inner rest =>
    if n = name then .file name content rest else .dir n inner (rest.putFile name content)

def putDir (name : OsText) (entries : Tree) : Tree → Tree
  | .nil => .dir name entries .nil
  | .file n c rest =>
    if n = name then .dir name entries rest else .file n c (putDir name entries rest)
  | .dir n inner rest =>
    if n = name then .dir name entries rest else .dir n inner (putDir name entries rest)

def at? : List OsText → Tree → Option Found
  | [], t => some (.dir t)
  | name :: path, t =>
    match t.find? name with
    | some (.dir inner) => at? path inner
    | some (.file content) => if path.isEmpty then some (.file content) else none
    | none => none

/-- Puts a file or an empty directory where a path leads, if all but its last name are
directories. -/
def put (content : Option Buffer) : List OsText → Tree → Tree
  | [], t => t
  | [name], t =>
    match content with
    | some bytes => t.putFile name bytes
    | none => putDir name .nil t
  | name :: path, t =>
    match t.find? name with
    | some (.dir inner) => putDir name (put content path inner) t
    | _ => t

def entries : Tree → List (OsText × Bool)
  | .nil => []
  | .file name _ rest => (name, false) :: rest.entries
  | .dir name _ rest => (name, true) :: rest.entries

def files : Tree → List (List OsText × Buffer)
  | .nil => []
  | .file name content rest => ([name], content) :: rest.files
  | .dir name inner rest =>
    inner.files.map (fun (path, content) => (name :: path, content)) ++ rest.files

def dirs : Tree → List (List OsText)
  | .nil => []
  | .file _ _ rest => rest.dirs
  | .dir name inner rest => [name] :: inner.dirs.map (name :: ·) ++ rest.dirs

def height : Tree → Nat
  | .nil => 0
  | .file _ _ rest => rest.height
  | .dir _ inner rest => max (inner.height + 1) rest.height

end Tree

end Dissect.Survey
