import Dissect.Survey.Session

/-! The command. A survey works on a copy of those files and directories that it can ask for; what
it changes in the copy is then changed on disk. Files are reached by what is shown of their names,
so this layer does not find those whose names are no texts. -/
namespace Dissect.Command
open Survey

/-- Copies what a path leads to, if what leads to it is copied already. -/
def copy (fs : Files) (path : OsText) : IO Files := do
  match fs.resolve path with
  | .ok (_, none) =>
    let place := (← IO.currentDir) / path.display
    if ← place.isDir then return (fs.makeDir path).toOption.getD fs
    else if ← place.pathExists then
      let content := (← IO.FS.readBinFile place).data
      return (fs.write path content).toOption.getD fs
    else return fs
  | _ => return fs

def copyPath (fs : Files) (path : OsText) : IO Files :=
  ((Path.parents path).reverse ++ [path]).foldlM copy fs

partial def copyDir (fs : Files) (path : OsText) : IO Files := do
  let fs ← copyPath fs path
  let place := (← IO.currentDir) / path.display
  if ← place.isDir then
    (← place.readDir).foldlM (fun fs entry => copyDir fs (Path.join path entry.fileName)) fs
  else return fs

def reportPaths (o : Options) (fs : Files) : List OsText :=
  match loadDefinitions { files := fs, verbosity := 0 } o.definitions, o.output with
  | (_, .ok definitions), some dir =>
    let inputs := fs.root.files.map fun (place, _) => Path.ofNames place
    definitions.flatMap fun d => inputs.map fun input => reportPath dir input d
  | _, _ => []

def snapshot (o : Options) : IO Files := do
  let home : OsText := toString (← IO.currentDir)
  let start := ((⟨.nil, []⟩ : Files).makeDirs (home :: Path.parents home)).1
  let fs : Files := { start with home := (Path.names home).filter (· ≠ "") }
  let fs ← o.definitions.foldlM copyPath fs
  let fs ← match o.input with
    | .file path => copyPath fs path
    | .directory path => copyDir fs path
  (reportPaths o fs).foldlM copyPath fs

def store (before after : Files) : IO Unit := do
  for path in Files.newDirs before after do
    IO.FS.createDirAll path
  for (path, content) in Files.changes before after do
    IO.FS.writeBinFile path ⟨content⟩

end Dissect.Command

open Dissect.Survey in
def main (args : List String) : IO UInt32 := do
  let before ← match Command.ofArguments args with
    | .survey o => Dissect.Command.snapshot o
    | _ => pure ⟨.nil, []⟩
  let result := runCommand args before
  Dissect.Command.store before result.files
  IO.print result.stdout
  IO.eprint result.stderr
  return result.code.toUInt32
