import Fxml.Cli.Run

/-! The command line on the real files below the current directory. -/

namespace Fxml.Cli

/-- The entries below a directory of the given name, at most `depth` directories deep. -/
def loadEntries (depth : Nat) (name : String) : IO (List (String × FileEntry)) := do
  match depth with
  | 0 => return []
  | depth + 1 =>
    let top ← IO.FS.realPath (if name = "" then "." else name)
    let mut entries := []
    for entry in ← top.readDir do
      let path := Path.join name entry.fileName
      if ← entry.path.isDir then
        entries := entries ++ (path, .directory) :: (← loadEntries depth path)
      else
        let bytes ← IO.FS.readBinFile path
        entries := entries ++ [(path, .file bytes.toList)]
    return entries

def store (changes : List (String × List UInt8)) : IO Unit := do
  for (path, bytes) in changes do
    let directory := Path.directory path
    if directory != "" then IO.FS.createDirAll directory
    IO.FS.writeBinFile path ⟨bytes.toArray⟩

end Fxml.Cli

open Fxml in
def main (args : List String) : IO UInt32 := do
  let place ← IO.currentDir
  let tree := FileTree.ofEntries place.toString (← Cli.loadEntries 64 "")
  match Cli.run Catalog.empty args tree with
  | .error _ => return 1
  | .ok outcome =>
    Cli.store (outcome.tree.changedSince tree)
    IO.print outcome.out
    IO.eprint outcome.err
    return outcome.exit.toUInt32
