import BraceLang.CommandLine

/-!
# The program

Reads the files that a command may need, runs it on them and writes what it has changed.
-/

namespace BraceLang.Program

def readEntry (handle : IO.FS.Handle) : IO FileEntry := do
  try return .file (← handle.readToEnd)
  catch _ => return .directory

def probe (p : Path) : IO (Option FileEntry) := do
  try return some (← readEntry (← IO.FS.Handle.mk p.text .read))
  catch _ => return none

def load (tree : FileTree) (p : Path) : IO FileTree := do
  let place := (tree.resolve p).parts
  match ← probe (tree.resolve p) with
  | some (.file text) => return tree.addFile place text
  | some .directory => return tree.addDirectory place
  | none => return tree

/-- The tree with all files that a walk may ask for. -/
partial def loadWanted (tree : FileTree) (tried : List Path) : IO FileTree := do
  let new := (ImportGraph.wanted tree).filter (· ∉ tried)
  if new.isEmpty then return tree
  loadWanted (← new.foldlM load tree) (new ++ tried)

def loadFor (arguments : List String) : IO FileTree := do
  let cwd := Path.ofText (← IO.currentDir).toString
  let empty : FileTree := { cwd := cwd }
  let start := empty.addDirectory cwd.parts
  match CommandArguments.ofList arguments with
  | .error _ => return start
  | .ok a =>
    let named := (a.plain ++ ((a.value? .output).filter (!·.isEmpty)).toList).map Path.ofText
    let tree ← (named ++ named.map (·.join SourceFile.mainName)).foldlM load start
    loadWanted tree []

def run (arguments : List String) : IO UInt32 := do
  let tree ← loadFor arguments
  let tools : Toolchain := { home := tree.cwd, generator := .missing }
  let (outcome, w) := (CommandLine.run {} tools arguments).run { tree := tree }
  for (place, text) in w.tree.changesSince tree do
    IO.FS.writeFile ({ tree.cwd with parts := place } : Path).text text
  IO.print outcome.output
  match outcome with
  | .refused e => IO.eprintln ("Error: " ++ e.message)
  | .failed e => IO.eprintln e.message
  | .built | .shown _ => pure ()
  return outcome.exitCode.toUInt32

end BraceLang.Program

def main (arguments : List String) : IO UInt32 := BraceLang.Program.run arguments
