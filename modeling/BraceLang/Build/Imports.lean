import BraceLang.Build.Failure

/-!
# Imports

The modules that a program imports are looked for in a list of directories.
-/

namespace BraceLang

structure SourceFile where
  path : Path
  /-- Whether the file was named by the directory that it is the main file of. -/
  isDirectory : Bool := false
  deriving DecidableEq, Repr

namespace SourceFile

def mainName : String := "__main__.spc"

def at? (tree : FileTree) (p : Path) : Option SourceFile :=
  if tree.isFile p then some ⟨p, false⟩
  else if tree.isFile (p.join mainName) then some ⟨p.join mainName, true⟩
  else none

def entry (tree : FileTree) (p : Path) : Except BuildError SourceFile :=
  match at? tree p with
  | some file => .ok file
  | none => .error (if tree.isDirectory p then .noMainFile p else .notSource p)

/-- What a file is known by: where it is, and whether a directory named it. -/
def key (tree : FileTree) (file : SourceFile) : Path × Bool := (tree.resolve file.path, file.isDirectory)

def outputPath (file : SourceFile) (form : OutputForm) : Path := file.path.withSuffix form.suffix

end SourceFile

/-- What the modules that a program imports have been found to be. -/
structure Imports where
  sources : List SourceFile := []
  /-- Files that are used as they are. -/
  others : List Path := []
  /-- The modules that have not been found. -/
  left : List String := []

structure Surroundings where
  /-- Modules that need not be found. -/
  builtin : List String := ["builtins", "sys", "time", "itertools"]
  libraries : List Path := []
  /-- The order in which sets of names are gone through. -/
  order : NameOrder := .sorted

namespace Imports

def modulesOf (program : Node) : List String :=
  program.statements.filterMap fun
    | .imports head => some head.source
    | _ => none

def candidates (suffix : String) (directory : Path) (module : String) : List Path :=
  let below := String.ofList (module.toList.map fun c => if c = '.' then '/' else c)
  [directory.join (below ++ suffix), (directory.join below).join ("__init__" ++ suffix)]

def source? (tree : FileTree) (directory : Path) (module : String) : Option SourceFile :=
  (candidates ".spc" directory module).findSome? (SourceFile.at? tree)

def other? (tree : FileTree) (directory : Path) (module : String) : Option Path :=
  (candidates ".py" directory module).find? tree.isFile

/-- Put a file behind those that are known, as the one of them that it is if there is one. -/
def share (tree : FileTree) (known : List SourceFile) (file : SourceFile) : List SourceFile :=
  known ++ [(known.find? fun f => f.key tree = file.key tree).getD file]

def addOther (tree : FileTree) (known : List Path) (p : Path) : List Path :=
  if tree.resolve p ∈ known.map tree.resolve then known else known ++ [p]

def search (tree : FileTree) (directory : Path) (found : Imports) (module : String) : Imports :=
  match source? tree directory module with
  | some file => { found with sources := share tree found.sources file }
  | none =>
    match other? tree directory module with
    | some p => { found with others := addOther tree found.others p }
    | none => { found with left := found.left ++ [module] }

def searchAll (tree : FileTree) (found : Imports) (directory : Path) : Imports :=
  found.left.foldl (search tree directory) { found with left := [] }

def find (tree : FileTree) (lookup : List Path) (modules : List String) : Imports :=
  lookup.foldl (searchAll tree) { left := modules }

end Imports

end BraceLang
