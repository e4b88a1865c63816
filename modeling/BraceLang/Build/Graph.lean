import BraceLang.Build.Imports

/-!
# The import graph

Starting from one file, every file that is reached by imports is read once.
-/

namespace BraceLang

def SourceFile.unit (tree : FileTree) (file : SourceFile) : Except CompileError SourceUnit :=
  let start : SourceUnit := { source := (tree.read? file.path).getD "" }
  start.tokenize >>= SourceUnit.parse

def Surroundings.needed (around : Surroundings) (unit : SourceUnit) : List String :=
  (Imports.modulesOf unit.program).filter (· ∉ around.builtin)

/-- A file that has been read, with what it imports. -/
structure SourceModule where
  file : SourceFile
  unit : SourceUnit
  imports : Imports

namespace SourceModule

def load (around : Surroundings) (tree : FileTree) (lookup : List Path) (file : SourceFile) :
    Except BuildError SourceModule :=
  match file.unit tree with
  | .error e => .error (.compile e)
  | .ok unit =>
    let found := Imports.find tree lookup (around.needed unit)
    if found.left.isEmpty then .ok ⟨file, unit, found⟩ else .error (.unresolved found.left lookup)

end SourceModule

/-- The files that have been read, by their resolved paths, and the directories to search. -/
structure ImportGraph where
  lookup : List Path := []
  modules : List (Path × SourceModule) := []

/-- A step of the walk.  What has been found so far stays, also after a failure. -/
abbrev Walk := ExceptT BuildError (StateM ImportGraph)

namespace ImportGraph

def module? (g : ImportGraph) (file : Path) : Option SourceModule := g.modules.lookup file

def sources (g : ImportGraph) (file : Path) : List SourceFile := ((g.module? file).map (·.imports.sources)).getD []

/-- Whether a file has been read.  The main file of a directory has two names, its own and that of the directory, and
having read it by one of them does not count for the other. -/
def holds (g : ImportGraph) (resolve : Path → Path) (file : SourceFile) : Bool :=
  g.modules.any fun (place, m) => place = resolve file.path && m.file.isDirectory = file.isDirectory

def addLookup (tree : FileTree) (lookup : List Path) (p : Path) : List Path :=
  if tree.resolve p ∉ lookup && tree.contains p then lookup ++ [tree.resolve p] else lookup

def lookupWith (around : Surroundings) (tree : FileTree) (entry : Path) (lookup : List Path) (file : SourceFile) :
    List Path :=
  (entry :: file.path.parent :: tree.cwd :: around.libraries).foldl (addLookup tree) lookup

def read (around : Surroundings) (tree : FileTree) (entry : Path) (file : SourceFile) : Walk (List SourceFile) := do
  modify fun g => { g with lookup := lookupWith around tree entry g.lookup file }
  match SourceModule.load around tree (← get).lookup file with
  | .error e => throw e
  | .ok m =>
    modify fun g => { g with modules := g.modules ++ [(tree.resolve file.path, m)] }
    return m.imports.sources

/-- Walk from a file, where `opening` reads a file and gives the sources that it imports, and `path` are the files on
the way to it.  Files that have been read are not walked again.  A path has no file twice, so `fuel` need not exceed the
number of files. -/
def visit (resolve : Path → Path) (opening : SourceFile → Walk (List SourceFile)) :
    Nat → List Path → SourceFile → Walk Unit
  | 0, _, _ => return ()
  | fuel + 1, path, file => do
    let next ← opening file
    let path := path ++ [resolve file.path]
    next.forM fun imported => do
      let target := resolve imported.path
      if target ∈ path then throw (.cycle (path.drop (path.idxOf target) ++ [target]))
      if !(← get).holds resolve imported then visit resolve opening fuel path imported

/-- Walk from a path; the file that it names is the result.  What an earlier walk has left is forgotten first. -/
def walk (around : Surroundings) (tree : FileTree) (p : Path) : Walk SourceFile := do
  set ({} : ImportGraph)
  match SourceFile.entry tree p with
  | .error e => throw e
  | .ok file =>
    visit tree.resolve (read around tree p) (tree.entries.length + 1) [] file
    return file

/-- The files that are reached from `pending`, depth first, each of those that remain at most once. -/
def preorderFrom (resolve : Path → Path) (next : Path → List SourceFile) (remaining : List Path)
    (pending : List SourceFile) : List SourceFile :=
  match _found : pending.find? (fun f => remaining.contains (resolve f.path)) with
  | none => []
  | some f =>
    f :: preorderFrom resolve next (remaining.erase (resolve f.path)) (next (resolve f.path) ++ pending)
termination_by remaining.length
decreasing_by
  have member : resolve f.path ∈ remaining := by
    simpa using List.find?_some _found
  have smaller := List.length_erase_of_mem member
  have positive := List.length_pos_of_mem member
  omega

def preorder (g : ImportGraph) (tree : FileTree) (entry : SourceFile) : List SourceFile :=
  preorderFrom tree.resolve g.sources (g.modules.map Prod.fst).eraseDups [entry]

def modulesOfText (text : String) : List String :=
  let start : SourceUnit := { source := text }
  match start.tokenize >>= SourceUnit.parse with
  | .ok unit => Imports.modulesOf unit.program
  | .error _ => []

/-- The paths below its directories that the walk of a tree may ask for, where the tree need not have all its files. -/
def wanted (tree : FileTree) : List Path :=
  let modules := tree.entries.flatMap fun
    | (_, .file text) => modulesOfText text
    | (_, .directory) => []
  let directories := tree.cwd :: tree.entries.filterMap fun
    | (place, .directory) => some { tree.cwd with parts := place }
    | (_, .file _) => none
  directories.flatMap fun d => modules.eraseDups.flatMap fun m =>
    Imports.candidates ".py" d m ++ (Imports.candidates ".spc" d m).flatMap fun p => [p, p.join SourceFile.mainName]

end ImportGraph

end BraceLang
