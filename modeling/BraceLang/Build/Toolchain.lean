import BraceLang.Build.Failure

/-!
# Toolchains

An executable is made in three steps: a generator makes C code of the text for the compiled target, a compiler makes
an object of it, and a linker makes the executable.
-/

namespace BraceLang

inductive ToolCall where
  | run (command : List String)
  | includeDirectory (path : String)
  | libraryDirectory (path : String)
  | library (name : String)
  | compile (sources : List String) (directory : String) (present : Bool)
  | link (objects : List String) (name directory : String)
  deriving DecidableEq, Repr

inductive Generator where
  | works
  | missing
  | fails (text : String)
  deriving DecidableEq, Repr

structure Toolchain where
  home : Path
  /-- Whether libraries and executables are named as on Windows. -/
  isWindows : Bool := false
  libraryDirectory : String := ""
  generator : Generator := .works
  compileFailure : Option String := none
  linkFailure : Option String := none

/-- The files of a build, and the calls of tools so far. -/
structure Workspace where
  tree : FileTree
  calls : List ToolCall := []

/-- A step of a build.  What has been written stays, also after a failure. -/
abbrev Work := ExceptT BuildError (StateM Workspace)

namespace Work

def change (f : FileTree → Except FileError FileTree) : Work Unit := do
  let w ← get
  match f w.tree with
  | .ok tree => set { w with tree := tree }
  | .error e => throw (.file e)

def write (p : Path) (text : String) : Work Unit := change (·.write p text)

def call (c : ToolCall) : Work Unit := modify fun w => { w with calls := w.calls ++ [c] }

def andFinally {α : Type} (step : Work α) (last : Work Unit) : Work α := do
  let outcome ← ExceptT.lift step.run
  last
  match outcome with
  | .ok a => return a
  | .error e => throw e

end Work

namespace Toolchain

def generate (t : Toolchain) (source code : Path) : Work Unit := do
  Work.call (.run [(t.home.join "python").text, "-m", "cython", "--embed", "-3", "-o", code.text, source.text])
  match t.generator with
  | .missing => throw (.tool .generatorMissing)
  | .fails text => throw (.tool (.generation text))
  | .works =>
    let w ← get
    match w.tree.write code "/* c */" with
    | .ok tree => set { w with tree := tree }
    | .error (.noSuchFile _) => throw (.tool .generatorMissing)
    | .error e => throw (.file e)

def runtimeLibrary (t : Toolchain) : String := if t.isWindows then "python311" else "python3.11"

/-- Make an object of C code and an executable of the object, with `scratch` as the directory for the object. -/
def compileAndLink (t : Toolchain) (code executable scratch : Path) : Work Unit := do
  Work.call (.includeDirectory (t.home.join "include").text)
  if !t.libraryDirectory.isEmpty then Work.call (.libraryDirectory t.libraryDirectory)
  let libs := t.home.join "libs"
  if t.isWindows && (← get).tree.contains libs then Work.call (.libraryDirectory libs.text)
  Work.call (.library t.runtimeLibrary)
  Work.call (.compile [code.text] scratch.text ((← get).tree.contains scratch))
  if let some text := t.compileFailure then throw (.tool (.compilation text))
  Work.call (.link [(scratch.join "out.o").text] executable.stem executable.parent.text)
  if let some text := t.linkFailure then throw (.tool (.compilation text))
  Work.write (executable.parent.join executable.stem) "ELF"

/-- Make an executable of a file for the compiled target.  What was made on the way is removed unless `keep`. -/
def makeExecutable (t : Toolchain) (keep : Bool) (source : Path) : Work Path := do
  let code := source.withSuffix ".c"
  let executable := source.withSuffix (if t.isWindows then ".exe" else "")
  t.generate source code
  let scratch := code.parent.join ".spice_build"
  Work.change (·.makeDirectory scratch)
  (t.compileAndLink code executable scratch).andFinally
    (modify fun w => { w with tree := w.tree.removeAll scratch })
  if !keep then
    for p in [code, source, source.withSuffix ".lib", source.withSuffix ".exp", source.withSuffix ".obj"] do
      Work.change (·.removeFile p)
  return executable

end Toolchain

end BraceLang
