import BraceLang.Build.Graph
import BraceLang.Build.Toolchain

/-!
# Builds

A build walks the import graph of an entry, and then checks, lowers and writes its files depth first.  The first file
that fails ends it; the files before it have been written.
-/

namespace BraceLang

structure BuildOptions where
  form : OutputForm := .python
  /-- The directory that all files are written to; otherwise each is written beside its source. -/
  output : Option Path := none
  order : NameOrder := .sorted
  /-- Whether to keep what is only made on the way to an executable. -/
  keep : Bool := false

namespace BuildOptions

def target (o : BuildOptions) : Target := o.form.target o.order

def outputPath (o : BuildOptions) (tree : FileTree) (file : SourceFile) : Path :=
  let beside := file.outputPath o.form
  match o.output with
  | some directory => (tree.resolve directory).join beside.name
  | none => beside

end BuildOptions

def buildFile (o : BuildOptions) (tools : Toolchain) (file : SourceFile) (unit : SourceUnit) : Work Unit := do
  match unit.verified Registry.builtin with
  | .error e => throw (.compile e)
  | .ok unit =>
    let out := o.outputPath (← get).tree file
    Work.write out (unit.emitted o.target)
    if o.form = .executable then
      let _ ← tools.makeExecutable o.keep out

def buildGraph (o : BuildOptions) (tools : Toolchain) (g : ImportGraph) (entry : SourceFile) : Work Unit := do
  let tree := (← get).tree
  (g.preorder tree entry).forM fun file =>
    match g.module? (tree.resolve file.path) with
    | some m => buildFile o tools file m.unit
    | none => return ()

def build (around : Surroundings) (o : BuildOptions) (tools : Toolchain) (p : Path) : Work Unit := do
  let (entry, g) := (ImportGraph.walk around (← get).tree p).run {}
  match entry with
  | .error e => throw e
  | .ok entry => buildGraph o tools g entry

end BraceLang
