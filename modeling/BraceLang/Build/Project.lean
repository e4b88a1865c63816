import BraceLang.Build.Run

/-!
# Projects

A project has its sources in one directory and is built into another, both at the top of the project.
-/

namespace BraceLang

namespace Project

/-- Where the main file of a project is built to, from the top of the project. -/
def product : Path := .relative "build/__main__.py"

def build (around : Surroundings) (o : BuildOptions) (tools : Toolchain) (root : Path) : Work Path := do
  let out := root.join "build"
  Work.change (·.makeDirectory out)
  BraceLang.build around { o with output := some out } tools (root.join "src/__main__.spc")
  return root.join product.text

def report : String := "Built " ++ product.text ++ "\n"

end Project

end BraceLang
