import BraceLang.Files.Tree
import BraceLang.SourceUnit

/-!
# Failures of a build
-/

namespace BraceLang

inductive ToolError where
  | generatorMissing
  | generation (text : String)
  | compilation (text : String)
  deriving DecidableEq, Repr

def ToolError.message : ToolError → String
  | generatorMissing => "Cython not found. Install it with: pip install cython"
  | generation text => "Cython compilation failed:\n" ++ text
  | compilation text => "C compilation failed: " ++ text

inductive BuildError where
  | noMainFile (path : Path)
  | notSource (path : Path)
  | unresolved (modules : List String) (lookup : List Path)
  /-- The files of a cycle, the first of them again at the end. -/
  | cycle (files : List Path)
  | compile (error : CompileError)
  | file (error : FileError)
  | tool (error : ToolError)

namespace BuildError

def row (text : String) : String := " - " ++ text

def message : BuildError → String
  | noMainFile p => "Directory '" ++ p.text ++ "' does not contain '__main__.spc'"
  | notSource p => "Expected a .spc file or a directory containing '__main__.spc', got: " ++ p.text
  | unresolved modules lookup =>
    "\nUnresolved imports found: \n" ++ String.join (modules.map fun m => row m ++ "\n") ++
      "All available source sets: \n" ++ String.join (lookup.map fun p => row p.text ++ "\n")
  | cycle files => "Circular import detected:\n" ++ String.intercalate " ->\n" (files.map fun p => row p.text)
  | compile e => e.message
  | file e => e.message
  | tool e => e.message

end BuildError

end BraceLang
