import BraceLang.Analysis.Bounds
import BraceLang.Analysis.CallTypes
import BraceLang.Analysis.Conformance
import BraceLang.Analysis.Finals
import BraceLang.Analysis.Overloads

/-!
# The analysis of a program

The checks run one after the other, and the first one with findings decides the report.  A function without a body
stops the check of finals.
-/

namespace BraceLang

inductive AnalysisError where
  | overloads (findings : List Finding)
  | types (findings : List Finding)
  | interfaces (findings : List Finding)
  | bounds (findings : List Finding)
  | finals (findings : List Finding)
  | stopped (error : FinalCheckError)
  deriving DecidableEq, Repr

def findingLines (fs : List Finding) : String := String.join (fs.map fun f => " - " ++ f.text ++ "\n")

def AnalysisError.message : AnalysisError → String
  | overloads fs => "Invalid method overloads detected:\n" ++ findingLines fs
  | types fs => "Type checking failed:\n" ++ findingLines fs
  | interfaces fs => "Interface implementation errors:\n" ++ findingLines fs
  | bounds fs => "Generic bound errors:\n" ++ findingLines fs
  | finals fs => "Instance(s) declared final found reassigned: \n" ++ String.join (fs.map fun f => " - " ++ f.text)
  | stopped e => e.message

def failOn (error : List Finding → AnalysisError) (fs : List Finding) : Except AnalysisError Unit :=
  if fs.isEmpty then .ok () else .error (error fs)

def checkFinals (program : Node) : Except AnalysisError FinalCheck :=
  match FinalCheck.run program with
  | .ok s => .ok s
  | .error e => .error (.stopped e)

def analyse (symbols : SymbolTable) (program : Node) : Except AnalysisError Unit := do
  failOn .overloads program.overloadFindings
  failOn .types (symbols.checkTypes program []).findings
  failOn .interfaces program.interfaceFindings
  failOn .bounds (symbols.boundFindings program)
  failOn .finals (← checkFinals program).findings

end BraceLang
