import BraceLang.Analysis.Report
import BraceLang.Annotations.Lowering
import BraceLang.Emission.Program
import BraceLang.Grammar.Program
import BraceLang.Syntax.Occurrence
import BraceLang.Token.Scan

/-!
# Source units

A source unit is a program on its way through the compiler: its text, its tokens, its tree, what the analysis knows
about it, and what annotations have asked for.
-/

namespace BraceLang

/-- A program on its way through the compiler. -/
structure SourceUnit where
  source : String := ""
  tokens : List Token := []
  program : Node := .module []
  /-- The declarations, once they have been collected. -/
  symbols : Option SymbolTable := none
  overloads : OverloadTable := []
  /-- The imports asked for beside those of the program. -/
  imports : List String := []
  diagnostics : List String := []
  warnings : List String := []

inductive CompileError where
  | lex (error : LexError)
  | parse (error : ParseError)
  | analysis (error : AnalysisError)
  | processor (error : ProcessorError)
  | annotations (errors : List String)

def CompileError.message : CompileError → String
  | lex e => e.message
  | parse e => e.message
  | analysis e => e.message
  | processor e => e.message
  | annotations errors =>
    "Annotation processing failed:\n" ++ String.join (errors.map fun e => " - " ++ e ++ "\n")

namespace SourceUnit

def tokenize (u : SourceUnit) : Except CompileError SourceUnit :=
  match BraceLang.tokenize u.source with
  | .ok tokens => .ok { u with tokens := tokens }
  | .error e => .error (.lex e)

def parse (u : SourceUnit) : Except CompileError SourceUnit :=
  match parseTokens u.tokens with
  | .ok program => .ok { u with program := program }
  | .error e => .error (.parse e)

def collectSymbols (u : SourceUnit) : SourceUnit := { u with symbols := some u.program.symbols }

def resolveOverloads (u : SourceUnit) : SourceUnit :=
  { u with overloads := u.program.overloadTable, program := u.program.decorated }

def prepare (u : SourceUnit) : SourceUnit := u.collectSymbols.resolveOverloads

def knownSymbols (u : SourceUnit) : SymbolTable := u.symbols.getD {}

/-- The outcome of the analysis of a prepared unit.  If it is not decisive, only what stops a check counts. -/
def analysisError? (u : SourceUnit) (decisive : Bool) : Option AnalysisError :=
  let outcome := if decisive then analyse u.knownSymbols u.program else (checkFinals u.program).map fun _ => ()
  match outcome with
  | .ok () => none
  | .error e => some e

def checked (u : SourceUnit) (decisive : Bool) : Except CompileError SourceUnit :=
  match u.prepare.analysisError? decisive with
  | none => .ok u.prepare
  | some e => .error (.analysis e)

def lower (registry : Registry) (u : SourceUnit) : SourceUnit × Lowering :=
  let (program, l) := Lowering.run registry u.program
    { diagnostics := u.diagnostics, warnings := u.warnings, imports := u.imports }
  ({ u with program := program, diagnostics := l.diagnostics, warnings := l.warnings, imports := l.imports }, l)

def lowered (registry : Registry) (u : SourceUnit) : Except CompileError SourceUnit :=
  let (u, l) := u.lower registry
  match l.stopped with
  | some e => .error (.processor e)
  | none => if l.errors.isEmpty then .ok u else .error (.annotations l.errors)

def verified (registry : Registry) (u : SourceUnit) : Except CompileError SourceUnit := do
  (← (← u.checked false).lowered registry).checked true

def emitted (u : SourceUnit) (target : Target) : String := u.program.toSource target u.imports

def compile (registry : Registry) (target : Target) (source : String) : Except CompileError String := do
  let u : SourceUnit := { source := source }
  return (← (← (← u.tokenize).parse).verified registry).emitted target

/-! ### Steps by hand -/

def parseStatements (source : String) : Except CompileError (List Node) := do
  let u : SourceUnit := { source := source }
  return (← (← u.tokenize).parse).program.statements

def unwrapped : Node → Node
  | .expression value _ => value
  | .switch subject _ _ => subject
  | n => n

def parseExpression (source : String) : Except CompileError Node := do
  let closed := (trimEnd source.toList).getLast? = some ';'
  let statements ← parseStatements (if closed then source else source ++ ";")
  return unwrapped (statements.head?.getD .missing)

/-- A list with others put in at an index; an index below zero counts from the end. -/
def insertAt {α : Type} (index : Int) (new old : List α) : List α :=
  let at' := (if index < 0 then index + old.length else index).toNat
  old.take at' ++ new ++ old.drop at'

def inject (u : SourceUnit) (index : Int) (new : List Node) : SourceUnit :=
  { u with program := .module (insertAt index new u.program.statements) }

/-- Put code as it is into the body of the node with this number in the walk. -/
def injectRaw (u : SourceUnit) (node : Nat) (index : Int) (code : String) : SourceUnit :=
  { u with program := u.program.editAt node fun n =>
      n.withBody (insertAt index [.rawCode code {}] (n.body?.getD [])) }

def ensureImport (u : SourceUnit) (source : String) (names : List String) : SourceUnit :=
  { u with imports := Lowering.addImport (Lowering.importLine source names) u.imports }

/-- The occurrence with this number in the walk; a number below zero counts from the end. -/
def occurrenceAt? (u : SourceUnit) (index : Int) : Option Occurrence :=
  let occurrences := u.program.occurrences
  let at' := if index < 0 then index + occurrences.length else index
  if at' < 0 then none else occurrences[at'.toNat]?

end SourceUnit

end BraceLang
