import BraceLang.Annotations.Argument
import BraceLang.Annotations.Binding

/-!
# Processors of annotations

An annotation that the compiler uses up is handled by the processor registered under its name.
-/

namespace BraceLang

inductive AnnotationProblem where
  | unknown (name : String)
  | wrongTarget (name kind : String) (allowed : List String)
  | argument (name : String) (error : ArgumentError)
  | binding (name : String) (error : BindingError)
  deriving DecidableEq, Repr

def AnnotationProblem.message : AnnotationProblem → String
  | unknown name => "Unknown compile-time annotation '@!" ++ name ++ "'"
  | wrongTarget name kind allowed =>
    "'@!" ++ name ++ "' cannot annotate " ++ kind ++ "; allowed: " ++ String.intercalate ", " allowed
  | argument name error => "'@!" ++ name ++ "': " ++ error.message
  | binding name error => "'@!" ++ name ++ "': " ++ error.message

inductive ProcessorError where
  | badNumber (error : ArgumentError)
  /-- An error of a processor's own. -/
  | raised (kind message : String)
  deriving DecidableEq, Repr

def ProcessorError.message : ProcessorError → String
  | badNumber error => error.message
  | raised _ message => message

/-- What processors have done outside the tree. -/
structure Lowering where
  findings : List (AnnotationProblem × Int) := []
  diagnostics : List String := []
  warnings : List String := []
  imports : List String := []
  /-- What stopped the last processor. -/
  stopped : Option ProcessorError := none

namespace Lowering

def addImport (line : String) (imports : List String) : List String :=
  if line ∈ imports then imports else imports ++ [line]

def importLine (source : String) (names : List String) : String :=
  if names.isEmpty then "import " ++ source
  else "from " ++ source ++ " import " ++ String.intercalate ", " names

def logLine (format : ArgumentValue) (name : String) : String :=
  "print(f\"[\x7bdatetime.datetime.now().strftime(" ++ format.literal ++ ")\x7d] " ++ name ++ " called\")"

end Lowering

structure Processor where
  name : String
  /-- The name of the processor itself. -/
  title : String
  /-- The classes of nodes that it may annotate; none means all. -/
  targets : List String := []
  /-- The node, the file, and those that an annotation gives. -/
  parameters : List BoundParameter
  /-- What is in front of the body of a node afterwards, and what has been done outside the tree. -/
  process : NameMap ArgumentValue → Node → List Node → Lowering → List Node × Lowering

abbrev Registry := NameMap Processor

inductive RegistryError where
  | unnamed (title : String)
  | duplicate (name : String)
  deriving DecidableEq, Repr

def RegistryError.message : RegistryError → String
  | unnamed title => "Annotation processor " ++ title ++ " must define a non-empty 'name'"
  | duplicate name => "Duplicate annotation processor registered for '@!" ++ name ++ "'"

namespace Registry

/-- Puts a line in front of the body of a function that logs the call. -/
def logCalls : Processor where
  name := "print_on_call"
  title := "PrintOnCall"
  targets := ["FunctionDeclaration"]
  parameters := [{ name := "node" }, { name := "file" },
    { name := "time_format", namedOnly := true, hasDefault := true }]
  process args n front l :=
    let format := (NameMap.get? args "time_format").getD (.text "%H:%M:%S")
    (.rawCode (Lowering.logLine format n.name) {} :: front,
      { l with imports := Lowering.addImport (Lowering.importLine "datetime" []) l.imports })

def builtin : Registry := [(logCalls.name, logCalls)]

def register (r : Registry) (p : Processor) : Except RegistryError Registry :=
  if p.name.isEmpty then .error (.unnamed p.title)
  else if NameMap.has r p.name then .error (.duplicate p.name)
  else .ok (r ++ [(p.name, p)])

end Registry

end BraceLang
