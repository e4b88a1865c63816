import BraceLang.Annotations.Registry
import BraceLang.Syntax.Part
import BraceLang.Syntax.Rewalk

/-!
# Using up annotations

The compiler goes through the nodes of a program in the order of the walk and uses up their compile-time annotations,
one after the other.
-/

namespace BraceLang

def atLine (message : String) (line : Int) : String := message ++ " (line " ++ toString line ++ ")"

namespace Lowering

def argumentValues (args : List Node) : Except ArgumentError (List ArgumentValue) := args.mapM Node.argumentValue

def note (problem : AnnotationProblem) (line : Int) (l : Lowering) : Lowering :=
  { l with findings := l.findings ++ [(problem, line)] }

def apply (registry : Registry) (h : AnnotationHead) (args : List Node) (keys : List String) (values : List Node)
    (n : Node) (front : List Node) (l : Lowering) : List Node × Lowering :=
  match NameMap.get? registry h.name with
  | none => (front, l.note (.unknown h.name) h.position.line)
  | some p =>
    if !p.targets.isEmpty && !p.targets.any n.isInstance then
      (front, l.note (.wrongTarget h.name n.className p.targets) h.position.line)
    else
      let evaluated := do
        let plain ← argumentValues args
        return (plain, keys.zip (← argumentValues values))
      match evaluated with
      | .error (.notLiteral kind) => (front, l.note (.argument h.name (.notLiteral kind)) h.position.line)
      | .error e => (front, { l with stopped := some (.badNumber e) })
      | .ok (plain, named) =>
        match Binding.bind p.parameters (.absent :: .absent :: plain) named [] with
        | .error e => (front, l.note (.binding h.name e) h.position.line)
        | .ok bound => p.process bound n front l

/-- Use up annotations of a node one after the other, until a processor is stopped. -/
def applyAll (registry : Registry) (n : Node) : List Node → List Node → Lowering → List Node × Lowering
  | [], front, l => (front, l)
  | .annotationUse h args keys values :: rest, front, l =>
    if h.retention = .compileTime then
      let (front, l) := apply registry h args keys values n front l
      if l.stopped.isSome then (front, l) else applyAll registry n rest front l
    else applyAll registry n rest front l
  | _ :: rest, front, l => applyAll registry n rest front l

def stays : Node → Bool
  | .annotationUse h .. => h.retention ≠ .compileTime
  | _ => true

def putFront (front : List Node) (n : Node) : Node :=
  if front.isEmpty then n else n.withBody (front ++ n.body?.getD [])

def visit (registry : Registry) (n : Node) : StateM Lowering (Node → Node) := do
  let l ← get
  if l.stopped.isSome || n.annotations.isEmpty then return id
  let (front, l) := applyAll registry n n.annotations [] l
  set l
  return fun n => putFront front (if l.stopped.isSome then n else n.filterAnnotations stays)

def run (registry : Registry) (program : Node) (l : Lowering) : Node × Lowering :=
  (program.rewalk (visit registry)).run { l with findings := [], stopped := none }

def errors (l : Lowering) : List String := l.findings.map (fun f => atLine f.1.message f.2) ++ l.diagnostics

end Lowering

end BraceLang
