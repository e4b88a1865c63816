import BraceLang.Analysis.Finding
import BraceLang.Emission.Target
import BraceLang.Symbols.Declare
import BraceLang.Syntax.Part

/-!
# Bounds of type parameters

A type parameter with a bound may only stand for types that have the bound among their ancestors.
-/

namespace BraceLang

namespace Node

/-- The calls in a tree, a call before those in its parts, keyword values of annotations left out. -/
def calls (n : Node) : List Node :=
  (match n with
  | call .. => [n]
  | _ => []) ++
  n.fields.attach.flatMap fun f => f.1.2.plainMembers.attach.flatMap fun m => calls m.1
termination_by sizeOf n
decreasing_by exact sizeOf_lt_of_mem_members f.2 (Field.mem_members_of_mem_plainMembers m.2)

def boundsOf (params : List Node) : NameMap String :=
  params.foldl (fun m p =>
    match p with
    | typeParameter name (some bound) .. => if bound.isEmpty then m else NameMap.put name bound m
    | _ => m) []

def constructorParameters? (cls : String) (declaration : Node) : Option (List Node) :=
  (declaration.body?.getD []).findSome? fun
    | function h params .. =>
      if h.name = cls || h.name = "__init__" then some (params.filter fun p => p.name ≠ "self") else none
    | _ => none

end Node

namespace SymbolTable

/-- The types of all variables, those of later scopes in place of earlier ones. -/
def variableTypes (t : SymbolTable) : NameMap String :=
  t.scopes.foldl (fun m s =>
    s.2.locals.foldl (fun m v =>
      match v.2.type with
      | some type => if type.isEmpty then m else NameMap.put v.1 type m
      | none => m) m) []

def argumentType (t : SymbolTable) (known : NameMap String) : Node → Option String
  | .call (.identifier name) _ => if t.isClass name then some name else none
  | .identifier name => NameMap.get? known name
  | n => n.shownType?

def argumentFindings (t : SymbolTable) (known bounds : NameMap String) (cls : String) (arg param : Node) :
    List Finding :=
  match param with
  | .parameter _ (some parameter) .. =>
    match NameMap.get? bounds parameter, t.argumentType known arg with
    | some bound, some type =>
      if t.isAssignable type bound then [] else [⟨.outOfBound type cls parameter bound, {}⟩]
    | _, _ => []
  | _ => []

def boundFindingsAt (t : SymbolTable) (known : NameMap String) : Node → List Finding
  | .call (.identifier cls) arguments =>
    match NameMap.get? t.classes cls with
    | none => []
    | some c =>
      let params := (Node.constructorParameters? cls c.declaration).getD []
      (List.zipWith (t.argumentFindings known (Node.boundsOf c.declaration.classTypeParameters) cls)
        arguments params).flatten
  | _ => []

def boundFindings (t : SymbolTable) (program : Node) : List Finding :=
  program.calls.flatMap (t.boundFindingsAt t.variableTypes)

end SymbolTable

end BraceLang
