import BraceLang.Analysis.Finding
import BraceLang.Emission.Target
import BraceLang.NameMap
import BraceLang.Syntax.Display
import BraceLang.Syntax.Part

/-!
# Conformance to interfaces

A class that implements an interface of the module needs, for every method of it, a method of that name with the same
parameter types and the same result.
-/

namespace BraceLang

namespace Node

def comparedType : Node → String
  | parameter _ type .. => if isGiven type then type.getD "" else "Any"
  | _ => "Any"

def listedParameters (params : List Node) : String :=
  String.intercalate ", " (params.map fun
    | parameter name type .. => name ++ ": " ++ optionalText type
    | _ => "")

/-- The first function of a body with this name and these parameter types, apart from the receiver. -/
def implementation? (body : List Node) (name : String) (types : List String) : Option FunctionHead :=
  body.findSome? fun
    | function h params .. =>
      if h.name = name && (params.filter fun p => p.name ≠ "self").map comparedType = types then some h else none
    | _ => none

def hasFunction (body : List Node) (name : String) : Bool :=
  body.any fun
    | function h .. => h.name = name
    | _ => false

def methodFindings (cls : ClassHead) (body : List Node) (interface : String) (s : MethodShape) : List Finding :=
  if hasFunction body s.name then
    let listed := s.name ++ "(" ++ listedParameters s.params ++ ")"
    match implementation? body s.name (s.params.map comparedType) with
    | none => [⟨.missingMethod cls.name listed interface, cls.position⟩]
    | some h =>
      if h.returnType = s.returnType then []
      else [⟨.wrongResult cls.name listed h.returnType interface s.returnType, h.position⟩]
  else [⟨.missingMethod cls.name s.name interface, cls.position⟩]

def interfaceMethods (body : List Node) : NameMap (List MethodShape) :=
  body.foldl (fun m n =>
    match n with
    | interface name methods .. => NameMap.put name ((methods.getD []).filterMap methodShape?) m
    | _ => m) []

def classesByName (body : List Node) : NameMap (ClassHead × List Node) :=
  body.foldl (fun m n =>
    match n with
    | classDecl h members .. => NameMap.put h.name (h, members) m
    | _ => m) []

def classFindings (interfaces : NameMap (List MethodShape)) (cls : ClassHead) (body : List Node) : List Finding :=
  cls.interfaces.flatMap fun interface =>
    match NameMap.get? interfaces interface with
    | none => [⟨.unknownInterface cls.name interface, cls.position⟩]
    | some methods => methods.flatMap (methodFindings cls body interface)

def interfaceFindings : Node → List Finding
  | module body => (classesByName body).flatMap fun c => classFindings (interfaceMethods body) c.2.1 c.2.2
  | _ => []

end Node

end BraceLang
