import BraceLang.Analysis.Finding
import BraceLang.Emission.Target
import BraceLang.NameMap
import BraceLang.Syntax.Display
import BraceLang.Syntax.Part

/-!
# Overloads

Functions of one name in the module, or in one class, overload each other and are told apart by the types of their
parameters. Each gets a decorator that names these types, once.
-/

namespace BraceLang

structure OverloadGroup where
  /-- The class, or none at the top level. -/
  owner : Option String
  name : String
  functions : List Node

/-- The decorators of overloads, by owner and then by signature. -/
abbrev OverloadTable := NameMap (NameMap String)

namespace Node

def parameterType : Node → String
  | parameter _ type .. => if isGiven type then type.getD "" else "any"
  | _ => "any"

def parameterTypes : Node → List String
  | function _ params .. => params.map parameterType
  | _ => []

def signatureText (name : String) (types : List String) : String := name ++ "(" ++ String.intercalate ", " types ++ ")"

def dispatchType (type : String) : String :=
  if type.toList.map Char.toLower = "any".toList then "object" else if type = "None" then "type(None)" else type

def dispatchDecorator (types : List String) : String :=
  "@dispatch(" ++ String.intercalate ", " (types.map dispatchType) ++ ")"

def isFunctionNamed (name : String) : Node → Bool
  | function h .. => h.name = name
  | _ => false

def functionNames (body : List Node) : List String :=
  (body.filterMap fun | function h .. => some h.name | _ => none).eraseDups

def overloadGroups (owner : Option String) (body : List Node) : List OverloadGroup :=
  ((functionNames body).map fun name => ⟨owner, name, body.filter (isFunctionNamed name)⟩).filter fun g =>
    1 < g.functions.length

mutual

def classOverloads : Node → List OverloadGroup
  | classDecl h body _ _ => overloadGroups (some h.name) body ++ allClassOverloads body
  | module body | forLoop _ body | whileLoop _ body | case _ body | function _ _ (some body) _ _
  | dataClass _ _ body _ _ _ _ | enumDecl _ _ body _ _ => allClassOverloads body
  | _ => []

def allClassOverloads : List Node → List OverloadGroup
  | [] => []
  | n :: ns => n.classOverloads ++ allClassOverloads ns

end

/-- The overloads of a program: those at the top level, then those of its classes. -/
def overloads (program : Node) : List OverloadGroup :=
  match program with
  | module body => overloadGroups none body ++ allClassOverloads body
  | _ => []

end Node

namespace OverloadGroup

def signature (g : OverloadGroup) (f : Node) : String := Node.signatureText g.name f.parameterTypes

/-- The functions of the group with a signature of their own, and those that repeat one. -/
def split (g : OverloadGroup) : List Node × List Node :=
  g.functions.foldl (fun (firsts, again) f =>
    if firsts.any fun e => g.signature e = g.signature f then (firsts, again ++ [f]) else (firsts ++ [f], again))
    ([], [])

def key (g : OverloadGroup) : String :=
  match g.owner with
  | none => "__module__"
  | some owner => if owner.isEmpty then g.name else owner

def namedOwner (g : OverloadGroup) : Option String := g.owner.filter fun o => !o.isEmpty && o != "__module__"

def findings (g : OverloadGroup) : List Finding :=
  g.split.2.map fun f => ⟨.duplicateOverload g.namedOwner g.name (g.signature f), f.declaredAt⟩

def record (g : OverloadGroup) (t : OverloadTable) : OverloadTable :=
  NameMap.change g.key []
    (fun signatures => g.split.1.foldl (fun s f =>
      NameMap.put (g.signature f) (Node.dispatchDecorator f.parameterTypes) s) signatures) t

end OverloadGroup

namespace Node

def addDecorator (decorator : String) : Node → Node
  | function h params body typeParams annotations =>
    if decorator ∈ h.decorators then function h params body typeParams annotations
    else function { h with decorators := h.decorators ++ [decorator] } params body typeParams annotations
  | n => n

/-- A function of a body with its decorator.  It has one if another function of the body has its name and none before
it has its signature too. -/
def decorateOverload (body earlier : List Node) : Node → Node
  | function h params body' typeParams annotations =>
    let f := function h params body' typeParams annotations
    let overloaded := 1 < (body.filter (isFunctionNamed h.name)).length
    let repeated := earlier.any fun e => e.isFunctionNamed h.name &&
      signatureText h.name e.parameterTypes = signatureText h.name f.parameterTypes
    if overloaded && !repeated then addDecorator (dispatchDecorator f.parameterTypes) f else f
  | n => n

def decorateRest (body earlier : List Node) : List Node → List Node
  | [] => []
  | n :: ns => decorateOverload body earlier n :: decorateRest body (earlier ++ [n]) ns

def decorateBody (body : List Node) : List Node := decorateRest body [] body

mutual

/-- A node with the decorators of the overloads in the classes at and under it. -/
def decorateClasses : Node → Node
  | classDecl h body params annotations => classDecl h (decorateBody (decorateAll body)) params annotations
  | module body => module (decorateAll body)
  | forLoop target body => forLoop target (decorateAll body)
  | whileLoop c body => whileLoop c (decorateAll body)
  | case value body => case value (decorateAll body)
  | function h params (some body) typeParams annotations =>
    function h params (some (decorateAll body)) typeParams annotations
  | dataClass name fields body params bases annotations p =>
    dataClass name fields (decorateAll body) params bases annotations p
  | enumDecl name members body annotations p => enumDecl name members (decorateAll body) annotations p
  | n => n

/-- Nodes with the decorators of the overloads in the classes at and under them. -/
def decorateAll : List Node → List Node
  | [] => []
  | n :: ns => n.decorateClasses :: decorateAll ns

end

def decorated : Node → Node
  | module body => module (decorateBody (decorateAll body))
  | n => n

def overloadTable (program : Node) : OverloadTable := program.overloads.foldl (fun t g => g.record t) []

def overloadFindings (program : Node) : List Finding := program.overloads.flatMap OverloadGroup.findings

end Node

end BraceLang
