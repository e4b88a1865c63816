import BraceLang.NameMap
import BraceLang.Syntax.Node

/-!
# Symbol tables

The declarations of a program: its scopes with their variables and functions, its classes and its interfaces.
-/

namespace BraceLang

structure VariableSymbol where
  type : Option String
  declaration : Node

structure FunctionSymbol where
  name : String
  params : List Node
  returnType : Option String
  scope : String

structure ScopeSymbol where
  parent : Option String
  locals : NameMap VariableSymbol := []
  functions : NameMap (List FunctionSymbol) := []

/-- A class, the scope that holds it, and its methods by name. -/
structure ClassSymbol where
  declaration : Node
  scope : String
  typeParameters : List String := []
  methods : NameMap (List FunctionSymbol) := []

structure InterfaceSymbol where
  declaration : Node
  scope : String

structure SymbolTable where
  scopes : NameMap ScopeSymbol := [("global", { parent := none })]
  classes : NameMap ClassSymbol := []
  interfaces : NameMap InterfaceSymbol := []

namespace SymbolTable

def ensureScope (t : SymbolTable) (name : String) (parent : Option String) : SymbolTable :=
  { t with scopes := NameMap.putNew name { parent := parent } t.scopes }

def changeScope (t : SymbolTable) (name : String) (f : ScopeSymbol → ScopeSymbol) : SymbolTable :=
  { t with scopes := NameMap.change name { parent := none } f t.scopes }

def addVariable (t : SymbolTable) (scope name : String) (type : Option String) (declaration : Node) : SymbolTable :=
  t.changeScope scope fun s => { s with locals := NameMap.put name ⟨type, declaration⟩ s.locals }

def addFunction (t : SymbolTable) (f : FunctionSymbol) : SymbolTable :=
  t.changeScope f.scope fun s => { s with functions := NameMap.change f.name [] (· ++ [f]) s.functions }

def addClass (t : SymbolTable) (name : String) (c : ClassSymbol) : SymbolTable :=
  { t with classes := NameMap.put name c t.classes }

def addInterface (t : SymbolTable) (name : String) (i : InterfaceSymbol) : SymbolTable :=
  { t with interfaces := NameMap.put name i t.interfaces }

def isClass (t : SymbolTable) (name : String) : Bool := NameMap.has t.classes name

def globalFunctions (t : SymbolTable) (name : String) : List FunctionSymbol :=
  ((NameMap.get? t.scopes "global").bind fun s => NameMap.get? s.functions name).getD []

def methods (t : SymbolTable) (cls name : String) : List FunctionSymbol :=
  ((NameMap.get? t.classes cls).bind fun c => NameMap.get? c.methods name).getD []

def variableIn? (t : SymbolTable) (scope name : String) : Option VariableSymbol :=
  (NameMap.get? t.scopes scope).bind fun s => NameMap.get? s.locals name

/-- The variable of this name in the nearest of the scopes around, at most `n` of them. -/
def lookupWithin (t : SymbolTable) (name : String) : Nat → String → Option VariableSymbol
  | 0, _ => none
  | n + 1, scope =>
    if scope.isEmpty then none
    else match NameMap.get? t.scopes scope with
      | none => none
      | some s =>
        match NameMap.get? s.locals name with
        | some v => some v
        | none => s.parent.bind (lookupWithin t name n)

def lookup (t : SymbolTable) (scope name : String) : Option VariableSymbol :=
  t.lookupWithin name (t.scopes.length + 1) scope

/-! ### Ancestors -/

def classLinks : Node → List String
  | .classDecl h .. => h.bases ++ h.interfaces
  | .dataClass _ _ _ _ bases .. => bases
  | _ => []

def interfaceLinks : Node → List String
  | .interface _ _ bases .. => bases
  | _ => []

def links (t : SymbolTable) (name : String) : List String :=
  ((NameMap.get? t.classes name).elim [] fun c => classLinks c.declaration) ++
    ((NameMap.get? t.interfaces name).elim [] fun i => interfaceLinks i.declaration)

def linked (t : SymbolTable) : List String :=
  t.classes.flatMap (fun c => classLinks c.2.declaration) ++
    t.interfaces.flatMap (fun i => interfaceLinks i.2.declaration)

/-- The names seen after following the links from `name`, where every step sees a new name. -/
def reachWithin (t : SymbolTable) : Nat → List String → String → List String
  | 0, seen, _ => seen
  | n + 1, seen, name =>
    (t.links name).foldl (fun seen next => if next ∈ seen then seen else t.reachWithin n (next :: seen) next) seen

def ancestors (t : SymbolTable) (name : String) : List String := t.reachWithin (t.linked.length + 1) [] name

def isAssignable (t : SymbolTable) (actual expected : String) : Bool :=
  actual = expected || (t.ancestors actual).contains expected

end SymbolTable

end BraceLang
