import BraceLang.Analysis.Finding
import BraceLang.Emission.Target
import BraceLang.Symbols.Declare

/-!
# Types of calls and assignments

A call of a known function or method must fit one of its declarations: as many arguments as parameters, and every
argument of the type of its parameter or of a type below it.
-/

namespace BraceLang

abbrev Bindings := NameMap String

/-- What the check has learned: the bindings of every receiver, and the findings. -/
structure TypeCheck where
  bindings : NameMap Bindings := []
  findings : List Finding := []

namespace SymbolTable

variable (t : SymbolTable)

def firstResult (fs : List FunctionSymbol) : Option String := fs.findSome? fun f => f.returnType.filter (!·.isEmpty)

def typeOf (scope : String) : Node → Option String
  | .identifier name => (t.lookup scope name).bind (·.type)
  | .literal value kind => (Node.literal value kind).shownType?
  | .collection items kind => (Node.collection items kind).shownType?
  | .call (.identifier name) _ => if t.isClass name then some name else firstResult (t.globalFunctions name)
  | .call (.member object name) _ => (typeOf scope object).bind fun cls =>
      if cls.isEmpty then none else firstResult (t.methods cls name)
  | .member object name => (typeOf scope object).bind fun cls =>
      if !cls.isEmpty && t.isClass cls then (t.variableIn? cls name).bind (·.type) else none
  | _ => none

/-- What a callee denotes: functions, the class that has them, and the name of the receiver. -/
structure Callee where
  functions : List FunctionSymbol
  owner : Option String := none
  receiver : Option String := none

def callee? (scope : String) : Node → Option Callee
  | .identifier name => some { functions := t.globalFunctions name }
  | .member object name =>
    match t.typeOf scope object with
    | some cls =>
      if !cls.isEmpty && t.isClass cls then
        some ⟨t.methods cls name, some cls, match object with
          | .identifier receiver => some receiver
          | _ => none⟩
      else none
    | none => none
  | _ => none

def argumentsFit (args params : List (Option String)) : Bool :=
  args.length = params.length && (args.zip params).all fun
    | (some a, some p) => t.isAssignable a p
    | _ => false

def bindAll (typeParams : List String) : Bindings → List (Option String × Option String) → Option Bindings
  | known, [] => some known
  | known, (some a, some p) :: rest =>
    if p ∈ typeParams then
      match NameMap.get? known p with
      | some b => if b = a then bindAll typeParams known rest else none
      | none => bindAll typeParams (NameMap.put p a known) rest
    else if t.isAssignable a p then bindAll typeParams known rest
    else none
  | _, _ => none

def bindArguments (typeParams : List String) (known : Bindings) (args params : List (Option String)) :
    Option Bindings :=
  if args.length = params.length then
    (t.bindAll typeParams known (args.zip params)).map fun all => all.filter fun b => !NameMap.has known b.1
  else none

def declaredTypes (params : List Node) : List (Option String) :=
  params.map fun
    | .parameter _ type .. => type
    | _ => none

def checkCall (scope : String) (callee : Node) (arguments : List Node) (s : TypeCheck) : TypeCheck :=
  match t.callee? scope callee with
  | none => s
  | some c =>
    let args := arguments.map (t.typeOf scope)
    let receiver := c.receiver.filter (!·.isEmpty)
    let typeParams := ((c.owner.bind (NameMap.get? t.classes)).map (·.typeParameters)).getD []
    let known := (receiver.bind (NameMap.get? s.bindings)).getD []
    match c.functions with
    | [] => s
    | f :: _ =>
      match c.functions.findSome? fun f => t.bindArguments typeParams known args (declaredTypes f.params) with
      | none => { s with findings := s.findings ++ [⟨.noOverload c.owner f.name args, {}⟩] }
      | some new =>
        match receiver with
        | some r =>
          if new.isEmpty then s
          else { s with
            bindings := NameMap.change r [] (fun b => new.foldl (fun b e => NameMap.put e.1 e.2 b) b) s.bindings }
        | none => s

/-- Whether a value shows its own type: it is a literal or a call of a class. -/
def isSelfTyped : Node → Bool
  | .literal .. | .collection .. => true
  | .call (.identifier name) _ => t.isClass name
  | _ => false

def checkAssigned (scope : String) (target value : Node) (s : TypeCheck) : TypeCheck :=
  match target with
  | .identifier name =>
    if isGiven ((t.lookup scope name).bind (·.type)) || t.isSelfTyped value then s
    else { s with findings := s.findings ++ [⟨.untypedVariable name, {}⟩] }
  | _ => s

def checkExpression (scope : String) (n : Node) (s : TypeCheck) : TypeCheck :=
  match n with
  | .call callee arguments => t.checkCall scope callee arguments s
  | .assignment target value _ none _ =>
    t.checkAssigned scope target value (match value with
      | .call callee arguments => t.checkCall scope callee arguments s
      | _ => s)
  | _ => s

def innerScope (scope name : String) : String := if scope = "global" then name else scope ++ "." ++ name

mutual

def checkNode (scope : String) : Node → TypeCheck → TypeCheck
  | .classDecl h body _ _, s => checkNodes h.name body s
  | .function h _ (some body) _ _, s => checkNodes (innerScope scope h.name) body s
  | .expression value _, s => t.checkExpression scope value s
  | .module body, s | .forLoop _ body, s | .whileLoop _ body, s | .case _ body, s | .dataClass _ _ body _ _ _ _, s
  | .enumDecl _ _ body _ _, s => checkNodes scope body s
  | _, s => s

def checkNodes (scope : String) : List Node → TypeCheck → TypeCheck
  | [], s => s
  | n :: ns, s => checkNodes scope ns (checkNode scope n s)

end

def checkTypes (program : Node) (bindings : NameMap Bindings) : TypeCheck :=
  match program with
  | .module body => t.checkNodes "global" body { bindings := bindings }
  | _ => { bindings := bindings }

end SymbolTable

end BraceLang
