import BraceLang.Symbols.Table
import BraceLang.Syntax.Display

/-!
# Declaring a program

`Node.symbols` collects the declarations of a program into a symbol table.
-/

namespace BraceLang

namespace Node

def numberType (text : String) : String :=
  if text.toList.any fun c => c = '.' || c = 'e' || c = 'E' then "float" else "int"

def literalTypeOf (kind : LiteralKind) (text : String) : Option String :=
  match kind with
  | .number => some (numberType text)
  | .string => some "str"
  | .boolean => some "bool"
  | _ => none

def shownType? : Node → Option String
  | literal value kind => literalTypeOf kind value.display
  | collection items kind => literalTypeOf kind (fullList items)
  | _ => none

def methodsOf (cls : String) (body : List Node) : NameMap (List FunctionSymbol) :=
  body.foldl (fun methods n =>
    match n with
    | function h params .. => NameMap.change h.name [] (· ++ [⟨h.name, params, h.returnType, cls⟩]) methods
    | _ => methods) []

def methodScope (cls name : String) : String := if cls.isEmpty then name else cls ++ "." ++ name

def declareParams (scope : String) (params : List Node) (t : SymbolTable) : SymbolTable :=
  params.foldl (fun t p =>
    match p with
    | parameter name type .. => t.addVariable scope name type p
    | _ => t) t

def assignedType? (t : SymbolTable) : Node → Option String
  | call (identifier name) _ => if t.isClass name then some name else none
  | n => n.shownType?

def declareAssigned (scope : String) (n : Node) (t : SymbolTable) : SymbolTable :=
  match n with
  | assignment (identifier name) _ _ (some type) _ => t.addVariable scope name (some type) n
  | assignment (identifier name) value _ none _ =>
    match assignedType? t value with
    | some type => if type.isEmpty then t else t.addVariable scope name (some type) n
    | none => t
  | _ => t

mutual

def declare (scope : String) : Node → SymbolTable → SymbolTable
  | classDecl h body params annotations, t =>
    let c : ClassSymbol :=
      ⟨classDecl h body params annotations, scope, params.map Node.name, methodsOf h.name body⟩
    declareMembers h.name body ((t.addClass h.name c).ensureScope h.name (some scope))
  | dataClass name fields body params bases annotations p, t =>
    let c : ClassSymbol := ⟨dataClass name fields body params bases annotations p, scope, [], methodsOf name body⟩
    declareMembers name body (declareParams name fields ((t.addClass name c).ensureScope name (some scope)))
  | enumDecl name members body annotations p, t =>
    let c : ClassSymbol := ⟨enumDecl name members body annotations p, scope, [], methodsOf name body⟩
    declareMembers name body ((t.addClass name c).ensureScope name (some scope))
  | interface name methods bases annotations p, t =>
    t.addInterface name ⟨interface name methods bases annotations p, scope⟩
  | function h params body _ _, t =>
    let t := declareParams h.name params
      ((t.addFunction ⟨h.name, params, h.returnType, scope⟩).ensureScope h.name (some scope))
    match body with
    | some body => declareAll h.name body t
    | none => t
  | expression value _, t => declareAssigned scope value t
  | finalDecl (identifier name) value type, t =>
    t.addVariable scope name type (finalDecl (identifier name) value type)
  | module body, t | forLoop _ body, t | whileLoop _ body, t | case _ body, t => declareAll scope body t
  | _, t => t

def declareAll (scope : String) : List Node → SymbolTable → SymbolTable
  | [], t => t
  | n :: ns, t => declareAll scope ns (declare scope n t)

def declareMembers (cls : String) : List Node → SymbolTable → SymbolTable
  | [], t => t
  | function h params body _ _ :: ns, t =>
    let scope := methodScope cls h.name
    let t := declareParams scope params
      ((t.addFunction ⟨h.name, params, h.returnType, cls⟩).ensureScope scope (some cls))
    let t := match body with
      | some body => declareAll scope body t
      | none => t
    declareMembers cls ns t
  | n :: ns, t => declareMembers cls ns (declare cls n t)

end

def symbols : Node → SymbolTable
  | module body => declareAll "global" body {}
  | _ => {}

end Node

end BraceLang
