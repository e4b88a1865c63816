import BraceLang.Syntax.Display
import BraceLang.Text.Blank

/-!
# What a tree needs before it is written

Questions about a tree that decide what is written around it: whether a function is chosen by its argument types,
which attributes the methods of a class assign, and which type a plain assignment reveals.
-/

namespace BraceLang

def sortedNames (names : List String) : List String := names.eraseDups.mergeSort (fun a b => decide (a ≤ b))

namespace Node

def isDispatch (decorator : String) : Bool := "@dispatch".toList.isPrefixOf (trim decorator).toList

mutual

/-- Whether a node, or one in the bodies under it, is a function chosen by its argument types. -/
def usesDispatch : Node → Bool
  | function h _ (some body) _ _ => h.decorators.any isDispatch || anyUsesDispatch body
  | function h _ none _ _ => h.decorators.any isDispatch
  | module body | classDecl _ body _ _ | forLoop _ body | whileLoop _ body | case _ body | dataClass _ _ body _ _ _ _
  | enumDecl _ _ body _ _ => anyUsesDispatch body
  | _ => false

def anyUsesDispatch : List Node → Bool
  | [] => false
  | n :: ns => n.usesDispatch || anyUsesDispatch ns

end

mutual

/-- The names that a statement assigns as attributes of the receiver, inside conditionals and loops too. -/
def receiverAttributes : Node → List String
  | expression (assignment (member (identifier object) name) ..) _ => if object = "self" then [name] else []
  | conditional _ t e => allReceiverAttributes t ++ allReceiverAttributes e
  | forLoop _ body | whileLoop _ body => allReceiverAttributes body
  | _ => []

def allReceiverAttributes : List Node → List String
  | [] => []
  | n :: ns => n.receiverAttributes ++ allReceiverAttributes ns

end

def classAttributes (body : List Node) : List String :=
  (body.flatMap fun
    | function _ _ (some body) _ _ => allReceiverAttributes body
    | _ => []).eraseDups

def literalType : LiteralKind → Option String
  | .string => some "str"
  | .number => some "int"
  | .boolean => some "bool"
  | _ => none

/-- The type that an assigned value reveals, where `classes` are the classes of the program. -/
def revealedType (classes : List String) : Node → Option String
  | literal _ kind | collection _ kind => literalType kind
  | call (identifier name) _ => if name ∈ classes then some name else none
  | _ => none

def revealedByAssignment (classes : List String) : Node → Option String
  | assignment (identifier _) value .. | finalDecl (identifier _) value _ => revealedType classes value
  | _ => none

end Node

end BraceLang
