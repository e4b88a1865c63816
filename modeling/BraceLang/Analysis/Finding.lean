import BraceLang.Syntax.Node
import BraceLang.Text.Quoted

/-!
# Findings

What the checks of a program can find wrong, and how it is said.  A finding comes with the position that it is
reported at.
-/

namespace BraceLang

inductive Problem where
  /-- Two functions of one name and one signature, in a class if there is an owner. -/
  | duplicateOverload (owner : Option String) (name signature : String)
  /-- No function fits the types of the arguments. -/
  | noOverload (owner : Option String) (name : String) (arguments : List (Option String))
  /-- A variable gets a value that does not show its type, and no type is declared. -/
  | untypedVariable (name : String)
  | unknownInterface (cls interface : String)
  /-- A class has no method for a method of its interface: none of its name, or none with its parameters. -/
  | missingMethod (cls method interface : String)
  /-- A method has another result than the interface asks for. -/
  | wrongResult (cls method : String) (actual : Option String) (interface : String) (expected : Option String)
  /-- A type argument does not have the bound of its parameter among its ancestors. -/
  | outOfBound (type cls parameter bound : String)
  | reassigned (name : String)
  | overridden (cls method base : String)
  deriving DecidableEq, Repr

def Problem.message : Problem → String
  | duplicateOverload owner name signature =>
    "Duplicate overload for " ++ owner.elim "" (· ++ ".") ++ name ++ " with signature " ++ signature
  | noOverload owner name arguments =>
    "No overload of " ++ owner.elim "" (· ++ ".") ++ name ++ " matches argument types (" ++
      String.intercalate ", " (arguments.map optionalText) ++ ")"
  | untypedVariable name =>
    "Variable '" ++ name ++ "' must declare a type annotation when assigned from non-literal expression"
  | unknownInterface cls interface => "Class '" ++ cls ++ "' implements unknown interface '" ++ interface ++ "'"
  | missingMethod cls method interface =>
    "Class '" ++ cls ++ "' does not implement method '" ++ method ++ "' required by interface '" ++ interface ++ "'"
  | wrongResult cls method actual interface expected =>
    "Method '" ++ cls ++ "." ++ method ++ "' has return type '" ++ optionalText actual ++ "' but interface '" ++
      interface ++ "' expects '" ++ optionalText expected ++ "'"
  | outOfBound type cls parameter bound =>
    "Type argument '" ++ type ++ "' for '" ++ cls ++ "<" ++ parameter ++ ">' does not have '" ++ bound ++
      "' in its inheritance tree"
  | reassigned name => "Cannot reassign final variable '" ++ name ++ "'"
  | overridden cls method base =>
    "Class '" ++ cls ++ "' cannot override final method '" ++ method ++ "' defined in '" ++ base ++ "'"

structure Finding where
  problem : Problem
  position : Position := {}
  deriving DecidableEq, Repr

def Finding.text (f : Finding) : String :=
  f.problem.message ++ " (" ++ toString f.position.line ++ ":" ++ toString f.position.column ++ ")"

end BraceLang
