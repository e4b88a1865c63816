import BraceLang.Emission.Text

/-!
# Writing programs

A program is written as a header, the imports that its declarations need, the imports asked for, and its statements
with a line between them.
-/

namespace BraceLang

open Emit

/-- What the declarations of a program make necessary. -/
structure Needs where
  interfaces : Bool
  abstracts : Bool
  finals : Bool
  dispatch : Bool
  dataClasses : Bool
  enums : Bool
  /-- Some member of an enum gets its value by itself. -/
  memberValues : Bool
  typeParameters : List Node

namespace Node

def usesFinal : Node → Bool
  | classDecl h body _ _ => h.isFinal || body.any fun n => n.isFunction && n.isFinal
  | n => n.isFinal

def declaredClass? : Node → Option String
  | classDecl h .. => some h.name
  | dataClass name .. => some name
  | enumDecl name .. => some name
  | _ => none

end Node

def Needs.of (body : List Node) : Needs where
  interfaces := body.any fun | .interface .. => true | _ => false
  abstracts := body.any fun | .classDecl h .. => h.isAbstract | _ => false
  finals := body.any Node.usesFinal
  dispatch := Node.anyUsesDispatch body
  dataClasses := body.any fun | .dataClass .. => true | _ => false
  enums := body.any fun | .enumDecl .. => true | _ => false
  memberValues := body.any fun
    | .enumDecl _ members .. => members.any fun | .enumMember _ args .. => args.isEmpty | _ => false
    | _ => false
  typeParameters := body.flatMap Node.classTypeParameters

def typeVariableLine (name : String) (bound : Option String) : String :=
  name ++ " = TypeVar('" ++ name ++ "'" ++ (if isGiven bound then ", bound=" ++ bound.getD "" else "") ++ ")\n"

def typeVariableLines : List String → List Node → List String
  | seen, .typeParameter name bound .. :: params =>
    if name ∈ seen then typeVariableLines seen params
    else typeVariableLine name bound :: typeVariableLines (name :: seen) params
  | seen, _ :: params => typeVariableLines seen params
  | _, [] => []

def lineIf (b : Bool) (s : String) : List String := if b then [s] else []

def Needs.importLines (n : Needs) (target : Target) (imports : List String) : List String :=
  (match target with
  | .cython _ => []
  | .python =>
    ["from __future__ import annotations\n"] ++
      lineIf (n.interfaces || n.abstracts) "from abc import ABC, abstractmethod\n" ++
      lineIf n.interfaces "from typing import Protocol\n" ++
      lineIf n.finals "from typing import final\n" ++
      lineIf (!n.typeParameters.isEmpty) "from typing import Generic, TypeVar\n" ++
      typeVariableLines [] n.typeParameters) ++
  lineIf n.dispatch "from multipledispatch import dispatch\n" ++
  lineIf n.dataClasses "from dataclasses import dataclass\n" ++
  lineIf n.enums ("from enum import Enum" ++ (if n.memberValues then ", auto" else "") ++ "\n") ++
  (sortedNames imports).map (· ++ "\n")

def Needs.spaced (n : Needs) (target : Target) (imports : List String) : Bool :=
  n.dispatch || n.dataClasses || n.enums || !imports.isEmpty ||
    (!target.isCompiled && (n.interfaces || n.abstracts || n.finals || !n.typeParameters.isEmpty))

namespace Emit

def statementLines (target : Target) (body : List Node) : Emit Unit :=
  body.forM fun n => do
    n.emit target
    newLine

def dropBlankEnd : Emit Unit := modify fun e =>
  if e.output.back?.any isBlankText then { e with output := e.output.pop } else e

/-- Write a program and return its text.  The output and the finals start anew. -/
def program (target : Target) (imports : List String) (body : List Node) : Emit String := do
  let needs := Needs.of body
  modify fun e =>
    { e with output := target.header.toArray, finals := [[]], classNames := body.filterMap Node.declaredClass? }
  (needs.importLines target imports).forM write
  if needs.spaced target imports then newLine
  statementLines target body
  dropBlankEnd
  return String.join (← get).output.toList

end Emit

def Node.toSource (target : Target) (imports : List String) (n : Node) : String :=
  ((Emit.program target imports n.statements).run {}).run.1

end BraceLang
