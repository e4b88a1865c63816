import BraceLang.Syntax.Node
import BraceLang.Text.Blank

/-!
# Targets

Programs are written out for one of two targets.  The compiled target has type names of its own, and a type parameter
of the class around is an object there.  A compiled class declares a set of attributes, in any order.
-/

namespace BraceLang

/-- An order in which the names of a set are gone through. -/
structure NameOrder where
  arrange : List String → List String
  perm : ∀ names, (arrange names).Perm names

def NameOrder.sorted : NameOrder := ⟨fun names => names.mergeSort (· ≤ ·), fun names => names.mergeSort_perm _⟩

inductive Target where
  | python
  | cython (order : NameOrder)

namespace Target

def isCompiled : Target → Bool
  | python => false
  | cython _ => true

def arrange : Target → List String → List String
  | python, names => names
  | cython order, names => order.arrange names

def version : String := "0.2.2"

def header (t : Target) : List String :=
  (match t with
  | cython _ => ["# cython: language_level=3\n", "\"\"\"\n", "Cython file generated with Spice v" ++ version ++ "\n"]
  | python => ["\"\"\"\n", "File generated with Spice v" ++ version ++ "\n"]) ++
  ["The author(s) of Spice do(es) not claim any responsibilities for any errors or damages generated by this code.\n",
    "Spice is not endorsed, nor affiliated with the Python Software Foundation.\n\n",
    "Bugfixes and issues are welcomed at: https://github.com/ReclipseTheOne/Spice <3\n", "\"\"\"\n\n"]

def compiledTypes : List (String × String) :=
  [("int", "int"), ("float", "double"), ("str", "str"), ("bool", "bint"), ("None", "void"), ("list", "list"),
    ("dict", "dict"), ("tuple", "tuple"), ("set", "set"), ("object", "object"), ("bytes", "bytes")]

def baseType (type : String) : String := trim (String.ofList (type.toList.takeWhile (· ≠ '[')))

/-- The compiled name of a type, where `params` are the type parameters in force. -/
def compiledType (params : List String) (type : String) : String :=
  if baseType type ∈ params then "object" else (compiledTypes.lookup (baseType type)).getD type

def typeName (t : Target) (params : List String) (type : String) : String :=
  if t.isCompiled then compiledType params type else type

end Target

/-- What a build makes of a program: a text for one of the targets, or an executable by way of the compiled target. -/
inductive OutputForm where
  | python
  | cython
  | executable
  deriving DecidableEq, Repr

namespace OutputForm

def ofName (name : String) : OutputForm :=
  if name = "pyx" then cython else if name = "exe" then executable else python

def target (order : NameOrder) : OutputForm → Target
  | python => .python
  | cython | executable => .cython order

def suffix : OutputForm → String
  | python => ".py"
  | cython | executable => ".pyx"

end OutputForm

def Scalar.isTrue : Scalar → Bool
  | absent => false
  | truth b => b
  | integer n => n ≠ 0
  | text s => !s.isEmpty

def isGiven (s : Option String) : Bool := s.any (!·.isEmpty)

end BraceLang
