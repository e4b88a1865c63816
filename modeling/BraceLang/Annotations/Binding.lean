import BraceLang.NameMap
import BraceLang.Text.Quoted

/-!
# Binding arguments to parameters

Arguments without a name go to the parameters in order, arguments with one to the parameter of that name.
-/

namespace BraceLang

structure BoundParameter where
  name : String
  /-- It can only be given by name. -/
  namedOnly : Bool := false
  hasDefault : Bool := false
  deriving DecidableEq, Repr

inductive BindingError where
  | missing (name : String)
  | repeated (name : String)
  | tooMany
  | unexpected (name : String)
  deriving DecidableEq, Repr

def BindingError.message : BindingError → String
  | missing name => "missing a required argument: " ++ quoted name
  | repeated name => "multiple values for argument " ++ quoted name
  | tooMany => "too many positional arguments"
  | unexpected name => "got an unexpected keyword argument " ++ quoted name

namespace Binding

variable {α : Type}

def byName : List BoundParameter → NameMap α → NameMap α → Except BindingError (NameMap α)
  | [], named, bound =>
    match named with
    | [] => .ok bound
    | (name, _) :: _ => .error (.unexpected name)
  | p :: params, named, bound =>
    match NameMap.get? named p.name with
    | some value => byName params (NameMap.erase p.name named) (NameMap.put p.name value bound)
    | none => if p.hasDefault then byName params named bound else .error (.missing p.name)

def bind : List BoundParameter → List α → NameMap α → NameMap α → Except BindingError (NameMap α)
  | params, [], named, bound => byName params named bound
  | [], _ :: _, _, _ => .error .tooMany
  | p :: params, value :: values, named, bound =>
    if p.namedOnly then .error .tooMany
    else if NameMap.has named p.name then .error (.repeated p.name)
    else bind params values named (NameMap.put p.name value bound)

end Binding

end BraceLang
