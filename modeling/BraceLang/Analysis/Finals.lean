import BraceLang.Analysis.Finding
import BraceLang.NameMap
import BraceLang.Syntax.Field

/-!
# Finals

A final may not be assigned again in the scope that declares it, and one of the top level nowhere. Scopes are known by
the name of their function or class.
-/

namespace BraceLang

structure FinalCheck where
  /-- The finals of every scope. -/
  finals : NameMap (List String) := [("global", [])]
  scope : String := "global"
  findings : List Finding := []
  classes : NameMap ClassHead := []
  finalMethods : NameMap (List String) := []

/-- A function without a body cannot be gone through. -/
inductive FinalCheckError where
  | missingBody
  deriving DecidableEq, Repr

def FinalCheckError.message : FinalCheckError → String
  | missingBody => "'NoneType' object is not iterable"

namespace Node

/-- The assignments to plain names in an expression.  The value of an assignment is gone through twice. -/
def assignedNames (n : Node) : List (String × Position) :=
  (match _h : n with
  | assignment (identifier name) value _ _ p => (name, p) :: assignedNames value
  | assignment _ value _ _ _ => assignedNames value
  | _ => []) ++
  n.fields.attach.flatMap fun f => f.1.2.plainMembers.attach.flatMap fun m => assignedNames m.1
termination_by sizeOf n
decreasing_by
  · simp_all; omega
  · simp_all; omega
  · exact sizeOf_lt_of_mem_members f.2 (Field.mem_members_of_mem_plainMembers m.2)

end Node

namespace FinalCheck

def enter (s : FinalCheck) (name : String) : FinalCheck :=
  { s with scope := name, finals := NameMap.putNew name [] s.finals }

def leave (s : FinalCheck) : FinalCheck := { s with scope := "global" }

def register (s : FinalCheck) (name : String) : FinalCheck :=
  { s with finals := NameMap.change s.scope [] (fun ns => if name ∈ ns then ns else ns ++ [name]) s.finals }

def dropScope (s : FinalCheck) (name : String) : FinalCheck := { s with finals := NameMap.erase name s.finals }

def isFinalIn (s : FinalCheck) (scope name : String) : Bool := ((NameMap.get? s.finals scope).getD []).contains name

def mayAssign (s : FinalCheck) (name : String) : Bool := !(s.isFinalIn s.scope name || s.isFinalIn "global" name)

def assign (s : FinalCheck) (name : String) (position : Position) : FinalCheck :=
  if s.mayAssign name then s else { s with findings := s.findings ++ [⟨.reassigned name, position⟩] }

def assignAll (s : FinalCheck) (names : List (String × Position)) : FinalCheck :=
  names.foldl (fun s a => s.assign a.1 a.2) s

/-! ### Final methods -/

def finalMethodNames (body : List Node) : List String :=
  (body.filterMap fun
    | .function h .. => if h.isFinal then some h.name else none
    | _ => none).eraseDups

def addClass (s : FinalCheck) (h : ClassHead) (body : List Node) : FinalCheck :=
  { s with
    classes := NameMap.put h.name h s.classes
    finalMethods :=
      if (finalMethodNames body).isEmpty then s.finalMethods
      else NameMap.put h.name (finalMethodNames body) s.finalMethods }

mutual

def collect : Node → FinalCheck → FinalCheck
  | .classDecl h body _ _, s => collectAll body (s.addClass h body)
  | .module body, s | .function _ _ (some body) _ _, s | .forLoop _ body, s | .whileLoop _ body, s | .case _ body, s
  | .dataClass _ _ body _ _ _ _, s | .enumDecl _ _ body _ _, s => collectAll body s
  | _, s => s

def collectAll : List Node → FinalCheck → FinalCheck
  | [], s => s
  | n :: ns, s => collectAll ns (collect n s)

end

def mergeNew (m new : NameMap String) : NameMap String := new.foldl (fun m e => NameMap.putNew e.1 e.2 m) m

/-- The final methods of a class and of those that it extends, each with the class that has it.  No class is gone
through again below itself. -/
def finalsFrom (s : FinalCheck) : Nat → List String → String → NameMap String
  | 0, _, _ => []
  | n + 1, above, name =>
    if name ∈ above then []
    else
      let own := ((NameMap.get? s.finalMethods name).getD []).map fun m => (m, name)
      match NameMap.get? s.classes name with
      | none => own
      | some h => h.bases.foldl (fun m base => mergeNew m (s.finalsFrom n (name :: above) base)) own

def inherited (s : FinalCheck) (bases : List String) : NameMap String :=
  bases.foldl (fun m base => mergeNew m (s.finalsFrom (s.classes.length + 2) [] base)) []

def checkOverrides (s : FinalCheck) (h : ClassHead) (body : List Node) : FinalCheck :=
  let methods := s.inherited h.bases
  { s with findings := s.findings ++ body.filterMap fun
      | .function f .. => (NameMap.get? methods f.name).map fun base => ⟨.overridden h.name f.name base, f.position⟩
      | _ => none }

/-! ### The check -/

mutual

def visit : Node → FinalCheck → Except FinalCheckError FinalCheck
  | .finalDecl (.identifier name) _ _, s => .ok (s.register name)
  | .expression value _, s => .ok (s.assignAll value.assignedNames)
  | .assignment (.identifier name) value _ _ p, s => .ok (s.assignAll ((name, p) :: value.assignedNames))
  | .assignment _ value _ _ _, s => .ok (s.assignAll value.assignedNames)
  | .function h _ body _ _, s =>
    match body with
    | none => .error .missingBody
    | some body => do
      let inner ← visitAll body (s.enter h.name)
      visitAll body { inner with scope := s.scope }
  | .classDecl h body _ _, s => do
    let inner ← visitAll body ((s.enter h.name).checkOverrides h body)
    visitAll body { inner with scope := s.scope }
  | .module body, s | .forLoop _ body, s | .whileLoop _ body, s | .case _ body, s | .dataClass _ _ body _ _ _ _, s
  | .enumDecl _ _ body _ _, s => visitAll body s
  | _, s => .ok s

def visitAll : List Node → FinalCheck → Except FinalCheckError FinalCheck
  | [], s => .ok s
  | n :: ns, s => do visitAll ns (← visit n s)

end

def run : Node → Except FinalCheckError FinalCheck
  | .module body => visitAll body (collectAll body {})
  | _ => .ok {}

end FinalCheck

end BraceLang
