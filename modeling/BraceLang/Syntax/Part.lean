import BraceLang.Syntax.Node

/-!
# Parts of nodes

The statements under a node, its annotations, its type parameters and the place where it is declared.
-/

namespace BraceLang

/-- A method as its callers see it: name, parameters and result. -/
structure MethodShape where
  name : String
  params : List Node
  returnType : Option String

namespace Node

def statements : Node → List Node
  | module body => body
  | _ => []

def body? : Node → Option (List Node)
  | module body | classDecl _ body _ _ | forLoop _ body | whileLoop _ body | case _ body | dataClass _ _ body _ _ _ _
  | enumDecl _ _ body _ _ => some body
  | function _ _ body _ _ => body
  | _ => none

theorem sizeOf_lt_of_mem_body {m n : Node} {body : List Node} (h : n.body? = some body) (hm : m ∈ body) :
    sizeOf m < sizeOf n := by
  have hsize := List.sizeOf_lt_of_mem hm
  cases n with
  | module | classDecl | forLoop | whileLoop | case | dataClass | enumDecl =>
    cases h
    simp only [module.sizeOf_spec, classDecl.sizeOf_spec, forLoop.sizeOf_spec, whileLoop.sizeOf_spec, case.sizeOf_spec,
      dataClass.sizeOf_spec, enumDecl.sizeOf_spec]
    omega
  | function =>
    cases h
    simp only [function.sizeOf_spec, Option.some.sizeOf_spec]
    omega
  | _ => cases h

/-- What passes from the statements under a node to the node holds of every node. -/
theorem body_induction {P : Node → Prop} (h : ∀ n, (∀ body, n.body? = some body → ∀ m ∈ body, P m) → P n)
    (n : Node) : P n :=
  h n fun _ hbody m hm =>
    have := sizeOf_lt_of_mem_body hbody hm
    body_induction h m
termination_by sizeOf n

def withBody (body : List Node) : Node → Node
  | module _ => module body
  | classDecl h _ params annotations => classDecl h body params annotations
  | forLoop target _ => forLoop target body
  | whileLoop c _ => whileLoop c body
  | case value _ => case value body
  | dataClass name fields _ params bases annotations p => dataClass name fields body params bases annotations p
  | enumDecl name members _ annotations p => enumDecl name members body annotations p
  | function h params _ typeParams annotations => function h params (some body) typeParams annotations
  | n => n

def annotations : Node → List Node
  | interface _ _ _ annotations _ | signature _ _ _ annotations _ | parameter _ _ _ annotations
  | typeParameter _ _ annotations _ | classDecl _ _ _ annotations | function _ _ _ _ annotations
  | dataClass _ _ _ _ _ annotations _ | enumMember _ _ annotations _ | enumDecl _ _ _ annotations _ => annotations
  | _ => []

def withAnnotations? (annotations : List Node) : Node → Option Node
  | interface name methods bases _ p => some (interface name methods bases annotations p)
  | signature name params result _ p => some (signature name params result annotations p)
  | parameter name type default _ => some (parameter name type default annotations)
  | typeParameter name bound _ p => some (typeParameter name bound annotations p)
  | classDecl h body params _ => some (classDecl h body params annotations)
  | function h params body typeParams _ => some (function h params body typeParams annotations)
  | dataClass name fields body params bases _ p => some (dataClass name fields body params bases annotations p)
  | enumMember name args _ p => some (enumMember name args annotations p)
  | enumDecl name members body _ p => some (enumDecl name members body annotations p)
  | _ => none

def filterAnnotations (keep : Node → Bool) (n : Node) : Node :=
  (n.withAnnotations? (n.annotations.filter keep)).getD n

def classTypeParameters : Node → List Node
  | classDecl _ _ params _ => params
  | dataClass _ _ _ params _ _ _ => params
  | _ => []

def declaredAt : Node → Position
  | annotationUse h .. => h.position
  | rawCode _ p | interface _ _ _ _ p | signature _ _ _ _ p | typeParameter _ _ _ p | assignment _ _ _ _ p
  | dataClass _ _ _ _ _ _ p | enumMember _ _ _ p | enumDecl _ _ _ _ p => p
  | classDecl h .. => h.position
  | function h .. => h.position
  | _ => {}

def methodShape? : Node → Option MethodShape
  | signature name params result _ _ => some ⟨name, params, result⟩
  | function h params _ _ _ => some ⟨h.name, params, h.returnType⟩
  | _ => none

def isFunction : Node → Bool
  | function .. => true
  | _ => false

def isFinal : Node → Bool
  | classDecl h .. => h.isFinal
  | function h .. => h.isFinal
  | _ => false

end Node

end BraceLang
