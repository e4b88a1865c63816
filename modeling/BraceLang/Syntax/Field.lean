import BraceLang.Syntax.Node

/-!
# Fields, children and the walk

Every node has a class name and a list of named fields. The children of a node are the nodes in its fields, from the
first field to the last.
-/

namespace BraceLang

namespace LiteralKind

def name : LiteralKind → String
  | string => "string"
  | number => "number"
  | boolean => "boolean"
  | none => "none"
  | fstring => "fstring"
  | frstring => "frstring"
  | regex => "regex"
  | list => "list"
  | tuple => "tuple"
  | set => "set"
  | dict => "dict"
  | other s => s

def ofName (s : String) : LiteralKind :=
  ([string, number, boolean, none, fstring, frstring, regex, list, tuple, set, dict].find? fun k =>
    k.name == s).getD (other s)

end LiteralKind

namespace ComprehensionKind

def name : ComprehensionKind → String
  | generator => "generator"
  | list => "list"
  | set => "set"
  | dict => "dict"
  | other s => s

def ofName (s : String) : ComprehensionKind :=
  ([generator, list, set, dict].find? fun k => k.name == s).getD (other s)

end ComprehensionKind

namespace Retention

def name : Retention → String
  | runtime => "runtime"
  | compileTime => "compile_time"
  | other s => s

def ofName (s : String) : Retention :=
  ([runtime, compileTime].find? fun k => k.name == s).getD (other s)

end Retention

inductive Field where
  | text (s : Option String)
  | truth (b : Bool)
  | count (n : Int)
  | scalar (v : Scalar)
  | texts (ss : List (Option String))
  | node (n : Node)
  | nodes (ns : Option (List Node))
  | keyed (keys : List String) (values : List Node)

def Field.members : Field → List Node
  | node n => [n]
  | nodes (some ns) => ns
  | keyed _ ns => ns
  | _ => []

def Field.plainMembers : Field → List Node
  | keyed .. => []
  | f => f.members

theorem Field.mem_members_of_mem_plainMembers {f : Field} {n : Node} (h : n ∈ f.plainMembers) : n ∈ f.members := by
  cases f <;> simp_all [plainMembers]

namespace Node

def className : Node → String
  | missing => "NoneType"
  | module .. => "Module"
  | annotationUse .. => "Annotation"
  | rawCode .. => "RawCode"
  | interface .. => "InterfaceDeclaration"
  | signature .. => "MethodSignature"
  | parameter .. => "Parameter"
  | typeParameter .. => "TypeParameter"
  | classDecl .. => "ClassDeclaration"
  | function .. => "FunctionDeclaration"
  | block .. => "BlockStatement"
  | expression .. => "ExpressionStatement"
  | pass .. => "PassStatement"
  | returns .. => "ReturnStatement"
  | conditional .. => "IfStatement"
  | forLoop .. => "ForStatement"
  | whileLoop .. => "WhileStatement"
  | switch .. => "SwitchStatement"
  | case .. => "CaseClause"
  | assignment .. => "AssignmentExpression"
  | identifier .. => "IdentifierExpression"
  | member .. => "AttributeExpression"
  | literal .. => "LiteralExpression"
  | collection .. => "LiteralExpression"
  | call .. => "CallExpression"
  | argument .. => "ArgumentExpression"
  | logical .. => "LogicalExpression"
  | unary .. => "UnaryExpression"
  | binary .. => "BinaryExpression"
  | lambda .. => "LambdaExpression"
  | raises .. => "RaiseStatement"
  | imports .. => "ImportStatement"
  | entry .. => "DictEntry"
  | subscript .. => "SubscriptExpression"
  | slice .. => "SliceExpression"
  | comprehension .. => "ComprehensionExpression"
  | finalDecl .. => "FinalDeclaration"
  | dataClass .. => "DataClassDeclaration"
  | enumMember .. => "EnumMember"
  | enumDecl .. => "EnumDeclaration"

def isPresent : Node → Bool
  | missing => false
  | _ => true

def isExpression : Node → Bool
  | assignment .. | identifier .. | member .. | literal .. | collection .. | call .. | argument .. | logical ..
  | unary .. | binary .. | lambda .. | entry .. | subscript .. | slice .. | comprehension .. => true
  | _ => false

/-- Whether a node belongs to the class with the given name; all nodes share one base class, and all expressions
another. -/
def isInstance (n : Node) (cls : String) : Bool :=
  n.className == cls || cls == "ASTNode" || (cls == "Expression" && n.isExpression)

private def positionFields (p : Position) : List (String × Field) :=
  [("line", .count p.line), ("column", .count p.column)]

private def listField (ns : List Node) : Field := .nodes (some ns)

private def namesField (ss : List String) : Field := .texts (ss.map some)

def fields : Node → List (String × Field)
  | missing => []
  | module body => [("body", listField body)]
  | annotationUse h args keys values =>
    [("name", .text h.name), ("args", listField args), ("kwargs", .keyed keys values),
      ("retention", .text h.retention.name), ("is_call", .truth h.isCall)] ++ positionFields h.position
  | rawCode code p => [("code", .text code)] ++ positionFields p
  | interface name methods bases annotations p =>
    [("name", .text name), ("methods", .nodes methods), ("base_interfaces", namesField bases),
      ("annotations", listField annotations)] ++ positionFields p
  | signature name params returnType annotations p =>
    [("name", .text name), ("params", listField params), ("return_type", .text returnType),
      ("annotations", listField annotations)] ++ positionFields p
  | parameter name type default annotations =>
    [("name", .text name), ("type_annotation", .text type), ("default", .scalar default),
      ("annotations", listField annotations)]
  | typeParameter name bound annotations p =>
    [("name", .text name), ("bound", .text bound), ("annotations", listField annotations)] ++ positionFields p
  | classDecl h body typeParameters annotations =>
    [("name", .text h.name), ("body", listField body), ("type_parameters", listField typeParameters),
      ("bases", namesField h.bases), ("interfaces", namesField h.interfaces), ("is_abstract", .truth h.isAbstract),
      ("is_final", .truth h.isFinal), ("compiler_flags", namesField h.flags),
      ("annotations", listField annotations)] ++ positionFields h.position
  | function h params body typeParameters annotations =>
    [("name", .text h.name), ("params", listField params), ("body", .nodes body), ("return_type", .text h.returnType),
      ("type_parameters", listField typeParameters), ("is_static", .truth h.isStatic),
      ("is_abstract", .truth h.isAbstract), ("is_final", .truth h.isFinal), ("decorators", namesField h.decorators),
      ("compiler_flags", namesField h.flags), ("annotations", listField annotations)] ++ positionFields h.position
  | block statements => [("statements", listField statements)]
  | expression value semicolon => [("expression", .node value), ("has_semicolon", .truth semicolon)]
  | pass semicolon => [("has_semicolon", .truth semicolon)]
  | returns value semicolon => [("value", .node value), ("has_semicolon", .truth semicolon)]
  | conditional c t e => [("condition", .node c), ("then_body", listField t), ("else_body", listField e)]
  | forLoop target body => [("target", .node target), ("body", listField body)]
  | whileLoop c body => [("condition", .node c), ("body", listField body)]
  | switch subject cases default =>
    [("expression", .node subject), ("cases", listField cases), ("default", listField default)]
  | case value body => [("value", .node value), ("body", listField body)]
  | assignment target value operator type p =>
    [("target", .node target), ("value", .node value), ("operator", .text operator),
      ("type_annotation", .text type)] ++ positionFields p
  | identifier name => [("name", .text name)]
  | member object name => [("object", .node object), ("attribute", .text name)]
  | literal value kind => [("value", .scalar value), ("literal_type", .text kind.name)]
  | collection items kind => [("value", listField items), ("literal_type", .text kind.name)]
  | call callee arguments => [("callee", .node callee), ("arguments", listField arguments)]
  | argument name value => [("name", .text name), ("value", .node value)]
  | logical operator left right => [("operator", .text operator), ("left", .node left), ("right", .node right)]
  | unary operator operand => [("operator", .text operator), ("operand", .node operand)]
  | binary operator left right => [("operator", .text operator), ("left", .node left), ("right", .node right)]
  | lambda params body returnType =>
    [("params", listField params), ("body", .node body), ("return_type", .text returnType)]
  | raises exception semicolon => [("exception", .node exception), ("has_semicolon", .truth semicolon)]
  | imports h =>
    [("module", .text h.source), ("names", namesField h.names), ("aliases", .texts h.aliases),
      ("is_from_import", .truth h.isFrom), ("has_semicolon", .truth h.semicolon)]
  | entry key value => [("key", .node key), ("value", .node value)]
  | subscript object index => [("object", .node object), ("index", .node index)]
  | slice start stop step => [("start", .node start), ("stop", .node stop), ("step", .node step)]
  | comprehension element target source condition kind key =>
    [("element", .node element), ("target", .node target), ("iter", .node source), ("condition", .node condition),
      ("comp_type", .text kind.name), ("key", .node key)]
  | finalDecl target value type =>
    [("target", .node target), ("value", .node value), ("type_annotation", .text type)]
  | dataClass name fields body typeParameters bases annotations p =>
    [("name", .text name), ("fields", listField fields), ("body", listField body),
      ("type_parameters", listField typeParameters), ("bases", namesField bases),
      ("annotations", listField annotations)] ++ positionFields p
  | enumMember name args annotations p =>
    [("name", .text name), ("args", listField args), ("annotations", listField annotations)] ++ positionFields p
  | enumDecl name members body annotations p =>
    [("name", .text name), ("members", listField members), ("body", listField body),
      ("annotations", listField annotations)] ++ positionFields p

def children (n : Node) : List Node := n.fields.flatMap fun f => f.2.members.filter isPresent

/-- A node in a field is smaller than the node that has the field. -/
theorem sizeOf_lt_of_mem_members {n m : Node} {f : String × Field} (hf : f ∈ n.fields) (hm : m ∈ f.2.members) :
    sizeOf m < sizeOf n := by
  have h : m ∈ n.fields.flatMap fun f => f.2.members := List.mem_flatMap.2 ⟨f, hf, hm⟩
  clear hf hm
  have mem_lt {ns : List Node} (h : m ∈ ns) : sizeOf m < sizeOf ns := List.sizeOf_lt_of_mem h
  cases n with
  | interface name methods bases annotations p =>
    cases methods <;> simp [fields, positionFields, listField, namesField, Field.members] at h ⊢ <;> grind
  | function head params body typeParameters annotations =>
    cases body <;> simp [fields, positionFields, listField, namesField, Field.members] at h ⊢ <;> grind
  | _ => simp [fields, positionFields, listField, namesField, Field.members] at h <;> grind

theorem sizeOf_lt_of_mem_children {n m : Node} (h : m ∈ n.children) : sizeOf m < sizeOf n := by
  obtain ⟨f, hf, hm⟩ := List.mem_flatMap.1 h
  exact sizeOf_lt_of_mem_members hf (List.mem_filter.1 hm).1

/-- A node and all nodes under it: the node first, then its children from the last to the first. -/
def walk (n : Node) : List Node :=
  n :: n.children.reverse.attach.flatMap fun c => walk c.1
termination_by sizeOf n
decreasing_by exact sizeOf_lt_of_mem_children (List.mem_reverse.1 c.2)

theorem walk_eq (n : Node) : n.walk = n :: n.children.reverse.flatMap walk := by
  rw [walk]
  refine congrArg (n :: ·) ((List.flatMap_subtype fun _ _ => rfl).trans ?_)
  rw [List.unattach_attach]

end Node

end BraceLang
