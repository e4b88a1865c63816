import BraceLang.Syntax.Field
import BraceLang.Text.Quoted

/-!
# Nodes as text

A node has two texts. The full text names the class and every field.
-/

namespace BraceLang

def Scalar.display : Scalar → String
  | absent => "None"
  | truth b => truthText b
  | integer n => toString n
  | text s => s

def Scalar.full : Scalar → String
  | text s => quoted s
  | v => v.display

def nameList (ss : List String) : String := bracketed (ss.map quoted)

namespace Node

def full (n : Node) : String :=
  if n.isPresent then
    n.className ++ "(" ++
      String.intercalate ", "
        (n.fields.attach.map fun f => f.1.1 ++ "=" ++
          match _hv : f.1.2 with
          | .text s => optionalQuoted s
          | .truth b => truthText b
          | .count k => toString k
          | .scalar v => v.full
          | .texts ss => bracketed (ss.map optionalQuoted)
          | .node m => full m
          | .nodes none => "None"
          | .nodes (some ms) => bracketed (ms.attach.map fun m => full m.1)
          | .keyed keys ms =>
            "\x7b" ++ String.intercalate ", "
              (List.zipWith (fun k v => quoted k ++ ": " ++ v) keys (ms.attach.map fun m => full m.1)) ++ "\x7d") ++
      ")"
  else "None"
termination_by sizeOf n
decreasing_by
  · exact sizeOf_lt_of_mem_members f.2 (by rw [_hv]; exact List.mem_singleton.2 rfl)
  · exact sizeOf_lt_of_mem_members f.2 (by rw [_hv]; exact m.2)
  · exact sizeOf_lt_of_mem_members f.2 (by rw [_hv]; exact m.2)

def fullList (ns : List Node) : String := bracketed (ns.map full)

def fullKeyed (keys : List String) (values : List Node) : String :=
  "\x7b" ++ String.intercalate ", " (List.zipWith (fun k v => quoted k ++ ": " ++ full v) keys values) ++ "\x7d"

/-- The name of a declaration, parameter or member, and of a name used as an expression. -/
def name : Node → String
  | annotationUse h .. => h.name
  | interface name .. | signature name .. | parameter name .. | typeParameter name .. | identifier name
  | dataClass name .. | enumMember name .. | enumDecl name .. => name
  | classDecl h .. => h.name
  | function h .. => h.name
  | _ => ""

def ifNamed (s : Option String) (shown : String → String) : String :=
  match s with
  | some s => if s.isEmpty then "" else shown s
  | none => ""

mutual

def summary : Node → String
  | missing => "None"
  | module body => "Module: " ++ String.join ((summaries body).map ("\n  " ++ ·))
  | annotationUse h args keys values =>
    "Annotation(name=" ++ h.name ++ (if h.isCall then "()" else "") ++ ", retention=" ++ h.retention.name ++
      ", args=" ++ fullList args ++ ", kwargs=" ++ fullKeyed keys values ++ ")"
  | rawCode code _ => "RawCode(" ++ quoted code ++ ")"
  | interface name methods bases _ _ =>
    "InterfaceDeclaration(name=" ++ name ++ ", methods=" ++
      (match methods with
      | none => "None"
      | some ms => bracketed (summaries ms)) ++
      ", base_interfaces=" ++ nameList bases ++ ")"
  | signature name params returnType _ _ =>
    "MethodSignature(name=" ++ name ++ ", params=" ++ bracketed (summaries params) ++ ", return_type=" ++
      optionalText returnType ++ ")"
  | parameter name type default _ =>
    "Parameter(name=" ++ name ++ ", type_annotation=" ++ optionalText type ++ ", default=" ++ default.display ++ ")"
  | typeParameter name bound _ _ =>
    "TypeParameter(name=" ++ name ++ ifNamed bound (" extends " ++ ·) ++ ")"
  | classDecl h _ _ _ =>
    "ClassDeclaration(name=" ++ h.name ++ ", bases=" ++ nameList h.bases ++ ", interfaces=" ++
      nameList h.interfaces ++ ", is_abstract=" ++ truthText h.isAbstract ++ ", is_final=" ++ truthText h.isFinal ++
      ", compiler_flags=" ++ nameList h.flags ++ ")"
  | function h params body _ _ =>
    "FunctionDeclaration(name=" ++ h.name ++ ", params=" ++ bracketed (summaries params) ++ ", body=" ++
      (match body with
      | none => "None"
      | some b => fullList b) ++
      ", return_type=" ++ optionalText h.returnType ++ ", is_static=" ++ truthText h.isStatic ++ ", is_abstract=" ++
      truthText h.isAbstract ++ ", is_final=" ++ truthText h.isFinal ++ ", decorators=" ++ nameList h.decorators ++
      ", compiler_flags=" ++ nameList h.flags ++ ")"
  | block statements => "BlockStatement: " ++ String.join ((summaries statements).map ("\n  " ++ ·))
  | expression value semicolon =>
    "ExpressionStatement(expression=" ++ value.summary ++ ", has_semicolon=" ++ truthText semicolon ++ ")"
  | pass semicolon => "PassStatement(has_semicolon=" ++ truthText semicolon ++ ")"
  | returns value semicolon =>
    "ReturnStatement(value=" ++ value.summary ++ ", has_semicolon=" ++ truthText semicolon ++ ")"
  | conditional c t e =>
    "IfStatement(condition=" ++ c.summary ++ ", then_body=" ++ fullList t ++ ", else_body=" ++ fullList e ++ ")"
  | forLoop target body => "ForStatement(target=" ++ target.summary ++ ", body=" ++ fullList body ++ ")"
  | whileLoop c body => "WhileStatement(condition=" ++ c.summary ++ ", body=" ++ fullList body ++ ")"
  | switch subject cases default =>
    "SwitchStatement(expression=" ++ subject.summary ++ ", cases=" ++ fullList cases ++ ", default=" ++
      fullList default ++ ")"
  | case value body => "CaseClause(value=" ++ value.summary ++ ", body=" ++ fullList body ++ ")"
  | assignment target value operator type _ =>
    "AssignmentExpression(target=" ++ target.summary ++ ", value=" ++ value.summary ++ ", operator=" ++
      optionalText operator ++ ", type_annotation=" ++ optionalText type ++ ")"
  | identifier name => "IdentifierExpression(name=" ++ name ++ ")"
  | member object name => "AttributeExpression(object=" ++ object.summary ++ ", attribute=" ++ name ++ ")"
  | literal value kind => "LiteralExpression(value=" ++ value.display ++ ", literal_type=" ++ kind.name ++ ")"
  | collection items kind => "LiteralExpression(value=" ++ fullList items ++ ", literal_type=" ++ kind.name ++ ")"
  | call callee arguments =>
    "CallExpression(callee=" ++ callee.summary ++ ", arguments=" ++ fullList arguments ++ ")"
  | argument name value => "ArgumentExpression(name=" ++ optionalText name ++ ", value=" ++ value.summary ++ ")"
  | logical operator left right =>
    "LogicalExpression(operator=" ++ operator ++ ", left=" ++ left.summary ++ ", right=" ++ right.summary ++ ")"
  | unary operator operand => "UnaryExpression(operator=" ++ operator ++ ", operand=" ++ operand.summary ++ ")"
  | binary operator left right =>
    "BinaryExpression(operator=" ++ operator ++ ", left=" ++ left.summary ++ ", right=" ++ right.summary ++ ")"
  | lambda params body returnType =>
    "LambdaExpression(params=" ++ fullList params ++ ", body=" ++ body.summary ++ ", return_type=" ++
      optionalText returnType ++ ")"
  | raises exception semicolon =>
    "RaiseStatement(exception=" ++ exception.summary ++ ", has_semicolon=" ++ truthText semicolon ++ ")"
  | imports h =>
    "ImportStatement: \n    module: " ++ h.source ++ ",\n    names: " ++ nameList h.names ++ ",\n    aliases: " ++
      bracketed (h.aliases.map optionalQuoted) ++ ",\n    is_from_import: " ++ truthText h.isFrom
  | entry key value => "DictEntry(key=" ++ key.summary ++ ", value=" ++ value.summary ++ ")"
  | subscript object index => "SubscriptExpression(object=" ++ object.summary ++ ", index=" ++ index.summary ++ ")"
  | slice start stop step =>
    "SliceExpression(start=" ++ start.summary ++ ", stop=" ++ stop.summary ++ ", step=" ++ step.summary ++ ")"
  | comprehension element target source condition kind key =>
    "ComprehensionExpression(element=" ++ element.summary ++ ", target=" ++ target.summary ++ ", iter=" ++
      source.summary ++ ", condition=" ++ condition.summary ++ ", comp_type=" ++ kind.name ++ ", key=" ++
      key.summary ++ ")"
  | finalDecl target value type =>
    "FinalDeclaration(target=" ++ target.summary ++ ", value=" ++ value.summary ++ ", type_annotation=" ++
      optionalText type ++ ")"
  | dataClass name fields body typeParameters _ _ _ =>
    "DataClassDeclaration(name=" ++ name ++
      (if typeParameters.isEmpty then "" else "<" ++ String.intercalate ", " (typeParameters.map Node.name) ++ ">") ++
      ", fields=" ++ bracketed (summaries fields) ++ ", body=" ++ toString body.length ++ " members)"
  | enumMember name args _ _ =>
    "EnumMember(name=" ++ name ++
      (if args.isEmpty then "" else "(" ++ String.intercalate ", " (summaries args) ++ ")") ++ ")"
  | enumDecl name members body _ _ =>
    "EnumDeclaration(name=" ++ name ++ ", members=" ++ bracketed (members.map Node.name) ++ ", body=" ++
      toString body.length ++ " members)"

def summaries : List Node → List String
  | [] => []
  | n :: ns => n.summary :: summaries ns

end

mutual

/-- Whether a summary can be made: an interface without a list of methods has none, and a node that would show one has
none either. -/
def hasSummary : Node → Bool
  | interface _ none _ _ _ => false
  | interface _ (some methods) _ _ _ => haveSummaries methods
  | module nodes | block nodes | signature _ nodes _ _ _ | function _ nodes _ _ _ | dataClass _ nodes _ _ _ _ _
  | enumMember _ nodes _ _ => haveSummaries nodes
  | expression n _ | returns n _ | conditional n _ _ | forLoop n _ | whileLoop n _ | switch n _ _ | case n _
  | member n _ | call n _ | argument _ n | unary _ n | lambda _ n _ | raises n _ => n.hasSummary
  | assignment a b _ _ _ | logical _ a b | binary _ a b | entry a b | subscript a b | finalDecl a b _ =>
    a.hasSummary && b.hasSummary
  | slice a b c => a.hasSummary && b.hasSummary && c.hasSummary
  | comprehension a b c d _ e =>
    a.hasSummary && b.hasSummary && c.hasSummary && d.hasSummary && e.hasSummary
  | _ => true

def haveSummaries : List Node → Bool
  | [] => true
  | n :: ns => n.hasSummary && haveSummaries ns

end

/-- What a thing is called in a report: its class, and its text if that says more. -/
def titled (kind text : String) : String := if text.isEmpty || text == kind then kind else kind ++ ": " ++ text

def describe (n : Node) : String :=
  if n.isPresent then titled n.className (if n.hasSummary then n.summary else n.full) else "<no node provided>"

end Node

end BraceLang
