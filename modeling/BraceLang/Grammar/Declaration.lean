import BraceLang.Grammar.Statement
import BraceLang.NameMap
import BraceLang.Syntax.Part

/-!
# Declarations

Functions and methods, interfaces, classes, data classes and enumerations, with the annotations and the compiler flags
before them.
-/

namespace BraceLang

def Token.position (t : Token) : Position := ⟨t.line, t.column⟩

namespace Parse

/-! ### Annotations -/

def annotationName : Node → Parse String
  | .identifier name => pure name
  | .member object name => do return (← annotationName object) ++ "." ++ name
  | _ => reject "Annotation must be a name or call, e.g. '@foo' or '@!foo(args)'"

/-- The arguments of an annotation: those without a name, and those with one. -/
def splitArguments (args : List Node) : List Node × List (String × Node) :=
  args.foldl (fun (plain, keyed) arg =>
    match arg with
    | .argument (some name) value => (plain, NameMap.put name value keyed)
    | n => (plain ++ [n], keyed)) ([], [])

def annotationOf (payload : Node) (retention : Retention) (position : Position) : Parse Node := do
  let (callee, arguments, isCall) := match payload with
    | .call callee arguments => (callee, arguments, true)
    | n => (n, [], false)
  let name ← annotationName callee
  if retention = .compileTime ∧ name.toList.contains '.' then
    reject ("Compile-time annotation '@!" ++ name ++ "' cannot be dotted; expected a registered name")
  let (args, keyed) := splitArguments arguments
  return .annotationUse ⟨name, retention, isCall, position⟩ args (keyed.map Prod.fst) (keyed.map Prod.snd)

def annotations : Parse (List Node) :=
  iterate (fun (found : List Node) => do
    if ← check [.atSign, .atBang] then
      let mark ← advance
      let payload ← operand (do postfixed (expressionWithin (← budget))) "Expected an annotation name after '@'"
      let a ← annotationOf payload (if mark.kind = .atBang then .compileTime else .runtime) mark.position
      skipNewlines
      return .inl (a :: found)
    return .inr found.reverse) []

def annotate (found : List Node) (n : Node) : Parse Node :=
  if found.isEmpty then pure n
  else
    match n.withAnnotations? found with
    | some n => pure n
    | none => reject "Annotations can only precede declarations"

/-! ### Compiler flags -/

def flagValues : Parse (List String) := do
  if ← check [.rbracket] then return []
  commaSeparated do
    if ← check [.identifier, .string] then return optionalText (← advance).value
    reject "Expected compiler flag identifier or string"

/-- Flags in brackets before a declaration.  If there are flags but what follows is none of the allowed kinds, the
brackets are no flags and the cursor stays before them. -/
def compilerFlags (allowed : Option (List TokenKind)) : Parse (List String) := do
  let start ← cursor
  let flags ← iterate (fun (flags : List String) => do
    if ← check [.lbracket] then
      let _ ← advance
      let more ← flagValues
      let _ ← expect .rbracket "Expected ']' after compiler flags"
      skipNewlines
      iterate (fun (_ : Unit) => do
        if ← check [.comment] then
          let _ ← advance
          skipNewlines
          return .inl ()
        return .inr ()) ()
      return .inl (flags ++ more)
    return .inr flags) []
  if flags.isEmpty then return []
  match allowed with
  | none => return flags
  | some kinds =>
    if (← nextKind) ∈ kinds then return flags
    seek start
    return []

/-! ### Parameters -/

/-- A type that is a single name, or `None`; quoted types are allowed if asked for. -/
def simpleType (allowQuoted : Bool) (complaint : String) : Parse (Option String) := do
  if ← check ([.identifier, .noneKw] ++ if allowQuoted then [.string] else []) then
    return (← advance).value
  reject (complaint ++ " at line " ++ toString (← peek).line)

def parameter : Parse Node := do
  let name ← expect .identifier "Expected parameter name"
  let type ← if ← accept [.colon] then simpleType false "Expected type annotation" else pure none
  let default ← if ← accept [.assign] then do pure (((← advance).value).elim .absent .text) else pure .absent
  return .parameter name.text type default []

/-- Rules separated by commas up to a closing parenthesis, over several lines if need be. -/
def parenthesized (rule : Parse Node) : Parse (List Node) := do
  skipNewlines
  let items ←
    if ← check [.rparen] then pure []
    else do
      let first ← rule
      iterate (fun (items : List Node) => do
        if ← accept [.comma] then
          skipNewlines
          return .inl ((← rule) :: items)
        return .inr items.reverse) [first]
  skipNewlines
  return items

def parameters : Parse (List Node) := parenthesized parameter

def memberArguments : Parse (List Node) := parenthesized expression

def typeParameter : Parse Node := do
  let start ← peek
  let name ← expect .identifier "Expected type parameter name"
  let bounded ← if ← accept [.extendsKw] then pure true else accept [.implementsKw]
  let bound ←
    if bounded then do
      pure (← expect .identifier "Expected bound type after 'extends'/'implements'").value
    else pure none
  return .typeParameter name.text bound [] start.position

def typeParameters : Parse (List Node) := do
  let params ← commaSeparated typeParameter
  let _ ← expect .greater "Expected '>' after type parameters"
  return params

def optionalTypeParameters : Parse (List Node) := do
  if ← accept [.less] then typeParameters else return []

/-! ### Functions -/

def parameterList (complaint : String) : Parse (List Node) := do
  let _ ← expect .lparen complaint
  let params ← parameters
  let _ ← expect .rparen "Expected ')' after parameters"
  return params

def bracedBody (opening closing : String) : Parse (List Node) := do
  let _ ← expect .lbrace opening
  let body ← functionBody simpleStatement
  let _ ← expect .rbrace closing
  return body

def functionRest (flags : List String) (position : Position) : Parse Node := do
  let name ← expect .identifier "Expected function name"
  let params ← parameterList "Expected '(' after function name"
  let returnType ←
    if ← accept [.colon] then simpleType false "Expected return type after ':'"
    else do
      if ← accept [.arrow] then simpleType false "Expected return type after '->'" else pure none
  let body ← bracedBody "Expected '\x7b' after function signature" "Expected '\x7d' after function body"
  return .function ⟨name.text, returnType, false, false, false, [], flags, position⟩ params (some body) [] []

def signature (position : Position) : Parse Node := do
  let name ← expect .identifier "Expected method name"
  let params ← parameterList "Expected '(' after method name"
  let returnType ← if ← accept [.arrow] then simpleType false "Expected return type" else pure none
  let _ ← accept [.semicolon]
  return .signature name.text params returnType [] position

/-- A member of a class after its modifiers: a method, or a simple statement.  A method that is abstract, or declared
where only signatures are asked for, has no body of its own. -/
def memberRest (signatureOnly : Bool) (flags : List String) (position : Position) (isStatic isAbstract isFinal : Bool) :
    Parse Node := do
  if ← accept [.defKw] then
    let name ← expect .identifier "Expected method name"
    let params ← parameterList "Expected '(' after method name"
    let returnType ← if ← accept [.arrow] then simpleType true "Expected return type after '->'" else pure none
    let body ←
      if isAbstract || signatureOnly then do pure [Node.pass (← accept [.semicolon])]
      else bracedBody "Expected '\x7b' after method signature" "Expected '\x7d' after method body"
    return .function ⟨name.text, returnType, isStatic, isAbstract, isFinal, [], flags, position⟩ params (some body)
      [] []
  simpleStatement

def classMember (signatureOnly : Bool) (flags : List String) : Parse Node := do
  let start ← peek
  let isStatic ← accept [.staticKw]
  let isAbstract ← if isStatic then pure false else accept [.abstractKw]
  let isFinal ← if isStatic || isAbstract then pure false else accept [.finalKw]
  memberRest signatureOnly flags start.position isStatic isAbstract isFinal

/-! ### Classes and their kin -/

def classBody : Parse (List Node) :=
  statementsUntil atBlockEnd [.newline, .comment] do
    let found ← annotations
    let flags ← compilerFlags (some [.staticKw, .abstractKw, .finalKw, .defKw])
    let n ← classMember false flags
    match n with
    | .function .. => pure ()
    | _ => if !flags.isEmpty then reject "Compiler flags can only be applied to methods inside classes"
    annotate found n

def nameSequence (complaint : String) : Parse (List String) :=
  commaSeparated do return (← expect .identifier complaint).text

def classBases : Parse (List String) := do
  if ← accept [.lparen] then
    let bases ← if ← check [.rparen] then pure [] else nameSequence "Expected base class"
    let _ ← expect .rparen "Expected ')' after base classes"
    return bases
  if ← accept [.extendsKw] then return [(← expect .identifier "Expected base class").text]
  return []

def classDeclaration (flags : List String) : Parse Node := do
  let start ← peek
  let isAbstract ← accept [.abstractKw]
  let isFinal ← if isAbstract then pure false else accept [.finalKw]
  let _ ← expect .classKw "Expected 'class' keyword"
  let name ← expect .identifier "Expected class name"
  let typeParams ← optionalTypeParameters
  let bases ← classBases
  let interfaces ← if ← accept [.implementsKw] then nameSequence "Expected interface name" else pure []
  let _ ← expect .lbrace "Expected '\x7b' after class declaration"
  let body ← classBody
  let _ ← expect .rbrace "Expected '\x7d' after class body"
  return .classDecl ⟨name.text, bases, interfaces, isAbstract, isFinal, flags, start.position⟩ body typeParams []

def interfaceBody : Parse (List Node) := do
  let methods ← statementsUntil atBlockEnd [.newline] do
    let start ← peek
    if ← check [.defKw] then
      let _ ← advance
      signature start.position
    else reject ("Expected method signature, got " ++ start.describe)
  let _ ← expect .rbrace "Expected '\x7d' after interface body"
  return methods

def interfaceRest (position : Position) : Parse Node := do
  let name ← expect .identifier "Expected interface name"
  let bases ← if ← accept [.extendsKw] then nameSequence "Expected base interface" else pure []
  let _ ← expect .lbrace "Expected '\x7b' after interface declaration"
  let methods ← interfaceBody
  return .interface name.text (some methods) bases [] position

/-- A data class: its fields in parentheses, then a body or an optional semicolon. -/
def dataClassDeclaration : Parse Node := do
  let start ← peek
  let _ ← expect .dataKw "Expected 'data'"
  let _ ← expect .classKw "Expected 'class' after 'data'"
  let name ← expect .identifier "Expected data class name"
  let typeParams ← optionalTypeParameters
  let _ ← expect .lparen "Expected '(' after data class name"
  let fields ← parameters
  let _ ← expect .rparen "Expected ')' after data class fields"
  let body ←
    if ← accept [.lbrace] then do
      let body ← classBody
      let _ ← expect .rbrace "Expected '\x7d' after data class body"
      pure body
    else do
      let _ ← accept [.semicolon]
      pure []
  return .dataClass name.text fields body typeParams [] [] start.position

def enumMembers : Parse (List Node) :=
  iterate (fun (members : List Node) => do
    if ← check [.rbrace, .semicolon] then return .inr members.reverse
    if ← isAtEnd then return .inr members.reverse
    if ← accept [.newline] then return .inl members
    let start ← peek
    let name ← expect .identifier "Expected enum member name"
    let args ←
      if ← accept [.lparen] then do
        let args ← memberArguments
        let _ ← expect .rparen "Expected ')' after enum member arguments"
        pure args
      else pure []
    let members := Node.enumMember name.text args [] start.position :: members
    if ← accept [.comma] then return .inl members
    return .inr members.reverse) []

/-- An enumeration: its members, and after a semicolon its constructor and methods. -/
def enumDeclaration : Parse Node := do
  let start ← peek
  let _ ← expect .enumKw "Expected 'enum'"
  let name ← expect .identifier "Expected enum name"
  let _ ← expect .lbrace "Expected '\x7b' after enum name"
  let members ← enumMembers
  skipNewlines
  let body ← if ← accept [.semicolon] then classBody else pure []
  let _ ← expect .rbrace "Expected '\x7d' after enum declaration"
  return .enumDecl name.text members body [] start.position

end Parse

end BraceLang
