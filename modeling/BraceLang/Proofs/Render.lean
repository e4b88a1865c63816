import BraceLang.Emission.Text

/-!
# Text without pieces

The writer keeps all pieces of a program in one list and takes pieces back from its end when a node needs the text of
a part of it.
-/

namespace BraceLang

/-- What the text of a node depends on, besides the node and the target. -/
structure Context where
  depth : Nat := 0
  inClass : Bool := false
  finals : List FinalScope := [[]]
  classNames : List String := []
  classStack : List String := []
  typeParams : List String := []

def Context.writer (s : Context) (output : Array String) : Emitter :=
  ⟨output, s.depth, s.inClass, s.finals, s.classNames, s.classStack, s.typeParams⟩

def Emitter.context (e : Emitter) : Context :=
  ⟨e.depth, e.inClass, e.finals, e.classNames, e.classStack, e.typeParams⟩

/-- A value that depends on the context, and the context after it. -/
abbrev Render := StateM Context

namespace Render

instance : Append (Render String) where
  append r r' := do
    let text ← r
    let more ← r'
    return text ++ more

def line (t : String) : Render String := do
  return String.ofList (List.replicate (4 * (← get).depth) ' ') ++ t

def deeper (r : Render String) : Render String := do
  modify fun s => { s with depth := s.depth + 1 }
  let text ← r
  modify fun s => { s with depth := s.depth - 1 }
  return text

def block (head : String) (body : Render String) : Render String := line head ++ deeper body

def withFinals (r : Render String) : Render String := do
  modify fun s => { s with finals := [] :: s.finals }
  let text ← r
  modify fun s => { s with finals := match s.finals with
    | _ :: scope :: scopes => scope :: scopes
    | scopes => scopes }
  return text

/-- A text inside the class `name`, with its type parameters if it has a list of them. -/
def withinClass (name : String) (params : Option (List String)) (r : Render String) : Render String := do
  let outer ← get
  modify fun s =>
    { s with inClass := true, classStack := name :: s.classStack, typeParams := params.getD s.typeParams }
  let text ← r
  modify fun s =>
    { s with inClass := outer.inClass, classStack := s.classStack.tail, typeParams := outer.typeParams }
  return text

def setFinal (name value : String) : Render String := do
  unless name.isEmpty do
    modify fun s => { s with finals := match s.finals with
      | scope :: scopes => ((name, value) :: scope) :: scopes
      | [] => [] }
  return ""

def each {α : Type} (f : α → Render String) : List α → Render String
  | [] => pure ""
  | x :: xs => f x ++ each f xs

/-- The head of a method whose body is left to the classes that have it. -/
def signature (target : Target) (s : MethodShape) : Render String := do
  let params := parameterList target (← get).typeParams true s.params
  line ("def " ++ s.name ++ "(" ++ params ++ ")" ++ resultText s.returnType ++ ":") ++
    (pure "\n" ++ deeper (line "\"\"\"Interface method.\"\"\"\n" ++ line "...\n"))

def signatures (target : Target) (methods : List MethodShape) : Render String :=
  each (fun (s, i) => if i = 0 then signature target s else pure "\n" ++ signature target s) methods.zipIdx

def attributes (target : Target) (names : List String) : Render String :=
  if target.isCompiled && !names.isEmpty then
    each (fun a => line ("cdef public object " ++ a ++ "\n")) names ++ pure "\n"
  else pure ""

/-! ### Declarations around their blocks -/

section

variable (target : Target) (name : String) (fields params : List Node) (bases : List String)

def classFrame (head : ClassHead) (block : Render String) : Render String :=
  withinClass head.name (some (params.map Node.name)) <| withFinals <|
    (if head.isFinal && !target.isCompiled then pure "@final\n" else pure "") ++
    (pure ((if target.isCompiled then "cdef class " else "class ") ++ head.name ++
      basesText (classBaseNames target head params) ++ ":\n") ++ deeper block)

def dataClassFrame (block : Render String) : Render String :=
  withinClass name (some (params.map Node.name)) <| pure "@dataclass\n" ++
    (pure ("class " ++ name ++ basesText (genericBase params ++ bases) ++ ":\n") ++
    deeper (line ("\"\"\"" ++ name ++ " data class.\"\"\"\n") ++
      (each (fun f => line (f.parameterText .python [] ++ "\n")) fields ++ block)))

def enumFrame (members block : Render String) : Render String :=
  withinClass name none <| pure ("class " ++ name ++ "(Enum):\n") ++
    deeper (line ("\"\"\"" ++ name ++ " enum.\"\"\"\n") ++ (members ++ block))

def functionFrame (head : FunctionHead) (decorators : Render (List String)) (block : Context → Render String) :
    Render String := do
  let s ← get
  withFinals do
    let decorators ← decorators
    let list := parameterList target s.typeParams (s.inClass && !head.isStatic) params
    each (fun d => line (d ++ "\n")) (decorators ++ head.modifierDecorators target ++ head.decorators) ++
      Render.block (functionHeadText target s.typeParams (head.writtenName s.classStack) list head.returnType) (block s)

end

end Render

open Render

namespace Node

mutual

def render (target : Target) : Node → Render String
  | missing | module _ | annotationUse .. | parameter .. | typeParameter .. | block _ | case .. | lambda .. | slice ..
  | enumMember .. => pure ""
  | rawCode code _ => each (fun l => if l = "" then pure "\n" else line (l ++ "\n")) (rawLines code)
  | interface name methods bases _ _ =>
    match target with
    | .cython _ => pure ""
    | .python =>
      pure ("class " ++ name ++ "(" ++ String.intercalate ", " (bases ++ ["Protocol"]) ++ "):\n") ++
        (deeper (line ("\"\"\"Interface for " ++ name ++ ".\"\"\"\n") ++
          match methods with
          | none | some [] => line "pass\n"
          | some (m :: ms) => pure "\n" ++ signatures target ((m :: ms).filterMap methodShape?)) ++
        pure "\n")
  | signature name params result _ _ => Render.signature target ⟨name, params, result⟩
  | classDecl head body params _ =>
    classFrame target params head (match body with
      | [] => line "pass\n"
      | n :: ns =>
        line ("\"\"\"" ++ head.name ++ " class.\"\"\"\n\n") ++
          (attributes target (target.arrange (classAttributes (n :: ns))) ++
          (render target n ++ renderFollowing target "\n" ns)))
  | dataClass name fields body params bases _ _ =>
    dataClassFrame name fields params bases (match body with
      | [] => if fields.isEmpty then line "pass\n" else pure ""
      | n :: ns =>
        (if fields.isEmpty then pure "" else pure "\n") ++ (render target n ++ renderFollowing target "\n" ns))
  | enumDecl name members body _ _ =>
    enumFrame name (renderMembers target members) (match body with
      | [] => if members.isEmpty then line "pass\n" else pure ""
      | n :: ns =>
        (if members.isEmpty then pure "" else pure "\n") ++ (render target n ++ renderFollowing target "\n" ns))
  | function head params body _ annotations =>
    functionFrame target params head (renderDecorators target annotations) fun s =>
      if head.isAbstract then line "\"\"\"Abstract method.\"\"\"\n" ++ line "pass\n"
      else
        match body with
        | none | some [] => line "pass\n"
        | some (n :: ns) =>
          line ("\"\"\"" ++ head.writtenName s.classStack ++ " " ++ (if s.inClass then "method" else "function") ++
              ".\"\"\"\n") ++
            (render target n ++ renderAll target ns)
  | expression value _ => do
    let classes := (← get).classNames
    let plain := do line (← render target value) ++ pure "\n"
    match value with
    | missing => pure ""
    | assignment (identifier name) assigned _ _ _ =>
      let type := (revealedType classes assigned).getD ""
      if type.isEmpty then plain
      else do line (name ++ ": " ++ type ++ " = " ++ (← render target assigned)) ++ pure "\n"
    | _ => plain
  | pass _ => line "pass\n"
  | returns value _ => do
    if value.isPresent then line ("return " ++ (← render target value) ++ "\n") else line "return\n"
  | raises exception _ => do
    if exception.isPresent then line ("raise " ++ (← render target exception) ++ "\n") else line "raise\n"
  | conditional c t e => do
    let condition ← render target c
    Render.block ("if " ++ condition ++ ":\n") (renderAll target t) ++ renderElse target e
  | forLoop clause body =>
    let whole := do return (← render target clause) ++ ":\n"
    line "for " ++
      ((match clause with
        | binary operator item source => do
          if operator = "in" then
            let itemText ← render target item
            let sourceText ← render target source
            return itemText ++ " in " ++ sourceText ++ ":\n"
          else whole
        | _ => whole) ++
      deeper (renderAll target body))
  | whileLoop c body =>
    line "while " ++ ((do return (← render target c) ++ ":\n") ++ deeper (renderAll target body))
  | switch subject cases default => do
    let text ← render target subject
    renderCases target text "if " cases ++
      match default with
      | [] => pure ""
      | n :: ns => Render.block "else:\n" (render target n ++ renderAll target ns)
  | assignment place value operator type _ => do
    let placeText ← render target place
    match type with
    | some type =>
      let annotated := placeText ++ ": " ++ target.typeName (← get).typeParams type
      if value.isPresent then return annotated ++ " = " ++ (← render target value) else return annotated
    | none =>
      let sign := if isGiven operator then operator.getD "" else "="
      return placeText ++ " " ++ sign ++ " " ++ (← render target value)
  | identifier name => do return ((← get).finals.findSome? (·.lookup name)).getD name
  | member object name => do return (← render target object) ++ "." ++ name
  | literal value kind => pure (String.join (literalPieces value kind))
  | collection items kind =>
    match kind with
    | .tuple =>
      pure "(" ++ (renderSeparated target items ++ ((if items.length = 1 then pure "," else pure "") ++ pure ")"))
    | .list => pure "[" ++ (renderSeparated target items ++ pure "]")
    | .dict => pure "\x7b" ++ (renderSeparated target items ++ pure "\x7d")
    | .set =>
      if items.isEmpty then pure "set()" else pure "\x7b" ++ (renderSeparated target items ++ pure "\x7d")
    | .fstring => pure ("f\"" ++ unquoted (fullList items) ++ "\"")
    | .boolean => pure (truthText !items.isEmpty)
    | _ => pure (fullList items)
  | call callee arguments => do
    let calleeText ← if callee.isSuper then pure "super().__init__" else render target callee
    return calleeText ++ "(" ++ String.intercalate ", " (← renderList target arguments) ++ ")"
  | argument name value => do
    let text ← render target value
    match name with
    | some name => return name ++ "=" ++ text
    | none => return text
  | logical operator left right | binary operator left right => do
    let leftText ← render target left
    let rightText ← render target right
    return "(" ++ leftText ++ " " ++ operator ++ " " ++ rightText ++ ")"
  | unary operator operand => do return "(" ++ operator ++ " " ++ (← render target operand) ++ ")"
  | imports head => pure head.line
  | entry key value => do
    let keyText ← render target key
    let valueText ← render target value
    return keyText ++ ": " ++ valueText
  | subscript object index => do
    let objectText ← render target object
    let indexText ← render target index
    return objectText ++ "[" ++ indexText ++ "]"
  | comprehension element place source condition kind key => do
    let elementText ← render target element
    let keyText ← if kind = .dict && key.isPresent then do pure ((← render target key) ++ ": ") else pure ""
    let placeText ← render target place
    let sourceText ← render target source
    let conditionText ← if condition.isPresent then do pure (" if " ++ (← render target condition)) else pure ""
    let text := keyText ++ elementText ++ " for " ++ placeText ++ " in " ++ sourceText ++ conditionText
    match kind with
    | .generator => return "(" ++ text ++ ")"
    | .list => return "[" ++ text ++ "]"
    | .set | .dict => return "\x7b" ++ text ++ "\x7d"
    | .other _ => return ""
  | finalDecl place value type => do
    let placeText ← render target place
    let valueText ← render target value
    line (placeText ++ (if isGiven type then ": " ++ type.getD "" else "") ++ " = " ++ valueText ++ "\n") ++
      (line finalNotice ++
      match place with
      | identifier name => setFinal name valueText
      | _ => pure "")

def renderAll (target : Target) : List Node → Render String
  | [] => pure ""
  | n :: ns => render target n ++ renderAll target ns

def renderFollowing (target : Target) (separator : String) : List Node → Render String
  | [] => pure ""
  | n :: ns => pure separator ++ (render target n ++ renderFollowing target separator ns)

def renderSeparated (target : Target) : List Node → Render String
  | [] => pure ""
  | n :: ns => render target n ++ renderFollowing target ", " ns

/-- The text behind the first block of a conditional.  A single conditional there continues the chain. -/
def renderElse (target : Target) : List Node → Render String
  | [] => pure ""
  | [conditional c t e] => do
    let condition ← render target c
    Render.block ("elif " ++ condition ++ ":\n") (renderAll target t) ++ renderElse target e
  | n :: ns => Render.block "else:\n" (render target n ++ renderAll target ns)

def renderCases (target : Target) (subject keyword : String) : List Node → Render String
  | [] => pure ""
  | case value body :: cases =>
    line keyword ++ ((do return subject ++ " == " ++ (← render target value) ++ ":") ++
      (pure "\n" ++ (deeper (renderAll target body) ++ renderCases target subject "elif " cases)))
  | _ :: cases => renderCases target subject keyword cases

/-- The members of an enum, those without arguments with a value of their own. -/
def renderMembers (target : Target) : List Node → Render String
  | [] => pure ""
  | enumMember name args _ _ :: members =>
    (match args with
      | [] => line (name ++ " = auto()\n")
      | _ => do line (name ++ " = (" ++ String.intercalate ", " (← renderList target args) ++ ")\n")) ++
    renderMembers target members
  | _ :: members => renderMembers target members

def renderList (target : Target) : List Node → Render (List String)
  | [] => return []
  | n :: ns => do
    let text ← render target n
    return text :: (← renderList target ns)

def renderDecorator (target : Target) : Node → Render String
  | annotationUse head args keys values => do
    if head.isCall then
      let plain ← renderList target args
      let named ← renderList target values
      return "@" ++ head.name ++ "(" ++
        String.intercalate ", " (plain ++ List.zipWith (fun k v => k ++ "=" ++ v) keys named) ++ ")"
    else return "@" ++ head.name
  | _ => return ""

/-- The decorators that annotations stand for.  Those used up by the compiler stand for none. -/
def renderDecorators (target : Target) : List Node → Render (List String)
  | [] => return []
  | n :: ns => do
    if n.isRuntime then
      let text ← renderDecorator target n
      return text :: (← renderDecorators target ns)
    else renderDecorators target ns

end

end Node

end BraceLang
