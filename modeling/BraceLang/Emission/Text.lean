import BraceLang.Emission.Emitter
import BraceLang.Emission.Survey
import BraceLang.Syntax.Part

/-!
# Writing nodes

Every node has an action that writes its text.
-/

namespace BraceLang

open Emit

/-! ### Parts that hold no other node -/

def Node.parameterText (target : Target) (typeParams : List String) : Node → String
  | .parameter name type default _ =>
    name ++
      (if isGiven type then ": " ++ target.typeName typeParams (type.getD "") else "") ++
      (if default.isTrue then " = " ++ default.display else "")
  | _ => ""

/-- The parameters of a head.  A method that does not name its receiver first gets one. -/
def parameterList (target : Target) (typeParams : List String) (receiver : Bool) (params : List Node) : String :=
  let listed := String.intercalate ", " (params.map (Node.parameterText target typeParams))
  if receiver && !(params.head?.any fun p => p.name = "self") then
    if listed.isEmpty then "self" else "self, " ++ listed
  else listed

def resultText (type : Option String) : String := if isGiven type then " -> " ++ type.getD "" else ""

def isSpecialMethod (name : String) : Bool := "__".toList.isPrefixOf name.toList && "__".toList.isSuffixOf name.toList

def functionHeadText (target : Target) (typeParams : List String) (name params : String) (result : Option String) :
    String :=
  match target with
  | .python => "def " ++ name ++ "(" ++ params ++ ")" ++ resultText result ++ ":\n"
  | .cython _ =>
    let keyword := if isSpecialMethod name then "def" else "cpdef"
    let type := (result.filter fun r => !r.isEmpty && r != "None").map (Target.compiledType typeParams)
    match type with
    | some t =>
      if t = "void" || isSpecialMethod name then keyword ++ " " ++ name ++ "(" ++ params ++ "):\n"
      else keyword ++ " " ++ t ++ " " ++ name ++ "(" ++ params ++ "):\n"
    | none => keyword ++ " " ++ name ++ "(" ++ params ++ "):\n"

def basesText (bases : List String) : String :=
  if bases.isEmpty then "" else "(" ++ String.intercalate ", " bases ++ ")"

def genericBase (params : List Node) : List String :=
  if params.isEmpty then [] else ["Generic[" ++ String.intercalate ", " (params.map Node.name) ++ "]"]

def classBaseNames (target : Target) (head : ClassHead) (params : List Node) : List String :=
  let bases := (if target.isCompiled then [] else genericBase params) ++ head.bases ++ head.interfaces
  if head.isAbstract && bases.isEmpty && !target.isCompiled then ["ABC"] else bases

def ImportHead.line (h : ImportHead) : String :=
  let renamed (name : String) (newName : Option String) : String :=
    if isGiven newName then name ++ " as " ++ newName.getD "" else name
  if h.isFrom then
    "from " ++ h.source ++ " import " ++
      String.intercalate ", " (h.names.zipIdx.map fun (name, i) => renamed name (h.aliases[i]?.join)) ++ "\n"
  else "import " ++ renamed h.source h.aliases.head?.join ++ "\n"

/-- A literal with a plain value.  Under the kind of a collection its characters stand for items without text. -/
def literalPieces (value : Scalar) (kind : LiteralKind) : List String :=
  let places := List.replicate (value.display.length - 1) ", "
  if value = .absent then ["None"] else
  match kind with
  | .tuple => ["("] ++ places ++ (if value.display.length = 1 then [","] else []) ++ [")"]
  | .list => ["["] ++ places ++ ["]"]
  | .dict => ["\x7b"] ++ places ++ ["\x7d"]
  | .set => if value.isTrue then ["\x7b"] ++ places ++ ["\x7d"] else ["set()"]
  | .fstring => ["f\"" ++ unquoted value.display ++ "\""]
  | .string => [value.full]
  | .boolean => [truthText value.isTrue]
  | _ => [value.display]

def rawLines (code : String) : List String := (code.splitOn "\n").map fun l => if trim l = "" then "" else l

def finalNotice : String :=
  "\"\"\"Variable annotated as final at compile time. Modifying it might not even change code if inlining is " ++
    "applied, or even break.\"\"\"\n"

def writeBlock (head : String) (body : Emit Unit) : Emit Unit := do
  line head
  deeper body

/-- Write the head of a method whose body is left to the classes that have it. -/
def writeSignature (target : Target) (s : MethodShape) : Emit Unit := do
  line ("def " ++ s.name ++ "(" ++ parameterList target (← get).typeParams true s.params ++ ")" ++
    resultText s.returnType ++ ":")
  newLine
  deeper do
    line "\"\"\"Interface method.\"\"\"\n"
    line "...\n"

def writeSignatures (target : Target) (methods : List MethodShape) : Emit Unit :=
  methods.zipIdx.forM fun (s, i) => do
    unless i = 0 do newLine
    writeSignature target s

def writeLine (text : String) : Emit Unit := do
  line text
  newLine

/-! ### Declarations around their blocks -/

def writeAttributes (target : Target) (attributes : List String) : Emit Unit := do
  if target.isCompiled && !attributes.isEmpty then
    attributes.forM fun a => line ("cdef public object " ++ a ++ "\n")
    newLine

/-- The decorators that the writer puts above a function for its modifiers. -/
def FunctionHead.modifierDecorators (head : FunctionHead) (target : Target) : List String :=
  if target.isCompiled then [] else
    (if head.isStatic then ["@staticmethod"] else []) ++ (if head.isAbstract then ["@abstractmethod"] else []) ++
    (if head.isFinal then ["@final"] else [])

/-- The name of a function as it is written.  A method with the name of its class is the constructor. -/
def FunctionHead.writtenName (head : FunctionHead) (classStack : List String) : String :=
  if !head.name.isEmpty && classStack.head? = some head.name then "__init__" else head.name

section

variable (target : Target) (name : String) (fields params : List Node) (bases : List String)

namespace Emit

def classFrame (head : ClassHead) (block : Emit Unit) : Emit Unit :=
  withinClass head.name (some (params.map Node.name)) <| withFinals do
    if head.isFinal && !target.isCompiled then write "@final\n"
    write ((if target.isCompiled then "cdef class " else "class ") ++ head.name ++
      basesText (classBaseNames target head params) ++ ":\n")
    deeper block

def dataClassFrame (block : Emit Unit) : Emit Unit :=
  withinClass name (some (params.map Node.name)) do
    write "@dataclass\n"
    write ("class " ++ name ++ basesText (genericBase params ++ bases) ++ ":\n")
    deeper do
      line ("\"\"\"" ++ name ++ " data class.\"\"\"\n")
      fields.forM fun f => line (f.parameterText .python [] ++ "\n")
      block

def enumFrame (members block : Emit Unit) : Emit Unit :=
  withinClass name none do
    write ("class " ++ name ++ "(Enum):\n")
    deeper do
      line ("\"\"\"" ++ name ++ " enum.\"\"\"\n")
      members
      block

def functionFrame (head : FunctionHead) (decorators : Emit (List String)) (block : Emitter → Emit Unit) :
    Emit Unit := do
  let e ← get
  withFinals do
    let decorators ← decorators
    (decorators ++ head.modifierDecorators target ++ head.decorators).forM fun d => line (d ++ "\n")
    let list := parameterList target e.typeParams (e.inClass && !head.isStatic) params
    line (functionHeadText target e.typeParams (head.writtenName e.classStack) list head.returnType)
    deeper (block e)

end Emit

end

/-! ### Nodes -/

namespace Node

def isSuper : Node → Bool
  | identifier name => name = "super"
  | _ => false

def isRuntime : Node → Bool
  | annotationUse head .. => head.retention = .runtime
  | _ => false

mutual

def emit (target : Target) : Node → Emit Unit
  | missing | module _ | annotationUse .. | parameter .. | typeParameter .. | block _ | case .. | lambda .. | slice ..
  | enumMember .. => pure ()
  | rawCode code _ => (rawLines code).forM fun l => if l = "" then write "\n" else line (l ++ "\n")
  | interface name methods bases _ _ =>
    match target with
    | .cython _ => pure ()
    | .python => do
      write ("class " ++ name ++ "(" ++ String.intercalate ", " (bases ++ ["Protocol"]) ++ "):\n")
      deeper do
        line ("\"\"\"Interface for " ++ name ++ ".\"\"\"\n")
        match methods with
        | none | some [] => line "pass\n"
        | some (m :: ms) =>
          newLine
          writeSignatures target ((m :: ms).filterMap methodShape?)
      newLine
  | signature name params result _ _ => writeSignature target ⟨name, params, result⟩
  | classDecl head body params _ =>
    classFrame target params head do
      match body with
      | [] => line "pass\n"
      | n :: ns =>
        line ("\"\"\"" ++ head.name ++ " class.\"\"\"\n\n")
        writeAttributes target (target.arrange (classAttributes (n :: ns)))
        emit target n
        emitFollowing target "\n" ns
  | dataClass name fields body params bases _ _ =>
    dataClassFrame name fields params bases do
      match body with
      | [] => if fields.isEmpty then line "pass\n"
      | n :: ns =>
        unless fields.isEmpty do newLine
        emit target n
        emitFollowing target "\n" ns
  | enumDecl name members body _ _ =>
    enumFrame name (emitMembers target members) do
      match body with
      | [] => if members.isEmpty then line "pass\n"
      | n :: ns =>
        unless members.isEmpty do newLine
        emit target n
        emitFollowing target "\n" ns
  | function head params body _ annotations =>
    functionFrame target params head (decoratorTexts target annotations) fun e => do
      if head.isAbstract then
        line "\"\"\"Abstract method.\"\"\"\n"
        line "pass\n"
      else
        match body with
        | none | some [] => line "pass\n"
        | some (n :: ns) =>
          line ("\"\"\"" ++ head.writtenName e.classStack ++ " " ++ (if e.inClass then "method" else "function") ++
            ".\"\"\"\n")
          emit target n
          emitAll target ns
  | expression value _ => do
    let classes := (← get).classNames
    let plain := do writeLine (← cutText (emit target value))
    match value with
    | missing => pure ()
    | assignment (identifier name) assigned _ _ _ =>
      let type := (revealedType classes assigned).getD ""
      if type.isEmpty then plain
      else writeLine (name ++ ": " ++ type ++ " = " ++ (← tailText (emit target assigned)))
    | _ => plain
  | pass _ => line "pass\n"
  | returns value _ => do
    if value.isPresent then line ("return " ++ (← cutText (emit target value)) ++ "\n")
    else line "return\n"
  | raises exception _ => do
    if exception.isPresent then line ("raise " ++ (← cutText (emit target exception)) ++ "\n")
    else line "raise\n"
  | conditional c t e => do
    writeBlock ("if " ++ (← freshText (emit target c)) ++ ":\n") (emitAll target t)
    emitElse target e
  | forLoop clause body => do
    line "for "
    let whole := do write ((← freshText (emit target clause)) ++ ":\n")
    match clause with
    | binary "in" item source =>
      let itemText ← freshText (emit target item)
      let sourceText ← freshText (emit target source)
      write (itemText ++ " in " ++ sourceText ++ ":\n")
    | _ => whole
    deeper (emitAll target body)
  | whileLoop c body => do
    line "while "
    write ((← cutText (emit target c)) ++ ":\n")
    deeper (emitAll target body)
  | switch subject cases default => do
    let text ← freshText (emit target subject)
    emitCases target text "if " cases
    match default with
    | [] => pure ()
    | n :: ns => writeBlock "else:\n" do
      emit target n
      emitAll target ns
  | assignment place value operator type _ => do
    let placeText ← tailText (emit target place)
    match type with
    | some type =>
      let annotated := placeText ++ ": " ++ target.typeName (← get).typeParams type
      if value.isPresent then write (annotated ++ " = " ++ (← tailText (emit target value)))
      else write annotated
    | none =>
      let sign := if isGiven operator then operator.getD "" else "="
      write (placeText ++ " " ++ sign ++ " " ++ (← tailText (emit target value)))
  | identifier name => do write (((← get).finalValue? name).getD name)
  | member object name => do write ((← cutText (emit target object)) ++ "." ++ name)
  | literal value kind => (literalPieces value kind).forM write
  | collection items kind =>
    match kind with
    | .tuple => do
      write "("
      emitSeparated target items
      if items.length = 1 then write ","
      write ")"
    | .list => do
      write "["
      emitSeparated target items
      write "]"
    | .dict => do
      write "\x7b"
      emitSeparated target items
      write "\x7d"
    | .set =>
      if items.isEmpty then write "set()"
      else do
        write "\x7b"
        emitSeparated target items
        write "\x7d"
    | .fstring => write ("f\"" ++ unquoted (fullList items) ++ "\"")
    | .boolean => write (truthText !items.isEmpty)
    | _ => write (fullList items)
  | call callee arguments => do
    let calleeText ← if callee.isSuper then pure "super().__init__" else cutText (emit target callee)
    write (calleeText ++ "(" ++ String.intercalate ", " (← cutTexts target arguments) ++ ")")
  | argument name value => do
    let text ← cutText (emit target value)
    match name with
    | some name => write (name ++ "=" ++ text)
    | none => write text
  | logical operator left right | binary operator left right => do
    let leftText ← freshText (emit target left)
    let rightText ← freshText (emit target right)
    write ("(" ++ leftText ++ " " ++ operator ++ " " ++ rightText ++ ")")
  | unary operator operand => do write ("(" ++ operator ++ " " ++ (← freshText (emit target operand)) ++ ")")
  | imports head => write head.line
  | entry key value => do
    let keyText ← cutText (emit target key)
    let valueText ← cutText (emit target value)
    write (keyText ++ ": " ++ valueText)
  | subscript object index => do
    let objectText ← cutText (emit target object)
    let indexText ← cutText (emit target index)
    write (objectText ++ "[" ++ indexText ++ "]")
  | comprehension element place source condition kind key => do
    let elementText ← freshText (emit target element)
    let keyText ← if kind = .dict && key.isPresent then do pure ((← freshText (emit target key)) ++ ": ") else pure ""
    let placeText ← freshText (emit target place)
    let sourceText ← freshText (emit target source)
    let conditionText ← if condition.isPresent then do pure (" if " ++ (← freshText (emit target condition)))
      else pure ""
    let text := keyText ++ elementText ++ " for " ++ placeText ++ " in " ++ sourceText ++ conditionText
    match kind with
    | .generator => write ("(" ++ text ++ ")")
    | .list => write ("[" ++ text ++ "]")
    | .set | .dict => write ("\x7b" ++ text ++ "\x7d")
    | .other _ => pure ()
  | finalDecl place value type => do
    let placeText ← freshText (emit target place)
    let valueText ← freshText (emit target value)
    line (placeText ++ (if isGiven type then ": " ++ type.getD "" else "") ++ " = " ++ valueText ++ "\n")
    line finalNotice
    match place with
    | identifier name => setFinal name valueText
    | _ => pure ()

def emitAll (target : Target) : List Node → Emit Unit
  | [] => pure ()
  | n :: ns => do
    emit target n
    emitAll target ns

def emitFollowing (target : Target) (separator : String) : List Node → Emit Unit
  | [] => pure ()
  | n :: ns => do
    write separator
    emit target n
    emitFollowing target separator ns

def emitSeparated (target : Target) : List Node → Emit Unit
  | [] => pure ()
  | n :: ns => do
    emit target n
    emitFollowing target ", " ns

/-- Write what follows the first block of a conditional.  A single conditional there continues the chain. -/
def emitElse (target : Target) : List Node → Emit Unit
  | [] => pure ()
  | [conditional c t e] => do
    writeBlock ("elif " ++ (← freshText (emit target c)) ++ ":\n") (emitAll target t)
    emitElse target e
  | n :: ns => writeBlock "else:\n" do
    emit target n
    emitAll target ns

def emitCases (target : Target) (subject keyword : String) : List Node → Emit Unit
  | [] => pure ()
  | case value body :: cases => do
    line keyword
    let text ← freshText (emit target value)
    write (subject ++ " == " ++ text ++ ":")
    newLine
    deeper (emitAll target body)
    emitCases target subject "elif " cases
  | _ :: cases => emitCases target subject keyword cases

/-- Write the members of an enum, those without arguments with a value of their own. -/
def emitMembers (target : Target) : List Node → Emit Unit
  | [] => pure ()
  | enumMember name args _ _ :: members => do
    match args with
    | [] => line (name ++ " = auto()\n")
    | _ => line (name ++ " = (" ++ String.intercalate ", " (← freshTexts target args) ++ ")\n")
    emitMembers target members
  | _ :: members => emitMembers target members

def cutTexts (target : Target) : List Node → Emit (List String)
  | [] => return []
  | n :: ns => do
    let text ← cutText (emit target n)
    return text :: (← cutTexts target ns)

def freshTexts (target : Target) : List Node → Emit (List String)
  | [] => return []
  | n :: ns => do
    let text ← freshText (emit target n)
    return text :: (← freshTexts target ns)

/-- The texts of nodes, each taken back from the output if it wrote anything. -/
def argumentTexts (target : Target) : List Node → Emit (List String)
  | [] => return []
  | n :: ns => do
    let text ← cutTextIfAny (emit target n)
    return text :: (← argumentTexts target ns)

def decoratorText (target : Target) : Node → Emit String
  | annotationUse head args keys values => do
    if head.isCall then
      let plain ← argumentTexts target args
      let named ← argumentTexts target values
      return "@" ++ head.name ++ "(" ++
        String.intercalate ", " (plain ++ List.zipWith (fun k v => k ++ "=" ++ v) keys named) ++ ")"
    else return "@" ++ head.name
  | _ => return ""

/-- The decorators that annotations stand for.  Those used up by the compiler stand for none. -/
def decoratorTexts (target : Target) : List Node → Emit (List String)
  | [] => return []
  | n :: ns => do
    if n.isRuntime then
      let text ← decoratorText target n
      return text :: (← decoratorTexts target ns)
    else decoratorTexts target ns

end

end Node

end BraceLang
