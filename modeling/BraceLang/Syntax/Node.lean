/-!
# The syntax tree

One type of node for declarations, statements and expressions. A node may stand wherever a node can stand: the parser
keeps to the grammar, while tools may build any tree.
-/

namespace BraceLang

/-- A place in the source: a line and a column.  Nodes made by tools stand at zero. -/
structure Position where
  line : Int := 0
  column : Int := 0
  deriving DecidableEq, Repr, Inhabited

inductive Scalar where
  | absent
  | truth (b : Bool)
  | integer (n : Int)
  | text (s : String)
  deriving DecidableEq, Repr, Inhabited

inductive LiteralKind where
  | string | number | boolean | none | fstring | frstring | regex | list | tuple | set | dict
  | other (name : String)
  deriving DecidableEq, Repr

inductive ComprehensionKind where
  | generator | list | set | dict
  | other (name : String)
  deriving DecidableEq, Repr

/-- How long an annotation lives: it is kept in the output, or it is used up by the compiler. -/
inductive Retention where
  | runtime | compileTime
  | other (name : String)
  deriving DecidableEq, Repr

/-- The head of an annotation.  An annotation with empty parentheses differs from one without. -/
structure AnnotationHead where
  name : String
  retention : Retention := .runtime
  isCall : Bool := false
  position : Position := {}
  deriving DecidableEq, Repr

structure ClassHead where
  name : String
  bases : List String := []
  interfaces : List String := []
  isAbstract : Bool := false
  isFinal : Bool := false
  flags : List String := []
  position : Position := {}
  deriving DecidableEq, Repr

structure FunctionHead where
  name : String
  returnType : Option String := Option.none
  isStatic : Bool := false
  isAbstract : Bool := false
  isFinal : Bool := false
  decorators : List String := []
  flags : List String := []
  position : Position := {}
  deriving DecidableEq, Repr

/-- An import of a module, or of names from a module.  Aliases stand beside the names they rename. -/
structure ImportHead where
  source : String
  names : List String := []
  aliases : List (Option String) := []
  isFrom : Bool := false
  semicolon : Bool := false
  deriving DecidableEq, Repr

inductive Node where
  | missing
  | module (body : List Node)
  /-- The values of keyword arguments stand beside their names. -/
  | annotationUse (head : AnnotationHead) (args : List Node) (keys : List String) (values : List Node)
  | rawCode (code : String) (position : Position)
  | interface (name : String) (methods : Option (List Node)) (bases : List String) (annotations : List Node)
      (position : Position)
  | signature (name : String) (params : List Node) (returnType : Option String) (annotations : List Node)
      (position : Position)
  | parameter (name : String) (type : Option String) (default : Scalar) (annotations : List Node)
  | typeParameter (name : String) (bound : Option String) (annotations : List Node) (position : Position)
  | classDecl (head : ClassHead) (body typeParameters annotations : List Node)
  | function (head : FunctionHead) (params : List Node) (body : Option (List Node))
      (typeParameters annotations : List Node)
  | block (statements : List Node)
  | expression (value : Node) (semicolon : Bool)
  | pass (semicolon : Bool)
  | returns (value : Node) (semicolon : Bool)
  | conditional (condition : Node) (thenBody elseBody : List Node)
  | forLoop (target : Node) (body : List Node)
  | whileLoop (condition : Node) (body : List Node)
  | switch (subject : Node) (cases default : List Node)
  | case (value : Node) (body : List Node)
  | assignment (target value : Node) (operator type : Option String) (position : Position)
  | identifier (name : String)
  | member (object : Node) (name : String)
  | literal (value : Scalar) (kind : LiteralKind)
  /-- A literal made of other nodes. -/
  | collection (items : List Node) (kind : LiteralKind)
  | call (callee : Node) (arguments : List Node)
  | argument (name : Option String) (value : Node)
  | logical (operator : String) (left right : Node)
  | unary (operator : String) (operand : Node)
  | binary (operator : String) (left right : Node)
  | lambda (params : List Node) (body : Node) (returnType : Option String)
  | raises (exception : Node) (semicolon : Bool)
  | imports (head : ImportHead)
  | entry (key value : Node)
  | subscript (object index : Node)
  | slice (start stop step : Node)
  | comprehension (element target source condition : Node) (kind : ComprehensionKind) (key : Node)
  | finalDecl (target value : Node) (type : Option String)
  | dataClass (name : String) (fields body typeParameters : List Node) (bases : List String)
      (annotations : List Node) (position : Position)
  | enumMember (name : String) (args annotations : List Node) (position : Position)
  | enumDecl (name : String) (members body annotations : List Node) (position : Position)
  deriving Repr, Inhabited

end BraceLang
