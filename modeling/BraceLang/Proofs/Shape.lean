import BraceLang.Grammar.Program

/-!
# The shape of parsed trees

A tree may hold any node in any place, but the grammar fills each place with nodes of a few kinds.
-/

namespace BraceLang

/-- The roles that the nodes of a tree play. -/
inductive Role where
  | expression
  /-- An expression, or nothing. -/
  | operand
  | argument
  | index
  | entry
  /-- A variable with its type and perhaps a value. -/
  | declared
  | statement
  | case
  | parameter
  | typeParameter
  | annotationUse
  | signature
  | enumMember
  /-- A statement of a class: a method or a statement of a block. -/
  | member
  | top
  | program

inductive Dotted (W : TokenKind → String → Prop) : String → Prop
  | name {s : String} (h : W .identifier s) : Dotted W s
  | dot {s t : String} (hs : Dotted W s) (ht : W .identifier t) : Dotted W (s ++ "." ++ t)

def IsTypeText (W : TokenKind → String → Prop) (s : String) : Prop :=
  ∃ parts : List String, s = trim (String.join parts) ∧
    ∀ p ∈ parts, p ∈ ["[", "]", ", ", ".", "None"] ∨ W .identifier p

def IsOperatorText (W : TokenKind → String → Prop) (s : String) : Prop :=
  (∃ k, W k s) ∨ s ∈ ["in", "not in", "is", "is not"]

/-- The node may play the role in a parsed tree, if `W k s` holds for every text `s` of a token of the kind `k`. -/
inductive Fits (W : TokenKind → String → Prop) : Role → Node → Prop
  | identifier (h : W .identifier s) : Fits W .expression (.identifier s)
  | truth (b : Bool) : Fits W .expression (.literal (.truth b) .boolean)
  | nothing : Fits W .expression (.literal .absent .none)
  | literal (hk : (k, kind) ∈ Parse.literalKinds) (hv : v = .absent ∨ ∃ s, v = .text s ∧ W k s) :
      Fits W .expression (.literal v kind)
  | sequence (hk : kind = .list ∨ kind = .tuple ∨ kind = .set) (hitems : ∀ n ∈ items, Fits W .expression n) :
      Fits W .expression (.collection items kind)
  | dictionary (hentries : ∀ n ∈ entries, Fits W .entry n) : Fits W .expression (.collection entries .dict)
  | entry (hkey : Fits W .expression key) (hvalue : Fits W .expression value) : Fits W .entry (.entry key value)
  | member (hobject : Fits W .expression object) (hname : W .identifier name) : Fits W .expression (.member object name)
  | call (hcallee : Fits W .expression callee) (harguments : ∀ n ∈ arguments, Fits W .argument n) :
      Fits W .expression (.call callee arguments)
  | plainArgument (h : Fits W .expression n) : Fits W .argument n
  | namedArgument (hname : W .identifier name) (hvalue : Fits W .expression value) :
      Fits W .argument (.argument (some name) value)
  | subscript (hobject : Fits W .expression object) (hindex : Fits W .index index) :
      Fits W .expression (.subscript object index)
  | plainIndex (h : Fits W .expression n) : Fits W .index n
  | slice (hstart : Fits W .operand start) (hstop : Fits W .operand stop) (hstep : Fits W .operand step) :
      Fits W .index (.slice start stop step)
  | missing : Fits W .operand .missing
  | present (h : Fits W .expression n) : Fits W .operand n
  | unary (hop : ∃ k, W k op) (h : Fits W .expression operand) : Fits W .expression (.unary op operand)
  | binary (hop : IsOperatorText W op) (hleft : Fits W .operand left) (hright : Fits W .expression right) :
      Fits W .expression (.binary op left right)
  | logical (hop : IsOperatorText W op) (hleft : Fits W .operand left) (hright : Fits W .expression right) :
      Fits W .expression (.logical op left right)
  | comprehension (hkind : kind ∈ [.generator, .list, .set, .dict]) (helement : Fits W .expression element)
      (htarget : Fits W .expression target) (hsource : Fits W .expression source)
      (hcondition : Fits W .operand condition) (hkey : Fits W .operand key) :
      Fits W .expression (.comprehension element target source condition kind key)
  | assignment (htarget : Fits W .expression target) (hvalue : Fits W .expression value)
      (hop : ∀ s ∈ op, IsOperatorText W s ∨ s ∈ Parse.compoundMarks.map Prod.snd) :
      Fits W .expression (.assignment target value op none p)
  | pass (semicolon : Bool) : Fits W .statement (.pass semicolon)
  | expressionStatement (h : Fits W .expression value) : Fits W .statement (.expression value semicolon)
  | declared (htarget : Fits W .expression target) (hvalue : Fits W .operand value) (htype : IsTypeText W type) :
      Fits W .declared (.assignment target value op (some type) p)
  | declaration (h : Fits W .declared value) : Fits W .statement (.expression value semicolon)
  | finalDecl (htarget : Fits W .expression target) (hvalue : Fits W .expression value)
      (htype : ∀ s ∈ type, IsTypeText W s) : Fits W .statement (.finalDecl target value type)
  | returns (h : Fits W .operand value) : Fits W .statement (.returns value semicolon)
  | raises (h : Fits W .operand value) : Fits W .statement (.raises value semicolon)
  | imports {head : ImportHead} (hsource : Dotted W head.source) (hnames : ∀ s ∈ head.names, W .identifier s)
      (haliases : ∀ s, some s ∈ head.aliases → W .identifier s) : Fits W .statement (.imports head)
  | conditional (hcondition : Fits W .expression condition) (hthen : ∀ n ∈ thenBody, Fits W .statement n)
      (helse : ∀ n ∈ elseBody, Fits W .statement n) : Fits W .statement (.conditional condition thenBody elseBody)
  | forLoop (hclause : Fits W .expression clause) (hbody : ∀ n ∈ body, Fits W .statement n) :
      Fits W .statement (.forLoop clause body)
  | whileLoop (hcondition : Fits W .expression condition) (hbody : ∀ n ∈ body, Fits W .statement n) :
      Fits W .statement (.whileLoop condition body)
  | switch {subject : Node} {cases default : List Node} (hsubject : Fits W .expression subject)
      (hcases : ∀ n ∈ cases, Fits W .case n) (hdefault : ∀ n ∈ default, Fits W .statement n) :
      Fits W .statement (.switch subject cases default)
  | case (hvalue : Fits W .expression value) (hbody : ∀ n ∈ body, Fits W .statement n) : Fits W .case (.case value body)
  | parameter {name : String} {type : Option String} {default : Scalar} (hname : W .identifier name)
      (htype : ∀ s ∈ type, ∃ k, W k s) (hdefault : default = .absent ∨ ∃ s, default = .text s ∧ ∃ k, W k s) :
      Fits W .parameter (.parameter name type default [])
  | typeParameter (hname : W .identifier name) : Fits W .typeParameter (.typeParameter name bound [] p)
  | annotationUse {head : AnnotationHead} {args values : List Node} {keys : List String} (hname : Dotted W head.name)
      (hargs : ∀ n ∈ args, Fits W .argument n) (hkeys : ∀ s ∈ keys, W .identifier s)
      (hvalues : ∀ n ∈ values, Fits W .expression n) : Fits W .annotationUse (.annotationUse head args keys values)
  | signature (hname : W .identifier name) (hparams : ∀ n ∈ params, Fits W .parameter n)
      (hresult : ∀ s ∈ result, ∃ k, W k s) : Fits W .signature (.signature name params result [] p)
  | function {head : FunctionHead} {params body annotations : List Node} (hname : W .identifier head.name)
      (hresult : ∀ s ∈ head.returnType, ∃ k, W k s) (hdecorators : head.decorators = [])
      (hparams : ∀ n ∈ params, Fits W .parameter n) (hbody : ∀ n ∈ body, Fits W .statement n)
      (hannotations : ∀ n ∈ annotations, Fits W .annotationUse n) :
      Fits W .member (.function head params (some body) [] annotations)
  | plainMember (h : Fits W .statement n) : Fits W .member n
  | plainTop (h : Fits W .member n) : Fits W .top n
  | classDecl {head : ClassHead} {body params annotations : List Node} (hname : W .identifier head.name)
      (hbases : ∀ s ∈ head.bases, W .identifier s) (hinterfaces : ∀ s ∈ head.interfaces, W .identifier s)
      (hbody : ∀ n ∈ body, Fits W .member n) (hparams : ∀ n ∈ params, Fits W .typeParameter n)
      (hannotations : ∀ n ∈ annotations, Fits W .annotationUse n) :
      Fits W .top (.classDecl head body params annotations)
  | dataClass (hname : W .identifier name) (hfields : ∀ n ∈ fields, Fits W .parameter n)
      (hbody : ∀ n ∈ body, Fits W .member n) (hparams : ∀ n ∈ params, Fits W .typeParameter n)
      (hannotations : ∀ n ∈ annotations, Fits W .annotationUse n) :
      Fits W .top (.dataClass name fields body params [] annotations p)
  | enumMember (hname : W .identifier name) (hargs : ∀ n ∈ args, Fits W .expression n) :
      Fits W .enumMember (.enumMember name args [] p)
  | enumDecl (hname : W .identifier name) (hmembers : ∀ n ∈ members, Fits W .enumMember n)
      (hbody : ∀ n ∈ body, Fits W .member n) (hannotations : ∀ n ∈ annotations, Fits W .annotationUse n) :
      Fits W .top (.enumDecl name members body annotations p)
  | interface (hname : W .identifier name) (hmethods : ∀ n ∈ methods, Fits W .signature n)
      (hbases : ∀ s ∈ bases, W .identifier s) (hannotations : ∀ n ∈ annotations, Fits W .annotationUse n) :
      Fits W .top (.interface name (some methods) bases annotations p)
  | module (hbody : ∀ n ∈ body, Fits W .top n) : Fits W .program (.module body)

theorem Fits.isPresent (h : Fits W .expression n) : n.isPresent := by
  cases h <;> rfl

end BraceLang
