import BraceLang.Emission.Program

/-!
# Inlining

The writer puts the text of a final's value wherever it writes the final's name.
-/

namespace BraceLang

open List

variable {P : Mention → Prop} {n value : Node} {ns : List Node} {name : String}

/-- The finals of one scope, each with the expression that is written for it, the newest first. -/
abbrev ValueScope := List (String × Node)

/-- A scope with the function or class that it belongs to.  The scope of the program belongs to none. -/
structure OwnedScope where
  owner : Option Node := none
  values : ValueScope := []

/-- The expression that is written for a name: the value of the final in force, if there is one. -/
def inForce? (scopes : List OwnedScope) (name : String) : Option Node := scopes.findSome? (·.values.lookup name)

/-- A name that is written, and the scopes around it, the innermost first. -/
structure Mention where
  name : String
  scopes : List OwnedScope

def Mention.value? (x : Mention) : Option Node := inForce? x.scopes x.name

namespace Node

def isCall : Node → Bool
  | call .. => true
  | _ => false

def callCount (n : Node) : Nat := n.walk.countP isCall

def finalName? : Node → Option String
  | finalDecl (identifier name) _ _ => some name
  | _ => none

mutual

/-- An expression with values in place of names.  A value stands in an argument without a name, which is written as the
value is. -/
def filled (value? : String → Option Node) : Node → Node
  | identifier name =>
    match value? name with
    | some value => argument none value
    | none => identifier name
  | member object name => member (filled value? object) name
  | collection items kind => collection (filledAll value? items) kind
  | call callee arguments =>
    call (if callee.isSuper then callee else filled value? callee) (filledAll value? arguments)
  | argument name value => argument name (filled value? value)
  | logical operator left right => logical operator (filled value? left) (filled value? right)
  | binary operator left right => binary operator (filled value? left) (filled value? right)
  | unary operator operand => unary operator (filled value? operand)
  | entry key value => entry (filled value? key) (filled value? value)
  | subscript object index => subscript (filled value? object) (filled value? index)
  | comprehension element place source condition kind key =>
    comprehension (filled value? element) (filled value? place) (filled value? source) (filled value? condition) kind
      (filled value? key)
  | assignment place value operator type p =>
    assignment (filled value? place) (filled value? value) operator type p
  | n => n

def filledAll (value? : String → Option Node) : List Node → List Node
  | [] => []
  | n :: ns => filled value? n :: filledAll value? ns

end

mutual

def names : Node → List String
  | identifier name => [name]
  | member object _ => names object
  | collection items _ => allNames items
  | call callee arguments => (if callee.isSuper then [] else names callee) ++ allNames arguments
  | argument _ value => names value
  | logical _ left right | binary _ left right => names left ++ names right
  | unary _ operand => names operand
  | entry key value => names key ++ names value
  | subscript object index => names object ++ names index
  | comprehension element place source condition _ key =>
    names element ++ names place ++ names source ++ names condition ++ names key
  | assignment place value _ _ _ => names place ++ names value
  | _ => []

def allNames : List Node → List String
  | [] => []
  | n :: ns => names n ++ allNames ns

end

end Node

/-! ### Programs -/

structure Inlining where
  /-- The finals of the scope, up to here. -/
  values : ValueScope := []
  /-- The names written up to here. -/
  mentions : List Mention := []

/-- Where a node stands: the classes of the program, the owner of the scope, and the scopes around it. -/
structure Site where
  classes : List String
  owner : Option Node := none
  outer : List OwnedScope := []

/-- All scopes around a node, where the innermost has the given finals. -/
def Site.scopes (site : Site) (values : ValueScope) : List OwnedScope := ⟨site.owner, values⟩ :: site.outer

def Site.within (site : Site) (values : ValueScope) (owner : Node) : Site :=
  ⟨site.classes, some owner, site.scopes values⟩

abbrev Inline := StateM Inlining

namespace Inline

/-- Put the values in force into an expression, and note its names. -/
def fill (site : Site) (n : Node) : Inline Node := do
  let s ← get
  set { s with mentions := s.mentions ++ n.names.map fun name => Mention.mk name (site.scopes s.values) }
  return n.filled (inForce? (site.scopes s.values))

def fillAll (site : Site) : List Node → Inline (List Node)
  | [] => return []
  | n :: ns => do
    let n ← fill site n
    return n :: (← fillAll site ns)

def declare (name : String) (value : Node) : Inline Unit :=
  modify fun s => if name.isEmpty then s else { s with values := (name, value) :: s.values }

def inScope {α : Type} (m : Inline α) : Inline α := do
  let outer ← get
  set { outer with values := [] }
  let a ← m
  modify fun s => { s with values := outer.values }
  return a

end Inline

namespace Node

open Inline

/-- The type that an assignment to a name is written with, if its value reveals one. -/
def shownType (classes : List String) : Node → String
  | assignment (identifier _) value .. => (revealedType classes value).getD ""
  | _ => ""

/-- An expression that is a statement.  The name in front of a type that is shown is not replaced. -/
def inlinedExpression (site : Site) (n : Node) : Inline Node :=
  if (n.shownType site.classes).isEmpty then fill site n
  else match n with
    | assignment place value operator _ p =>
      return assignment place (← fill site value) operator (some (n.shownType site.classes)) p
    | _ => fill site n

mutual

/-- A node with the values in force in place of the names of finals. -/
def inlined (site : Site) : Node → Inline Node
  | module body => return module (← inlinedAll site body)
  | classDecl head body params annotations => do
    let within := site.within (← get).values (classDecl head body params annotations)
    return classDecl head (← inScope (inlinedAll within body)) params annotations
  | dataClass name fields body params bases annotations p =>
    return dataClass name fields (← inlinedAll site body) params bases annotations p
  | enumDecl name members body annotations p => do
    let members ← inlinedAll site members
    return enumDecl name members (← inlinedAll site body) annotations p
  | enumMember name args annotations p => return enumMember name (← fillAll site args) annotations p
  | function head params body typeParams annotations => do
    let within := site.within (← get).values (function head params body typeParams annotations)
    inScope do
      let annotations ← inlinedAll within annotations
      match body with
      | none => return function head params none typeParams annotations
      | some body =>
        -- the body of an abstract method is not written
        if head.isAbstract then return function head params (some body) typeParams annotations
        else return function head params (some (← inlinedAll within body)) typeParams annotations
  | annotationUse head args keys values =>
    if head.retention = .runtime && head.isCall then do
      let args ← fillAll site args
      return annotationUse head args keys (← fillAll site values)
    else return annotationUse head args keys values
  | expression value semicolon => return expression (← inlinedExpression site value) semicolon
  | returns value semicolon => return returns (← fill site value) semicolon
  | raises exception semicolon => return raises (← fill site exception) semicolon
  | conditional c t e => do
    let c ← fill site c
    let t ← inlinedAll site t
    return conditional c t (← inlinedAll site e)
  | forLoop clause body => do
    let clause ← fill site clause
    return forLoop clause (← inlinedAll site body)
  | whileLoop c body => do
    let c ← fill site c
    return whileLoop c (← inlinedAll site body)
  | switch subject cases default => do
    let subject ← fill site subject
    let cases ← inlinedAll site cases
    return switch subject cases (← inlinedAll site default)
  | case value body => do
    let value ← fill site value
    return case value (← inlinedAll site body)
  | finalDecl place value type => do
    let written ← fill site place
    let value ← fill site value
    match place with
    | identifier name => declare name value
    | _ => pure ()
    -- in an argument the place gives no value to a name
    return finalDecl (argument none written) value type
  | n => return n

def inlinedAll (site : Site) : List Node → Inline (List Node)
  | [] => return []
  | n :: ns => do
    let n ← inlined site n
    return n :: (← inlinedAll site ns)

end

theorem fillAll_eq (site : Site) (ns : List Node) (s : Inlining) :
    fillAll site ns s = (filledAll (inForce? (site.scopes s.values)) ns, { s with
      mentions := s.mentions ++ (allNames ns).map fun name => Mention.mk name (site.scopes s.values) }) := by
  induction ns generalizing s with
  | nil => exact congrArg (([], Inlining.mk s.values ·)) (append_nil _).symm
  | cons n ns ih =>
    show ((fill site n s).1 :: (fillAll site ns (fill site n s).2).1, (fillAll site ns (fill site n s).2).2) = _
    rw [ih, allNames, map_append, ← List.append_assoc]
    rfl

theorem inlinedExpression_of_isEmpty (h : (n.shownType site.classes).isEmpty) :
    inlinedExpression site n = fill site n := if_pos h

theorem exists_of_shownType (h : ¬(n.shownType classes).isEmpty) :
    ∃ name value operator type p, n = assignment (identifier name) value operator type p := by
  cases n with
  | assignment place value operator type p =>
    cases place with
    | identifier name => exact ⟨name, value, operator, type, p, rfl⟩
    | _ => exact absurd rfl h
  | _ => exact absurd rfl h

theorem inlinedExpression_assignment (h : ¬((revealedType site.classes value).getD "").isEmpty) :
    inlinedExpression site (assignment (identifier name) value operator type p) = (do
      return assignment (identifier name) (← fill site value) operator
        (some ((revealedType site.classes value).getD "")) p) := if_neg h

section

variable {head : FunctionHead} {params body typeParams annotations : List Node}

theorem inlined_abstract (site : Site) (h : head.isAbstract) :
    (function head params (some body) typeParams annotations).inlined site = (do
      let within := site.within (← get).values (function head params (some body) typeParams annotations)
      inScope do return function head params (some body) typeParams (← inlinedAll within annotations)) := by
  simp only [inlined, if_pos h]

theorem inlined_concrete (site : Site) (h : ¬head.isAbstract) :
    (function head params (some body) typeParams annotations).inlined site = (do
      let within := site.within (← get).values (function head params (some body) typeParams annotations)
      inScope do
        let annotations ← inlinedAll within annotations
        return function head params (some (← inlinedAll within body)) typeParams annotations) := by
  simp only [inlined, if_neg h]

end

def site (m : Node) : Site := { classes := m.statements.filterMap declaredClass? }

/-- A program with the values of its finals in place of their names. -/
def inlining (m : Node) : Node := (m.inlined m.site {}).1

/-- The names that a program writes, with the scopes around them. -/
def mentions (m : Node) : List Mention := (m.inlined m.site {}).2.mentions

/-! ### Finals and names along the way -/

/-- Finals with `V` become finals with `V'`, and the names that are written have `P`. -/
def Takes {α : Type} (P : Mention → Prop) (V V' : ValueScope → Prop) (a : Inline α) : Prop :=
  ∀ s, V s.values → V' (a s).2.values ∧ ∀ x ∈ (a s).2.mentions, x ∈ s.mentions ∨ P x

section

variable {α β : Type} {V V₁ V₂ : ValueScope → Prop} {a : Inline α} {f : α → Inline β} {site : Site}

theorem takes_pure (b : α) : Takes P V V (pure b : Inline α) := fun _ hs => ⟨hs, fun _ hx => .inl hx⟩

theorem Takes.bind (ha : Takes P V V₁ a) (hf : ∀ b, Takes P V₁ V₂ (f b)) : Takes P V V₂ (a >>= f) := by
  intro s hs
  obtain ⟨hvalues, hmentions⟩ := ha s hs
  obtain ⟨hvalues', hmentions'⟩ := hf (a s).1 (a s).2 hvalues
  refine ⟨hvalues', fun x hx => ?_⟩
  rcases hmentions' x hx with hx | hx
  · exact hmentions x hx
  · exact .inr hx

theorem takes_get {f : Inlining → Inline β} (hf : ∀ s, V s.values → Takes P V V₁ (f s)) : Takes P V V₁ (get >>= f) :=
  fun s hs => hf s hs s hs

theorem Takes.weaken (ha : Takes P V V₁ a) (h : ∀ values, V₁ values → V₂ values) : Takes P V V₂ a :=
  fun s hs => (ha s hs).imp_left (h _)

theorem Takes.strengthen (ha : Takes P V₁ V₂ a) (h : ∀ values, V values → V₁ values) : Takes P V V₂ a :=
  fun s hs => ha s (h _ hs)

theorem takes_inlinedAll (h : ∀ n ∈ ns, Takes P V V (n.inlined site)) : Takes P V V (inlinedAll site ns) := by
  induction ns with
  | nil => exact takes_pure []
  | cons n ns ih =>
    obtain ⟨hn, hns⟩ := forall_mem_cons.1 h
    exact hn.bind fun _ => (ih hns).bind fun _ => takes_pure _

theorem Takes.inScope (ha : Takes P (· = []) V₁ a) : Takes P V V (inScope a) :=
  fun s hs => ⟨hs, (ha { s with values := [] } rfl).2⟩

theorem takes_declare (h : ∀ values, V values → V₁ values)
    (hvalue : ∀ values, V values → V₁ ((name, value) :: values)) : Takes P V V₁ (declare name value) := by
  intro s hs
  show V₁ (if name.isEmpty then s else { s with values := (name, value) :: s.values }).values ∧
    ∀ x ∈ (if name.isEmpty then s else { s with values := (name, value) :: s.values }).mentions, _
  split
  · exact ⟨h _ hs, fun _ hx => .inl hx⟩
  · exact ⟨hvalue _ hs, fun _ hx => .inl hx⟩

section

variable (hP : ∀ values, V values → ∀ name, P ⟨name, site.scopes values⟩)
include hP

theorem takes_fill (n : Node) : Takes P V V (fill site n) := by
  intro s hs
  refine ⟨hs, fun x hx => (mem_append.1 hx).imp_right fun hx => ?_⟩
  obtain ⟨name, _, rfl⟩ := mem_map.1 hx
  exact hP s.values hs name

theorem takes_fillAll (ns : List Node) : Takes P V V (fillAll site ns) := by
  induction ns with
  | nil => exact takes_pure []
  | cons n ns ih => exact (takes_fill hP n).bind fun _ => ih.bind fun _ => takes_pure _

theorem takes_inlinedExpression (n : Node) : Takes P V V (inlinedExpression site n) := by
  by_cases h : (n.shownType site.classes).isEmpty
  · rw [inlinedExpression_of_isEmpty h]
    exact takes_fill hP n
  · obtain ⟨name, value, operator, type, p, rfl⟩ := exists_of_shownType h
    rw [inlinedExpression_assignment h]
    exact (takes_fill hP value).bind fun _ => takes_pure _

theorem takes_annotationUse (head : AnnotationHead) (args values : List Node) (keys : List String) :
    Takes P V V ((annotationUse head args keys values).inlined site) := by
  unfold inlined
  split
  · exact (takes_fillAll hP args).bind fun _ => (takes_fillAll hP values).bind fun _ => takes_pure _
  · exact takes_pure _

end

end

/-! ### What stays the same -/

def lacksValue : Node → Bool
  | enumMember _ args .. => args.isEmpty
  | _ => false

/-- The first statements make the same lines necessary around them as the second. -/
structure Resemble (ns' ns : List Node) : Prop where
  needs : Needs.of ns' = Needs.of ns
  classes : ns'.filterMap declaredClass? = ns.filterMap declaredClass?
  finals : ns'.any (fun n => n.isFunction && n.isFinal) = ns.any fun n => n.isFunction && n.isFinal
  values : ns'.any lacksValue = ns.any lacksValue

namespace Resemble

variable {n' : Node} {ns' : List Node}

theorem refl (ns : List Node) : Resemble ns ns := ⟨rfl, rfl, rfl, rfl⟩

theorem dispatch (h : Resemble ns' ns) : anyUsesDispatch ns' = anyUsesDispatch ns := congrArg Needs.dispatch h.needs

theorem cons (h : Resemble [n'] [n]) (h' : Resemble ns' ns) : Resemble (n' :: ns') (n :: ns) := by
  obtain ⟨hneeds, hclasses, hfinals, hvalues⟩ := h
  obtain ⟨hneeds', hclasses', hfinals', hvalues'⟩ := h'
  refine ⟨?_, ?_, ?_, ?_⟩
  · simp only [Needs.of, Needs.mk.injEq, any_cons, any_nil, Bool.or_false, anyUsesDispatch,
      flatMap_cons, flatMap_nil, append_nil] at hneeds hneeds' ⊢
    simp only [hneeds, hneeds', and_self]
  · show ([n'] ++ ns').filterMap declaredClass? = ([n] ++ ns).filterMap declaredClass?
    rw [filterMap_append, filterMap_append, hclasses, hclasses']
  · simp only [any_cons, any_nil, Bool.or_false] at hfinals ⊢
    rw [hfinals, hfinals']
  · simp only [any_cons, any_nil, Bool.or_false] at hvalues ⊢
    rw [hvalues, hvalues']

end Resemble

/-- A statement that at most needs the choice of functions by their argument types. -/
def needsOfBody (dispatch : Bool) : Needs := ⟨false, false, false, dispatch || false, false, false, false, []⟩

mutual

theorem resemble_inlined (site : Site) : ∀ (n : Node) (s : Inlining), Resemble [(n.inlined site s).1] [n]
  | module body, s => ⟨congrArg needsOfBody (resemble_inlinedAll site body s).dispatch, rfl, rfl, rfl⟩
  | forLoop clause body, s | whileLoop clause body, s | case clause body, s =>
    ⟨congrArg needsOfBody (resemble_inlinedAll site body (fill site clause s).2).dispatch, rfl, rfl, rfl⟩
  | classDecl head body params annotations, s => by
    let within := site.within s.values (classDecl head body params annotations)
    have hbody := resemble_inlinedAll within body { s with values := [] }
    refine ⟨?_, rfl, rfl, rfl⟩
    show (⟨_, _, head.isFinal || (inlinedAll within body _).1.any _ || false,
      anyUsesDispatch (inlinedAll within body _).1 || false, _, _, _, _⟩ : Needs) = _
    rw [hbody.finals, hbody.dispatch]
    rfl
  | dataClass name fields body params bases annotations p, s => by
    have hbody := resemble_inlinedAll site body s
    refine ⟨?_, rfl, rfl, rfl⟩
    show (⟨_, _, _, anyUsesDispatch (inlinedAll site body s).1 || false, _, _, _, _⟩ : Needs) = _
    rw [hbody.dispatch]
    rfl
  | enumDecl name members body annotations p, s => by
    let listed := inlinedAll site members s
    have hmembers := resemble_inlinedAll site members s
    have hbody := resemble_inlinedAll site body listed.2
    refine ⟨?_, rfl, rfl, rfl⟩
    show (⟨_, _, _, anyUsesDispatch (inlinedAll site body listed.2).1 || false, _, _, listed.1.any lacksValue || false,
      _⟩ : Needs) = _
    rw [hbody.dispatch, hmembers.values]
    rfl
  | enumMember name args annotations p, s => by
    refine ⟨rfl, rfl, rfl, ?_⟩
    show ((fillAll site args s).1.isEmpty || false) = _
    rw [fillAll_eq]
    cases args <;> rfl
  | function _ _ none _ _, _ | missing, _ | rawCode .., _ | interface .., _ | signature .., _ | parameter .., _
  | typeParameter .., _ | block _, _ | pass _, _ | identifier _, _ | member .., _ | literal .., _ | collection .., _
  | call .., _ | argument .., _ | logical .., _ | unary .., _ | binary .., _ | lambda .., _ | imports _, _
  | entry .., _ | subscript .., _ | slice .., _ | comprehension .., _ | assignment .., _ | expression .., _
  | returns .., _ | raises .., _ | conditional .., _ | switch .., _ => ⟨rfl, rfl, rfl, rfl⟩
  | function head params (some body) typeParams annotations, s => by
    let within := site.within s.values (function head params (some body) typeParams annotations)
    let annotated := inlinedAll within annotations { s with values := [] }
    have hbody := resemble_inlinedAll within body annotated.2
    by_cases habstract : head.isAbstract
    · rw [inlined_abstract site habstract]
      exact ⟨rfl, rfl, rfl, rfl⟩
    · rw [inlined_concrete site habstract]
      refine ⟨?_, rfl, rfl, rfl⟩
      show (⟨_, _, _, (head.decorators.any isDispatch || anyUsesDispatch (inlinedAll within body annotated.2).1) ||
        false, _, _, _, _⟩ : Needs) = _
      rw [hbody.dispatch]
      rfl
  | annotationUse head args keys values, s => by
    have hinlined : (annotationUse head args keys values).inlined site s =
        (if (decide (head.retention = .runtime) && head.isCall) then _ else _ : Inline Node) s := rfl
    rw [hinlined]
    split <;> exact ⟨rfl, rfl, rfl, rfl⟩
  | finalDecl place value type, s => by cases place <;> exact ⟨rfl, rfl, rfl, rfl⟩

theorem resemble_inlinedAll (site : Site) : ∀ (ns : List Node) (s : Inlining), Resemble (inlinedAll site ns s).1 ns
  | [], _ => .refl []
  | n :: ns, s => (resemble_inlined site n s).cons (resemble_inlinedAll site ns (n.inlined site s).2)

end

end Node

end BraceLang
