import BraceLang.Analysis.Report
import BraceLang.Proofs.DeclaredScopes

/-!
# What the checks read of a symbol table

The checks of types and bounds read a symbol table through a few questions, and of a class only its `ClassOutline`.
-/

namespace BraceLang

open List NameMap

variable {α : Type} {t t' : SymbolTable} {es : List (String × Node)}

namespace NameMap

variable {β : Type}

theorem get?_map (f : α → β) (m : NameMap α) (name : String) :
    get? (m.map fun e => (e.1, f e.2)) name = (get? m name).map f := by
  induction m with
  | nil => rfl
  | cons e m ih =>
    rw [get?, get?] at ih ⊢
    rw [map_cons, lookup_cons, lookup_cons, ih]
    cases name == e.1 <;> rfl

theorem has_map (f : α → β) (m : NameMap α) (name : String) : has (m.map fun e => (e.1, f e.2)) name = has m name := by
  rw [has, has, get?_map, Option.isSome_map]

theorem put_map (f : α → β) (name : String) (value : α) (m : NameMap α) :
    put name (f value) (m.map fun e => (e.1, f e.2)) = (put name value m).map fun e => (e.1, f e.2) := by
  induction m with
  | nil => rfl
  | cons e m ih =>
    rw [map_cons, put, put, ih]
    split <;> rfl

end NameMap

open Node

namespace Node

def routine? : Node → Option (String × List Node × Option String)
  | function h params .. => some (h.name, params, h.returnType)
  | _ => none

theorem methodsOf_congr (h : body.map routine? = body'.map routine?) (cls : String) :
    methodsOf cls body = methodsOf cls body' := by
  have heq (body : List Node) : methodsOf cls body = (body.map routine?).foldl (fun methods e =>
      e.elim methods fun e => change e.1 [] (· ++ [⟨e.1, e.2.1, e.2.2, cls⟩]) methods) [] := by
    rw [foldl_map, methodsOf]
    refine congrArg (fun f => foldl f _ body) (funext fun methods => funext fun n => ?_)
    cases n <;> rfl
  rw [heq, heq, h]

theorem constructorParameters?_congr (h : (n.body?.getD []).map routine? = (n'.body?.getD []).map routine?)
    (cls : String) : constructorParameters? cls n = constructorParameters? cls n' := by
  have heq (n : Node) : constructorParameters? cls n = ((n.body?.getD []).map routine?).findSome? fun e =>
      e.bind fun e => if e.1 = cls || e.1 = "__init__" then some (e.2.1.filter fun p => p.name ≠ "self") else none := by
    rw [findSome?_map, constructorParameters?]
    refine congrArg (findSome? · _) (funext fun n => ?_)
    cases n <;> rfl
  rw [heq, heq, h]

end Node

structure ClassOutline where
  links : List String
  typeParameters : List String
  methods : NameMap (List FunctionSymbol)
  bounds : NameMap String
  /-- The parameters of the constructor, by the name under which the class is called. -/
  constructor? : String → Option (List Node)

def ClassSymbol.outline (c : ClassSymbol) : ClassOutline where
  links := SymbolTable.classLinks c.declaration
  typeParameters := c.typeParameters
  methods := c.methods
  bounds := boundsOf c.declaration.classTypeParameters
  constructor? cls := constructorParameters? cls c.declaration

namespace SymbolTable

/-- The tables have the same classes, interfaces and functions, as far as the checks read them. -/
structure SameOutline (t t' : SymbolTable) : Prop where
  classes : (t.classes.map fun c => (c.1, c.2.outline)) = t'.classes.map fun c => (c.1, c.2.outline)
  interfaces : t.interfaces = t'.interfaces
  functions : ∀ scope, (get? t.scopes scope).map ScopeSymbol.functions =
    (get? t'.scopes scope).map ScopeSymbol.functions

/-- The tables also give names the same types in a scope, and as attributes of classes. -/
structure Agree (scope : String) (t t' : SymbolTable) : Prop extends SameOutline t t' where
  types : ∀ name, (t.lookup scope name).bind (·.type) = (t'.lookup scope name).bind (·.type)
  attributes : ∀ cls name, t.isClass cls →
    (t.variableIn? cls name).bind (·.type) = (t'.variableIn? cls name).bind (·.type)

/-- The names that a call passes to a class with bounds, whose types the check of bounds looks up. -/
def boundArguments (t : SymbolTable) : Node → List String
  | call (identifier cls) arguments =>
    if (get? t.classes cls).any (!·.outline.bounds.isEmpty) then
      arguments.filterMap fun
        | identifier name => some name
        | _ => none
    else []
  | _ => []

namespace SameOutline

theorem get?_classes (h : SameOutline t t') (name : String) :
    (get? t.classes name).map ClassSymbol.outline = (get? t'.classes name).map ClassSymbol.outline := by
  rw [← get?_map, ← get?_map, h.classes]

theorem class_eq (h : SameOutline t t') (f : ClassOutline → α) (name : String) :
    (get? t.classes name).map (fun c => f c.outline) = (get? t'.classes name).map fun c => f c.outline := by
  have := congrArg (Option.map f) (h.get?_classes name)
  rwa [Option.map_map, Option.map_map] at this

theorem isClass_eq (h : SameOutline t t') (name : String) : t.isClass name = t'.isClass name := by
  have := congrArg Option.isSome (h.get?_classes name)
  rwa [Option.isSome_map, Option.isSome_map] at this

theorem methods_eq (h : SameOutline t t') (cls name : String) : t.methods cls name = t'.methods cls name := by
  have := congrArg (fun o => (o.bind (get? · name)).getD []) (h.class_eq ClassOutline.methods cls)
  rwa [Option.bind_map, Option.bind_map] at this

theorem globalFunctions_eq (h : SameOutline t t') (name : String) :
    t.globalFunctions name = t'.globalFunctions name := by
  have := congrArg (fun o => (o.bind (get? · name)).getD []) (h.functions "global")
  rwa [Option.bind_map, Option.bind_map] at this

theorem links_eq (h : SameOutline t t') (name : String) : t.links name = t'.links name := by
  have hlinks (t : SymbolTable) : (get? t.classes name).elim [] (fun c => classLinks c.declaration) =
      ((get? t.classes name).map fun c => c.outline.links).getD [] := by
    cases get? t.classes name <;> rfl
  rw [links, links, hlinks, hlinks, h.class_eq, h.interfaces]

theorem linked_eq (h : SameOutline t t') : t.linked = t'.linked := by
  have hlinked (t : SymbolTable) : t.classes.flatMap (fun c => classLinks c.2.declaration) =
      (t.classes.map fun c => (c.1, c.2.outline)).flatMap fun c => c.2.links := by
    rw [flatMap_map]
    rfl
  rw [linked, linked, hlinked, hlinked, h.classes, h.interfaces]

theorem isAssignable_eq (h : SameOutline t t') (actual expected : String) :
    t.isAssignable actual expected = t'.isAssignable actual expected := by
  have hreach (n : Nat) (seen : List String) (name : String) :
      t.reachWithin n seen name = t'.reachWithin n seen name := by
    induction n generalizing seen name with
    | zero => rfl
    | succ n ih => simp only [reachWithin, h.links_eq, ih]
  simp only [isAssignable, ancestors, hreach, h.linked_eq]

theorem isSelfTyped_eq (h : SameOutline t t') (value : Node) : t.isSelfTyped value = t'.isSelfTyped value := by
  cases value with
  | call callee =>
    cases callee with
    | identifier name => exact h.isClass_eq name
    | _ => rfl
  | _ => rfl

theorem bindArguments_eq (h : SameOutline t t') (typeParams : List String) (known : Bindings)
    (args params : List (Option String)) :
    t.bindArguments typeParams known args params = t'.bindArguments typeParams known args params := by
  have hall (known : Bindings) (pairs : List (Option String × Option String)) :
      t.bindAll typeParams known pairs = t'.bindAll typeParams known pairs := by
    induction pairs generalizing known with
    | nil => rfl
    | cons pair rest ih =>
      obtain ⟨_ | a, _ | p⟩ := pair
      · rfl
      · rfl
      · rfl
      · simp only [bindAll, ih, h.isAssignable_eq]
  simp only [bindArguments, hall]

theorem argumentType_eq (h : SameOutline t t') (known known' : NameMap String)
    (harg : ∀ name, arg = .identifier name → get? known name = get? known' name) :
    t.argumentType known arg = t'.argumentType known' arg := by
  cases arg with
  | identifier name => exact harg name rfl
  | call callee =>
    cases callee with
    | identifier => rw [argumentType, argumentType, h.isClass_eq]
    | _ => rfl
  | _ => rfl

theorem boundFindingsAt_eq (h : SameOutline t t')
    (hnames : ∀ name ∈ t.boundArguments n, get? known name = get? known' name) :
    t.boundFindingsAt known n = t'.boundFindingsAt known' n := by
  unfold boundArguments at hnames
  split at hnames
  · next cls arguments =>
    have hat (t : SymbolTable) (known : NameMap String) : t.boundFindingsAt known (.call (.identifier cls) arguments) =
        (((get? t.classes cls).map fun c => (c.outline.constructor? cls, c.outline.bounds)).map fun o =>
          (zipWith (t.argumentFindings known o.2 cls) arguments (o.1.getD [])).flatten).getD [] := by
      rw [boundFindingsAt]
      cases get? t.classes cls <;> rfl
    have hargument {c : ClassSymbol} (hc : get? t.classes cls = some c) {arg : Node} (harg : arg ∈ arguments)
        (param : Node) : t.argumentFindings known c.outline.bounds cls arg param =
          t'.argumentFindings known' c.outline.bounds cls arg param := by
      by_cases hbounds : c.outline.bounds = []
      · simp [argumentFindings, hbounds, get?]
      · have hany : (get? t.classes cls).any (!·.outline.bounds.isEmpty) := by simp [hc, hbounds]
        rw [if_pos hany] at hnames
        have htype := h.argumentType_eq known known' fun name (hname : arg = _) =>
          hnames name (mem_filterMap.2 ⟨arg, harg, hname ▸ rfl⟩)
        simp only [argumentFindings, htype, h.isAssignable_eq]
    have hzip {c : ClassSymbol} (hc : get? t.classes cls = some c) {args : List Node}
        (hargs : ∀ a ∈ args, a ∈ arguments)
        (params : List Node) : zipWith (t.argumentFindings known c.outline.bounds cls) args params =
          zipWith (t'.argumentFindings known' c.outline.bounds cls) args params := by
      induction args generalizing params with
      | nil => rfl
      | cons a args ih =>
        cases params with
        | nil => rfl
        | cons p =>
          rw [zipWith_cons_cons, zipWith_cons_cons, hargument hc (hargs a (.head args)) p,
            ih fun b hb => hargs b (.tail a hb)]
    rw [hat, hat, ← h.class_eq fun o => (o.constructor? cls, o.bounds)]
    cases hc : get? t.classes cls with
    | none => rfl
    | some => simp only [Option.map_some, hzip hc fun a ha => ha]
  · next hcall =>
    unfold boundFindingsAt
    split <;> first | rfl | exact absurd rfl (hcall _ _)

end SameOutline

/-! ### The check of an expression -/

namespace Agree

variable {scope : String}

theorem typeOf_eq (h : Agree scope t t') (n : Node) : t.typeOf scope n = t'.typeOf scope n := by
  fun_induction SymbolTable.typeOf t scope n with
  | case1 name => exact h.types name
  | case2 | case3 => rfl
  | case4 name arguments hname => rw [SymbolTable.typeOf, ← h.isClass_eq, if_pos hname]
  | case5 name arguments hname => rw [SymbolTable.typeOf, ← h.isClass_eq, if_neg hname, h.globalFunctions_eq]
  | case6 object name arguments ih => simp only [SymbolTable.typeOf, ih, h.methods_eq]
  | case7 object name ih =>
    rw [SymbolTable.typeOf, ← ih]
    refine congrArg ((t.typeOf scope object).bind ·) (funext fun cls => ?_)
    rw [← h.isClass_eq]
    by_cases hcls : t.isClass cls
    · rw [h.attributes cls name hcls]
    · simp [hcls]
  | case8 => simp_all [SymbolTable.typeOf]

theorem callee?_eq (h : Agree scope t t') (n : Node) : t.callee? scope n = t'.callee? scope n := by
  cases n with
  | identifier => rw [callee?, callee?, h.globalFunctions_eq]
  | member => simp only [callee?, h.typeOf_eq, h.isClass_eq, h.methods_eq]
  | _ => rfl

theorem typeParameters_eq (h : Agree scope t t') (owner : Option String) :
    (owner.bind (get? t.classes)).map ClassSymbol.typeParameters =
      (owner.bind (get? t'.classes)).map ClassSymbol.typeParameters := by
  cases owner with
  | none => rfl
  | some cls => exact h.class_eq ClassOutline.typeParameters cls

theorem checkCall_eq (h : Agree scope t t') (callee : Node) (arguments : List Node) (s : TypeCheck) :
    t.checkCall scope callee arguments s = t'.checkCall scope callee arguments s := by
  simp only [checkCall, h.callee?_eq, h.bindArguments_eq, h.typeParameters_eq, funext h.typeOf_eq]

theorem checkExpression_eq (h : Agree scope t t') (n : Node) (s : TypeCheck) :
    t.checkExpression scope n s = t'.checkExpression scope n s := by
  simp only [checkExpression, checkAssigned, h.checkCall_eq, h.types, h.isSelfTyped_eq]

end Agree

end SymbolTable

section

variable {ds ds' : List Declaration} {os os' : List (String × String)} {known known' : List String}

theorem Records.lookup_bind (h : Records t ds os known) (scope name : String) :
    (t.lookup scope name).bind (·.type) = (visible? ds os scope name).join := by
  rw [← h.lookup_type]
  cases t.lookup scope name <;> rfl

theorem Records.variableIn?_bind (h : Records t ds os known) (scope name : String) :
    (t.variableIn? scope name).bind (·.type) = (Declaration.last? ds scope name).join := by
  rw [← h.types]
  cases t.variableIn? scope name <;> rfl

/-- Tables of the same outline agree in a scope if the declarations that are visible there, and those in the scopes of
classes, are the same. -/
theorem SymbolTable.SameOutline.agree (h : SameOutline t t') (ht : Records t ds os known)
    (ht' : Records t' ds' os' known') (hvisible : ∀ name, visible? ds os scope name = visible? ds' os' scope name)
    (hclasses : ∀ cls name, t.isClass cls → Declaration.last? ds cls name = Declaration.last? ds' cls name) :
    Agree scope t t' where
  toSameOutline := h
  types name := by rw [ht.lookup_bind, ht'.lookup_bind, hvisible]
  attributes cls name hcls := by rw [ht.variableIn?_bind, ht'.variableIn?_bind, hclasses cls name hcls]

end

/-! ### The expressions that the check of types goes through -/

namespace Node

mutual

/-- The expressions that the check of types goes through at and under a node, each with its scope. -/
def checkedIn (scope : String) : Node → List (String × Node)
  | classDecl h body _ _ => allCheckedIn h.name body
  | function h _ (some body) _ _ => allCheckedIn (SymbolTable.innerScope scope h.name) body
  | expression value _ => [(scope, value)]
  | module body | forLoop _ body | whileLoop _ body | case _ body | dataClass _ _ body _ _ _ _
  | enumDecl _ _ body _ _ => allCheckedIn scope body
  | _ => []

def allCheckedIn (scope : String) : List Node → List (String × Node)
  | [] => []
  | n :: ns => checkedIn scope n ++ allCheckedIn scope ns

end

theorem allCheckedIn_eq (scope : String) (ns : List Node) : allCheckedIn scope ns = ns.flatMap (checkedIn scope) := by
  induction ns with
  | nil => rfl
  | cons n ns ih => rw [allCheckedIn, flatMap_cons, ih]

end Node

namespace SymbolTable

def checkEach (t : SymbolTable) (es : List (String × Node)) (s : TypeCheck) : TypeCheck :=
  es.foldl (fun s e => t.checkExpression e.1 e.2 s) s

theorem checkEach_append (t : SymbolTable) (es fs : List (String × Node)) (s : TypeCheck) :
    t.checkEach (es ++ fs) s = t.checkEach fs (t.checkEach es s) := foldl_append

theorem checkNodes_eq_of (h : ∀ n ∈ ns, ∀ scope s, t.checkNode scope n s = t.checkEach (n.checkedIn scope) s)
    (scope : String) (s : TypeCheck) : t.checkNodes scope ns s = t.checkEach (allCheckedIn scope ns) s := by
  induction ns generalizing s with
  | nil => rfl
  | cons n ns ih =>
    obtain ⟨hn, hns⟩ := forall_mem_cons.1 h
    rw [checkNodes, allCheckedIn, checkEach_append, hn, ih hns]

theorem checkNode_eq (t : SymbolTable) (n : Node) :
    ∀ scope s, t.checkNode scope n s = t.checkEach (n.checkedIn scope) s := by
  induction n using body_induction with
  | h n ih =>
    intro scope s
    cases n with
    | function _ _ body =>
      cases body with
      | none => rfl
      | some => exact checkNodes_eq_of (ih _ rfl) _ s
    | module | classDecl | forLoop | whileLoop | case | dataClass | enumDecl => exact checkNodes_eq_of (ih _ rfl) _ s
    | _ => rfl

theorem checkNodes_eq (t : SymbolTable) (scope : String) (ns : List Node) (s : TypeCheck) :
    t.checkNodes scope ns s = t.checkEach (allCheckedIn scope ns) s :=
  checkNodes_eq_of (fun n _ => checkNode_eq t n) scope s

theorem checkEach_congr (h : ∀ e ∈ es, Agree e.1 t t') (s : TypeCheck) : t.checkEach es s = t'.checkEach es s := by
  induction es generalizing s with
  | nil => rfl
  | cons e es ih =>
    rw [checkEach, checkEach, foldl_cons, foldl_cons, (h e (.head es)).checkExpression_eq]
    exact ih (fun f hf => h f (.tail e hf)) _

end SymbolTable

/-! ### The calls of which the bounds are checked -/

namespace Node

def ownCall : Node → List Node
  | call callee arguments => [call callee arguments]
  | _ => []

theorem calls_eq (n : Node) : n.calls = n.ownCall ++ n.fields.flatMap fun f => f.2.plainMembers.flatMap calls := by
  have hfields : (n.fields.attach.flatMap fun f => f.1.2.plainMembers.attach.flatMap fun m => calls m.1) =
      n.fields.flatMap fun f => f.2.plainMembers.flatMap calls := by
    rw [flatMap_subtype (g := fun f : String × Field => f.2.plainMembers.flatMap calls) (by simp),
      unattach_attach]
  rw [calls.eq_def, hfields]
  cases n <;> rfl

theorem calls_module (body : List Node) : (module body).calls = body.flatMap calls := by
  rw [calls_eq]
  exact append_nil _

end Node

end BraceLang
