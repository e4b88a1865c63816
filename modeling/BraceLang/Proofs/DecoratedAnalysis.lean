import BraceLang.Proofs.OverloadDecorators
import BraceLang.Proofs.TableOutline

/-!
# The analysis of a decorated program

A symbol table keeps the declarations of classes, and with them the decorators of their methods, but no check looks at
those.
-/

namespace BraceLang

open List Node

def ClassSymbol.decorated (c : ClassSymbol) : ClassSymbol := { c with declaration := c.declaration.decorateClasses }

namespace SymbolTable

def decorated (t : SymbolTable) : SymbolTable :=
  { t with classes := t.classes.map fun c => (c.1, c.2.decorated) }

@[simp] theorem isClass_decorated (t : SymbolTable) (name : String) : t.decorated.isClass name = t.isClass name :=
  NameMap.has_map _ _ _

theorem addClass_decorated (t : SymbolTable) (name : String) (c : ClassSymbol) :
    t.decorated.addClass name c.decorated = (t.addClass name c).decorated := by
  rw [addClass, addClass, decorated, decorated, NameMap.put_map]

end SymbolTable

namespace Node

/-! ### Declaring a decorated program -/

theorem routine?_addDecorator (d : String) (n : Node) : (addDecorator d n).routine? = n.routine? :=
  apply_addDecorator (fun _ _ _ _ _ _ => rfl) d n

theorem routine?_decorateClasses (n : Node) : n.decorateClasses.routine? = n.routine? :=
  apply_decorateClasses (fun n _ => by cases n <;> rfl) n

theorem methodsOf_decorateAll (cls : String) (body : List Node) :
    methodsOf cls (decorateAll body) = methodsOf cls body :=
  methodsOf_congr (map_decorateAll routine?_decorateClasses body) cls

theorem methodsOf_decorateBody (cls : String) (body : List Node) :
    methodsOf cls (decorateBody body) = methodsOf cls body :=
  methodsOf_congr (map_decorateBody routine?_addDecorator body) cls

theorem declareParams_decorated (scope : String) (params : List Node) (t : SymbolTable) :
    declareParams scope params t.decorated = (declareParams scope params t).decorated := by
  induction params generalizing t with
  | nil => rfl
  | cons p params ih =>
    cases p with
    | parameter name type => exact ih (t.addVariable scope name type _)
    | _ => exact ih t

theorem assignedType?_decorated (t : SymbolTable) (n : Node) : assignedType? t.decorated n = assignedType? t n := by
  cases n with
  | call callee =>
    cases callee with
    | identifier => rw [assignedType?, assignedType?, SymbolTable.isClass_decorated]
    | _ => rfl
  | _ => rfl

theorem declareAssigned_decorated (scope : String) (n : Node) (t : SymbolTable) :
    declareAssigned scope n t.decorated = (declareAssigned scope n t).decorated := by
  unfold declareAssigned
  split
  · rfl
  · rw [assignedType?_decorated]
    split
    · split <;> rfl
    · rfl
  · rfl

theorem declareAll_eq (scope : String) (ns : List Node) (t : SymbolTable) :
    declareAll scope ns t = (ns.map (declare scope)).foldl (fun t f => f t) t := by
  induction ns generalizing t with
  | nil => rfl
  | cons n ns ih => rw [declareAll, ih, map_cons, foldl_cons]

theorem declareAll_decorateBody (scope : String) (body : List Node) (t : SymbolTable) :
    declareAll scope (decorateBody body) t = declareAll scope body t := by
  rw [declareAll_eq, declareAll_eq,
    map_decorateBody (apply_addDecorator fun _ _ _ body _ _ => by cases body <;> rfl)]

theorem declareMembers_cons_of_ne (hn : n.isFunction = false) (cls : String) (ns : List Node)
    (t : SymbolTable) : declareMembers cls (n :: ns) t = declareMembers cls ns (declare cls n t) := by
  rw [declareMembers]
  rintro h params body typeParams annotations rfl
  cases hn

theorem declareMembers_eq (cls : String) (ns : List Node) (t : SymbolTable) :
    declareMembers cls ns t = (ns.map fun n => declareMembers cls [n]).foldl (fun t f => f t) t := by
  induction ns generalizing t with
  | nil => rfl
  | cons n ns ih =>
    rw [map_cons, foldl_cons, ← ih]
    cases hn : n.isFunction with
    | false => rw [declareMembers_cons_of_ne hn, declareMembers_cons_of_ne hn, declareMembers]
    | true =>
      cases n with
      | function h params body => cases body <;> rfl
      | _ => cases hn

theorem declareMembers_decorateBody (cls : String) (body : List Node) (t : SymbolTable) :
    declareMembers cls (decorateBody body) t = declareMembers cls body t := by
  rw [declareMembers_eq, declareMembers_eq,
    map_decorateBody (apply_addDecorator fun _ _ _ body _ _ => by cases body <;> rfl)]

theorem decorateClasses_function_none (h : FunctionHead) (params typeParams annotations : List Node) :
    (function h params none typeParams annotations).decorateClasses = function h params none typeParams annotations :=
  rfl

theorem isFunction_decorateClasses (n : Node) : n.decorateClasses.isFunction = n.isFunction :=
  apply_decorateClasses (fun n _ => by cases n <;> rfl) n

mutual

theorem declare_decorateClasses (scope : String) : ∀ (n : Node) (t : SymbolTable),
    declare scope n.decorateClasses t.decorated = (declare scope n t).decorated
  | classDecl h body params annotations, t => by
    rw [decorateClasses, declare, declare, methodsOf_decorateBody, methodsOf_decorateAll, declareMembers_decorateBody,
      ← declareMembers_decorateAll h.name body]
    exact congrArg (fun t => declareMembers h.name _ (SymbolTable.ensureScope t h.name (some scope)))
      (t.addClass_decorated h.name ⟨classDecl h body params annotations, scope, _, _⟩)
  | dataClass name fields body params bases annotations p, t => by
    rw [decorateClasses, declare, declare, methodsOf_decorateAll, ← declareMembers_decorateAll name body,
      ← declareParams_decorated]
    exact congrArg (fun t => declareMembers name _ (declareParams name fields
        (SymbolTable.ensureScope t name (some scope))))
      (t.addClass_decorated name ⟨dataClass name fields body params bases annotations p, scope, [], _⟩)
  | enumDecl name members body annotations p, t => by
    rw [decorateClasses, declare, declare, methodsOf_decorateAll, ← declareMembers_decorateAll name body]
    exact congrArg (fun t => declareMembers name _ (SymbolTable.ensureScope t name (some scope)))
      (t.addClass_decorated name ⟨enumDecl name members body annotations p, scope, [], _⟩)
  | function h params body typeParams annotations, t =>
    match body with
    | none => by
      rw [decorateClasses_function_none, declare, declare, ← declareParams_decorated]
      rfl
    | some body => by
      rw [decorateClasses, declare, declare, ← declareAll_decorateAll h.name body, ← declareParams_decorated]
      rfl
  | expression value semicolon, t => declareAssigned_decorated scope value t
  | finalDecl target value type, t => by cases target <;> rfl
  | module body, t | forLoop _ body, t | whileLoop _ body, t | case _ body, t => declareAll_decorateAll scope body t
  | missing, _ | annotationUse .., _ | rawCode .., _ | interface .., _ | signature .., _ | parameter .., _
  | typeParameter .., _ | block _, _ | pass _, _ | returns .., _ | conditional .., _ | switch .., _ | assignment .., _
  | identifier _, _ | member .., _ | literal .., _ | collection .., _ | call .., _ | argument .., _ | logical .., _
  | unary .., _ | binary .., _ | lambda .., _ | raises .., _ | imports _, _ | entry .., _ | subscript .., _
  | slice .., _ | comprehension .., _ | enumMember .., _ => rfl

theorem declareAll_decorateAll (scope : String) : ∀ (ns : List Node) (t : SymbolTable),
    declareAll scope (decorateAll ns) t.decorated = (declareAll scope ns t).decorated
  | [], _ => rfl
  | n :: ns, t => by
    rw [decorateAll, declareAll, declareAll, declare_decorateClasses scope n, declareAll_decorateAll scope ns]

theorem declareMembers_decorateAll (cls : String) : ∀ (ns : List Node) (t : SymbolTable),
    declareMembers cls (decorateAll ns) t.decorated = (declareMembers cls ns t).decorated
  | [], _ => rfl
  | n :: ns, t => by
    cases hn : n.isFunction with
    | false =>
      rw [decorateAll, declareMembers_cons_of_ne hn,
        declareMembers_cons_of_ne ((isFunction_decorateClasses n).trans hn),
        declare_decorateClasses cls n, declareMembers_decorateAll cls ns]
    | true =>
      match n with
      | function h params none typeParams annotations =>
        rw [decorateAll, declareMembers, decorateClasses_function_none, declareMembers,
          ← declareMembers_decorateAll cls ns, ← declareParams_decorated]
        rfl
      | function h params (some body) typeParams annotations =>
        rw [decorateAll, declareMembers, decorateClasses, declareMembers, ← declareMembers_decorateAll cls ns,
          ← declareAll_decorateAll _ body, ← declareParams_decorated]
        rfl

end

theorem symbols_decorated (n : Node) : n.decorated.symbols = n.symbols.decorated := by
  cases n with
  | module =>
    rw [decorated, symbols, symbols, declareAll_decorateBody, ← declareAll_decorateAll]
    rfl
  | _ => rfl

/-! ### Checks with a decorated table -/

theorem map_body_decorateClasses {α : Type} {g : Node → α} (hadd : ∀ d n, g (addDecorator d n) = g n)
    (hclasses : ∀ n, g n.decorateClasses = g n) (n : Node) :
    (n.decorateClasses.body?.getD []).map g = (n.body?.getD []).map g := by
  cases n with
  | classDecl h body => exact (map_decorateBody hadd _).trans (map_decorateAll hclasses body)
  | module body | forLoop _ body | whileLoop _ body | case _ body | dataClass _ _ body _ _ _ _
  | enumDecl _ _ body => exact map_decorateAll hclasses body
  | function h params body =>
    cases body with
    | none => rfl
    | some body => exact map_decorateAll hclasses body
  | _ => rfl

theorem classTypeParameters_decorateClasses (n : Node) :
    n.decorateClasses.classTypeParameters = n.classTypeParameters :=
  apply_decorateClasses (fun n _ => by cases n <;> rfl) n

theorem constructorParameters?_decorateClasses (cls : String) (n : Node) :
    constructorParameters? cls n.decorateClasses = constructorParameters? cls n :=
  constructorParameters?_congr (map_body_decorateClasses routine?_addDecorator routine?_decorateClasses n) cls

end Node

namespace SymbolTable

variable (t : SymbolTable)

theorem classLinks_decorateClasses (n : Node) : classLinks n.decorateClasses = classLinks n :=
  apply_decorateClasses (fun n _ => by cases n <;> rfl) n

theorem outline_decorated (c : ClassSymbol) : c.decorated.outline = c.outline := by
  simp only [ClassSymbol.outline, ClassSymbol.decorated, classLinks_decorateClasses,
    classTypeParameters_decorateClasses, constructorParameters?_decorateClasses]

theorem sameOutline_decorated : SameOutline t.decorated t := by
  refine ⟨?_, rfl, fun _ => rfl⟩
  rw [decorated, List.map_map]
  exact congrArg (List.map · t.classes) (funext fun c => congrArg (Prod.mk c.1) (outline_decorated c.2))

theorem lookup_decorated (scope name : String) : t.decorated.lookup scope name = t.lookup scope name := by
  have hwithin (n : Nat) (scope : String) : t.decorated.lookupWithin name n scope = t.lookupWithin name n scope := by
    induction n generalizing scope with
    | zero => rfl
    | succ n ih =>
      simp only [lookupWithin, funext ih]
      rfl
  exact hwithin _ scope

theorem agree_decorated (scope : String) : Agree scope t.decorated t where
  toSameOutline := t.sameOutline_decorated
  types name := by rw [lookup_decorated]
  attributes _ _ _ := rfl

theorem analyse_decorated (program : Node) : analyse t.decorated program = analyse t program := by
  have htypes : t.decorated.checkTypes program [] = t.checkTypes program [] := by
    cases program with
    | module =>
      rw [checkTypes, checkTypes, checkNodes_eq, checkNodes_eq]
      exact checkEach_congr (fun e _ => t.agree_decorated e.1) _
    | _ => rfl
  have hbounds : t.decorated.boundFindings program = t.boundFindings program := by
    exact congrArg (flatMap · program.calls) (funext fun n => t.sameOutline_decorated.boundFindingsAt_eq fun _ _ => rfl)
  rw [analyse, analyse, htypes, hbounds]

end SymbolTable

namespace FinalCheck

/-! ### The check of finals -/

theorem visitAll_eq (ns : List Node) (s : FinalCheck) : visitAll ns s = (ns.map visit).foldlM (fun s f => f s) s := by
  induction ns generalizing s with
  | nil => rfl
  | cons n ns ih => rw [visitAll, map_cons, foldlM_cons, funext ih]

theorem visitAll_decorateBody (body : List Node) : visitAll (decorateBody body) = visitAll body := by
  have hvisit (d : String) (n : Node) : visit (addDecorator d n) = visit n :=
    apply_addDecorator (fun _ _ _ body _ _ => by cases body <;> rfl) d n
  funext s
  rw [visitAll_eq, visitAll_eq, map_decorateBody hvisit]

def overrideEntry? : Node → Option (String × Position)
  | .function h .. => some (h.name, h.position)
  | _ => none

theorem checkOverrides_decorateBody (s : FinalCheck) (h : ClassHead) (body : List Node) :
    s.checkOverrides h (decorateBody (decorateAll body)) = s.checkOverrides h body := by
  have heq (body : List Node) : s.checkOverrides h body = { s with
      findings := s.findings ++ (body.map overrideEntry?).filterMap fun e => e.bind fun e =>
        (NameMap.get? (s.inherited h.bases) e.1).map fun base => ⟨.overridden h.name e.1 base, e.2⟩ } := by
    rw [filterMap_map, checkOverrides]
    refine congrArg (fun f => { s with findings := s.findings ++ filterMap f body }) (funext fun n => ?_)
    cases n <;> rfl
  have hadd (d : String) (n : Node) : overrideEntry? (addDecorator d n) = overrideEntry? n :=
    apply_addDecorator (fun _ _ _ _ _ _ => rfl) d n
  have hclasses (n : Node) : overrideEntry? n.decorateClasses = overrideEntry? n :=
    apply_decorateClasses (fun n _ => by cases n <;> rfl) n
  rw [heq, heq, map_decorateBody hadd, map_decorateAll hclasses]

theorem visitAll_decorateAll_of (h : ∀ n ∈ ns, visit n.decorateClasses = visit n) :
    visitAll (decorateAll ns) = visitAll ns := by
  funext s
  rw [visitAll_eq, visitAll_eq, decorateAll_eq_map, List.map_map]
  exact congrArg (foldlM (fun s f => f s) s) (map_congr_left h)

theorem visit_decorateClasses (n : Node) : visit n.decorateClasses = visit n := by
  induction n using body_induction with
  | h n ih =>
    cases n with
    | classDecl =>
      funext s
      rw [decorateClasses, visit, visit, checkOverrides_decorateBody, visitAll_decorateBody,
        visitAll_decorateAll_of (ih _ rfl)]
    | function _ _ body =>
      cases body with
      | none => rfl
      | some =>
        funext s
        rw [decorateClasses, visit, visit, visitAll_decorateAll_of (ih _ rfl)]
    | module | forLoop | whileLoop | case | dataClass | enumDecl => exact visitAll_decorateAll_of (ih _ rfl)
    | _ => rfl

theorem visitAll_decorateAll (ns : List Node) : visitAll (decorateAll ns) = visitAll ns :=
  visitAll_decorateAll_of fun n _ => visit_decorateClasses n

def Passes (n : Node) : Prop := ∀ s, ∃ s', visit n s = .ok s'

theorem exists_visitAll (h : ∀ n ∈ ns, Passes n) (s : FinalCheck) : ∃ s', visitAll ns s = .ok s' := by
  induction ns generalizing s with
  | nil => exact ⟨s, rfl⟩
  | cons n ns ih =>
    obtain ⟨hn, hns⟩ := forall_mem_cons.1 h
    obtain ⟨s', hs'⟩ := hn s
    obtain ⟨s'', hs''⟩ := ih hns s'
    refine ⟨s'', ?_⟩
    rw [visitAll, hs']
    exact hs''

theorem exists_visitAll_twice (h : ∀ n ∈ body, Passes n) (s : FinalCheck) (scope : String) :
    ∃ s', (do visitAll body { ← visitAll body s with scope := scope }) = .ok s' := by
  obtain ⟨inner, hinner⟩ := exists_visitAll h s
  obtain ⟨s', hs'⟩ := exists_visitAll h { inner with scope := scope }
  refine ⟨s', ?_⟩
  rw [hinner]
  exact hs'

end FinalCheck

open FinalCheck

/-- Functions that are read have a body, so nothing stops the check. -/
theorem Fits.passes (h : Fits W role n) : Passes n := by
  induction h with
  | plainArgument _ ih | plainIndex _ ih | present _ ih | plainMember _ ih | plainTop _ ih => exact ih
  | forLoop _ _ _ ih | whileLoop _ _ _ ih | case _ _ _ ih | module _ ih | dataClass _ _ _ _ _ _ ih
  | enumDecl _ _ _ _ _ ih => exact exists_visitAll ih
  | function _ _ _ _ _ _ _ ih | classDecl _ _ _ _ _ _ ih => exact fun s => exists_visitAll_twice ih _ s.scope
  | @assignment target | @declared target | @finalDecl target =>
    intro s
    cases target <;> exact ⟨_, rfl⟩
  | _ => exact fun s => ⟨_, rfl⟩

theorem exists_run_decorated (hm : parseTokens tokens = .ok m) : ∃ s, FinalCheck.run m.decorated = .ok s := by
  have hfits := parseTokens_fits (W := fun _ _ => True) (fun _ _ => trivial) hm
  cases hfits with
  | module hbody =>
    rw [decorated, FinalCheck.run, visitAll_decorateBody, visitAll_decorateAll]
    exact exists_visitAll (fun n hn => (hbody n hn).passes) _

end BraceLang
