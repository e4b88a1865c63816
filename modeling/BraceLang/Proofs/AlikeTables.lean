import BraceLang.Proofs.TableOutline
import Mathlib.Data.List.Forall2

/-!
# Tables that are alike

Two programs can differ in what the checks do not read, or in the names that the bodies of some functions declare.
-/

namespace BraceLang

open List NameMap

variable {shown p : String → Bool} {t t' : SymbolTable} {W : TokenKind → String → Prop} {n n' : Node}
  {scope name cls : String} {known : List String} {ds : List Declaration} {os : List (String × String)}
  {f : FunctionSymbol}
  {g : NameMap (List FunctionSymbol) × NameMap (Option String) →
    NameMap (List FunctionSymbol) × NameMap (Option String)}
  {c c' : ClassSymbol} {role : Role} {ns ns' : List Node}

namespace NameMap

variable {α β : Type}

theorem putNew_map (f : α → β) (name : String) (value : α) (m : NameMap α) :
    putNew name (f value) (m.map fun e => (e.1, f e.2)) = (putNew name value m).map fun e => (e.1, f e.2) := by
  rw [putNew, putNew, has_map]
  split
  · rfl
  · rw [map_append]
    rfl

theorem put_of_get?_eq {m : NameMap α} (h : get? m name = some value) : put name value m = m := by
  induction m with
  | nil => cases h
  | cons e m ih =>
    obtain ⟨key, old⟩ := e
    rw [get?, lookup_cons] at h
    rw [put]
    by_cases hkey : key = name
    · subst hkey
      rw [beq_self_eq_true] at h
      cases h
      rw [if_pos rfl]
    · rw [beq_false_of_ne (Ne.symm hkey)] at h
      rw [if_neg hkey, ih h]

theorem filter_put (p : String → Bool) (name : String) (value : α) (m : NameMap α) :
    (put name value m).filter (fun e => p e.1) =
      if p name then put name value (m.filter fun e => p e.1) else m.filter fun e => p e.1 := by
  induction m with
  | nil => cases hp : p name <;> simp [put, hp]
  | cons e m ih =>
    by_cases hkey : e.1 = name
    · subst hkey
      cases hp : p e.1 <;> simp [put, hp]
    · cases hp : p name <;> cases hq : p e.1 <;> simp [put, hkey, hq, hp, ih]

theorem get?_filter (h : p name) (m : NameMap α) : get? (m.filter fun e => p e.1) name = get? m name := by
  induction m with
  | nil => rfl
  | cons e m ih =>
    rw [get?] at ih ⊢
    rw [get?, lookup_cons, filter_cons]
    by_cases hname : name = e.1
    · subst hname
      rw [h, if_pos rfl, lookup_cons, beq_self_eq_true]
    · rw [beq_false_of_ne hname]
      split
      · rw [lookup_cons, beq_false_of_ne hname]
        exact ih
      · exact ih

end NameMap

open Node

/-- The functions of a scope, and the types of its variables whose names are shown. -/
def ScopeSymbol.view (shown : String → Bool) (s : ScopeSymbol) :
    NameMap (List FunctionSymbol) × NameMap (Option String) :=
  (s.functions, (s.locals.filter fun v => shown v.1).map fun v => (v.1, v.2.type))

namespace SymbolTable

/-- The tables have classes of the same outlines, the same interfaces, and the same scopes as far as names are shown. -/
structure Alike (shown : String → Bool) (t t' : SymbolTable) : Prop where
  classes : (t.classes.map fun c => (c.1, c.2.outline)) = t'.classes.map fun c => (c.1, c.2.outline)
  interfaces : t.interfaces = t'.interfaces
  scopes : (t.scopes.map fun s => (s.1, s.2.view shown)) = t'.scopes.map fun s => (s.1, s.2.view shown)

namespace Alike

variable {t'' : SymbolTable}

theorem refl (t : SymbolTable) : Alike shown t t := ⟨rfl, rfl, rfl⟩

theorem symm (h : Alike shown t t') : Alike shown t' t := ⟨h.classes.symm, h.interfaces.symm, h.scopes.symm⟩

theorem trans (h : Alike shown t t') (h' : Alike shown t' t'') : Alike shown t t'' :=
  ⟨h.classes.trans h'.classes, h.interfaces.trans h'.interfaces, h.scopes.trans h'.scopes⟩

theorem get?_scopes (h : Alike shown t t') (scope : String) :
    (get? t.scopes scope).map (ScopeSymbol.view shown) = (get? t'.scopes scope).map (ScopeSymbol.view shown) := by
  rw [← get?_map, ← get?_map, h.scopes]

theorem sameOutline (h : Alike shown t t') : SameOutline t t' := by
  refine ⟨h.classes, h.interfaces, fun scope => ?_⟩
  have hview := congrArg (Option.map Prod.fst) (h.get?_scopes scope)
  rwa [Option.map_map, Option.map_map] at hview

theorem has_scopes_eq (h : Alike shown t t') (scope : String) : has t.scopes scope = has t'.scopes scope := by
  have hview := congrArg Option.isSome (h.get?_scopes scope)
  rwa [Option.isSome_map, Option.isSome_map] at hview

/-! ### The types of all variables -/

def noteType (m : NameMap String) (v : String × Option String) : NameMap String :=
  (v.2.filter (!·.isEmpty)).elim m fun type => put v.1 type m

theorem variableTypes_eq (t : SymbolTable) : t.variableTypes =
    t.scopes.foldl (fun m s => (s.2.locals.map fun v => (v.1, v.2.type)).foldl noteType m) [] := by
  refine congrArg (fun f => foldl f [] t.scopes) (funext fun m => funext fun s => ?_)
  rw [foldl_map]
  refine congrArg (fun f => foldl f m s.2.locals) (funext fun m => funext fun v => ?_)
  rw [noteType]
  cases v.2.type with
  | none => rfl
  | some type => cases hempty : type.isEmpty <;> simp [Option.filter, hempty]

theorem filter_noteTypes (shown : String → Bool) (vs : List (String × Option String)) (m : NameMap String) :
    (vs.foldl noteType m).filter (fun e => shown e.1) =
      (vs.filter fun v => shown v.1).foldl noteType (m.filter fun e => shown e.1) := by
  induction vs generalizing m with
  | nil => rfl
  | cons v vs ih =>
    have hnote : (noteType m v).filter (fun e => shown e.1) =
        if shown v.1 then noteType (m.filter fun e => shown e.1) v else m.filter fun e => shown e.1 := by
      rw [noteType, noteType]
      cases v.2.filter (!·.isEmpty) with
      | none => simp
      | some type => exact filter_put shown v.1 type m
    rw [foldl_cons, ih, hnote, filter_cons]
    split <;> rfl

theorem get?_variableTypes_eq (h : Alike shown t t') (hname : shown name) :
    get? t.variableTypes name = get? t'.variableTypes name := by
  have hfilter (scopes : NameMap ScopeSymbol) (m : NameMap String) :
      (scopes.foldl (fun m s => (s.2.locals.map fun v => (v.1, v.2.type)).foldl noteType m) m).filter
          (fun e => shown e.1) =
        (scopes.map fun s => (s.1, s.2.view shown)).foldl (fun m s => s.2.2.foldl noteType m)
          (m.filter fun e => shown e.1) := by
    induction scopes generalizing m with
    | nil => rfl
    | cons s scopes ih =>
      rw [foldl_cons, ih, filter_noteTypes, filter_map]
      rfl
  have htypes (t : SymbolTable) : get? t.variableTypes name = get?
      ((t.scopes.map fun s => (s.1, s.2.view shown)).foldl (fun m s => s.2.2.foldl noteType m) []) name := by
    rw [← get?_filter hname, variableTypes_eq, hfilter]
    rfl
  rw [htypes, htypes, h.scopes]

/-! ### Steps of declaring -/

theorem changeScope (h : Alike shown t t') (scope : String) {f f' : ScopeSymbol → ScopeSymbol}
    (hf : ∀ s, (f s).view shown = g (s.view shown)) (hf' : ∀ s, (f' s).view shown = g (s.view shown)) :
    Alike shown (t.changeScope scope f) (t'.changeScope scope f') := by
  have hscopes (t : SymbolTable) {f : ScopeSymbol → ScopeSymbol} (hf : ∀ s, (f s).view shown = g (s.view shown)) :
      ((t.changeScope scope f).scopes.map fun s => (s.1, s.2.view shown)) =
        put scope (g (((get? t.scopes scope).map (ScopeSymbol.view shown)).getD ([], [])))
          (t.scopes.map fun s => (s.1, s.2.view shown)) := by
    rw [SymbolTable.changeScope, change, ← put_map (ScopeSymbol.view shown), hf]
    cases get? t.scopes scope <;> rfl
  exact ⟨h.classes, h.interfaces, by rw [hscopes t hf, hscopes t' hf', h.get?_scopes, h.scopes]⟩

theorem addFunction (h : Alike shown t t') (f : FunctionSymbol) : Alike shown (t.addFunction f) (t'.addFunction f) :=
  h.changeScope f.scope (g := fun v => (change f.name [] (· ++ [f]) v.1, v.2)) (fun _ => rfl) fun _ => rfl

theorem ensureScope (h : Alike shown t t') (name : String) (parent : Option String) :
    Alike shown (t.ensureScope name parent) (t'.ensureScope name parent) := by
  refine ⟨h.classes, h.interfaces, ?_⟩
  rw [SymbolTable.ensureScope, SymbolTable.ensureScope, ← putNew_map (ScopeSymbol.view shown),
    ← putNew_map (ScopeSymbol.view shown), h.scopes]

theorem addClass (h : Alike shown t t') (name : String) (hc : c.outline = c'.outline) :
    Alike shown (t.addClass name c) (t'.addClass name c') := by
  refine ⟨?_, h.interfaces, h.scopes⟩
  rw [SymbolTable.addClass, SymbolTable.addClass, ← put_map ClassSymbol.outline,
    ← put_map ClassSymbol.outline, h.classes, hc]

theorem addInterface (h : Alike shown t t') (name : String) (i : InterfaceSymbol) :
    Alike shown (t.addInterface name i) (t'.addInterface name i) :=
  ⟨h.classes, congrArg (put name i) h.interfaces, h.scopes⟩

theorem view_addVariable (shown : String → Bool) (name : String) (type : Option String) (n : Node) (s : ScopeSymbol) :
    ScopeSymbol.view shown { s with locals := put name ⟨type, n⟩ s.locals } =
      ((s.view shown).1, if shown name then put name type (s.view shown).2 else (s.view shown).2) := by
  rw [ScopeSymbol.view, filter_put]
  split
  · rw [← put_map VariableSymbol.type]
    rfl
  · rfl

theorem addVariable (h : Alike shown t t') (scope name : String) (type : Option String) (n n' : Node) :
    Alike shown (t.addVariable scope name type n) (t'.addVariable scope name type n') :=
  h.changeScope scope (g := fun v => (v.1, if shown name then put name type v.2 else v.2))
    (view_addVariable shown name type n) (view_addVariable shown name type n')

theorem addHidden (hscope : has t.scopes scope) (hname : shown name = false)
    (type : Option String) (n : Node) : Alike shown (t.addVariable scope name type n) t := by
  obtain ⟨s, hs⟩ := Option.isSome_iff_exists.1 hscope
  have hview := view_addVariable shown name type n s
  rw [hname] at hview
  refine ⟨rfl, rfl, ?_⟩
  rw [SymbolTable.addVariable, SymbolTable.changeScope, change, ← put_map (ScopeSymbol.view shown), hs]
  refine put_of_get?_eq ?_
  rw [get?_map, hs, Option.getD_some, hview]
  rfl

end Alike

end SymbolTable

/-! ### Statements -/

section

open SymbolTable

theorem SymbolTable.Alike.declareParams (h : Alike shown t t') (scope : String) (params : List Node) :
    Alike shown (declareParams scope params t) (declareParams scope params t') := by
  induction params generalizing t t' with
  | nil => exact h
  | cons p params ih =>
    cases p with
    | parameter name type => exact ih (h.addVariable scope name type _ _)
    | _ => exact ih h

theorem SymbolTable.Alike.declareAssigned (h : Alike shown t t') (scope : String) (n : Node) :
    Alike shown (declareAssigned scope n t) (declareAssigned scope n t') := by
  have htype (value : Node) : assignedType? t value = assignedType? t' value := by
    cases value with
    | call callee =>
      cases callee with
      | identifier => rw [assignedType?, assignedType?, h.sameOutline.isClass_eq]
      | _ => rfl
    | _ => rfl
  unfold BraceLang.Node.declareAssigned
  split
  · exact h.addVariable ..
  · rw [htype]
    split
    · split
      · exact h
      · exact h.addVariable ..
    · exact h
  · exact h

variable {body : List Node}

theorem SymbolTable.Alike.declareAll
    (hbody : ∀ n ∈ body, ∀ {t t'}, Alike shown t t' → Alike shown (declare scope n t) (declare scope n t'))
    (h : Alike shown t t') : Alike shown (declareAll scope body t) (declareAll scope body t') := by
  induction body generalizing t t' with
  | nil => exact h
  | cons n body ih => exact ih (fun k hk => hbody k (.tail n hk)) (hbody n (.head body) h)

theorem Fits.alike_statement (hn : Fits W role n) (hrole : role = .statement) (h : Alike shown t t') :
    Alike shown (declare scope n t) (declare scope n t') := by
  induction hn generalizing t t' with
  | expressionStatement | declaration => exact h.declareAssigned scope _
  | @finalDecl target =>
    cases target with
    | identifier => exact h.addVariable ..
    | _ => exact h
  | forLoop _ _ _ ih | whileLoop _ _ _ ih => exact h.declareAll fun n hn _ _ h => ih n hn rfl h
  | pass | returns | raises | imports | conditional | switch => exact h
  | _ => cases hrole

/-- The names that the statements declare are not shown. -/
def Hidden (shown : String → Bool) (known : List String) (body : List Node) : Prop :=
  ∀ x ∈ allDeclared false known body, shown x.1 = false

theorem SymbolTable.Alike.declareHidden
    (hbody : ∀ n ∈ body, ∀ {t : SymbolTable}, (∀ name, t.isClass name = decide (name ∈ known)) →
      has t.scopes scope → (∀ x ∈ n.declared false known, shown x.1 = false) →
      Alike shown (declare scope n t) t) (hclasses : ∀ name, t.isClass name = decide (name ∈ known))
    (hscope : has t.scopes scope) (hhidden : Hidden shown known body) :
    Alike shown (Node.declareAll scope body t) t := by
  induction body generalizing t with
  | nil => exact .refl t
  | cons n body ih =>
    have hn := hbody n (.head body) hclasses hscope fun x hx => hhidden x (mem_append_left _ hx)
    refine (ih (fun k hk => hbody k (.tail n hk)) (fun name => ?_) ?_ fun x hx => ?_).trans hn
    · exact (hn.sameOutline.isClass_eq name).trans (hclasses name)
    · exact (hn.has_scopes_eq scope).trans hscope
    · exact hhidden x (mem_append_right _ hx)

theorem SymbolTable.Alike.assignHidden
    (hclasses : ∀ name, t.isClass name = decide (name ∈ known)) (hscope : has t.scopes scope)
    (hhidden : ∀ x ∈ (expression value semicolon).declared false known, shown x.1 = false) :
    Alike shown (Node.declareAssigned scope value t) t := by
  unfold BraceLang.Node.declareAssigned
  split
  · next name _ _ type _ => exact .addHidden hscope (hhidden (name, some type) (.head _)) _ _
  · next name value operator p =>
    have hfilter := Records.filter_assignedType? hclasses value
    split
    · next type htype =>
      split
      · exact .refl t
      · next hempty =>
        -- the type is not empty, so the name is declared
        rw [htype, Option.filter_some, if_pos (by simpa using hempty)] at hfilter
        have hname : (name, some type) ∈
            (expression (assignment (identifier name) value operator none p) semicolon).declared false known := by
          rw [Node.declared, ← hfilter]
          exact .head _
        exact .addHidden hscope (hhidden _ hname) _ _
    · exact .refl t
  · exact .refl t

theorem Fits.alike_hidden (hn : Fits W role n) (hrole : role = .statement)
    (hclasses : ∀ name, t.isClass name = decide (name ∈ known)) (hscope : has t.scopes scope)
    (hhidden : ∀ x ∈ n.declared false known, shown x.1 = false) : Alike shown (declare scope n t) t := by
  induction hn generalizing t with
  | expressionStatement | declaration => exact .assignHidden hclasses hscope hhidden
  | @finalDecl target _ type =>
    cases target with
    | identifier name => exact .addHidden hscope (hhidden (name, type) (.head _)) _ _
    | _ => exact .refl t
  | forLoop _ _ _ ih | whileLoop _ _ _ ih =>
    exact Alike.declareHidden (fun n hn _ ht hs hx => ih n hn rfl ht hs hx) hclasses hscope hhidden
  | pass | returns | raises | imports | conditional | switch => exact .refl t
  | _ => cases hrole

/-! ### Functions, classes and programs -/

theorem has_scopes_ensureScope (t : SymbolTable) (scope : String) (parent : Option String) :
    has (t.ensureScope scope parent).scopes scope := by
  rw [SymbolTable.ensureScope, has, get?_putNew, if_pos rfl, Option.isSome_or]
  simp

theorem isClass_declareParams (scope : String) (params : List Node) (t : SymbolTable) (name : String) :
    (declareParams scope params t).isClass name = t.isClass name := by
  induction params generalizing t with
  | nil => rfl
  | cons p params ih =>
    cases p with
    | parameter => exact ih _
    | _ => exact ih t

theorem has_scopes_declareParams (hscope : has t.scopes scope) (params : List Node) :
    has (declareParams scope params t).scopes scope := by
  induction params generalizing t with
  | nil => exact hscope
  | cons p params ih =>
    cases p with
    | parameter name type =>
      refine ih ?_
      change has (t.addVariable scope name type _).scopes scope = true
      rw [SymbolTable.addVariable, SymbolTable.changeScope, change, has, get?_put_self]
      rfl
    | _ => exact ih hscope

def openRoutine (scope parent : String) (f : FunctionSymbol) (t : SymbolTable) : SymbolTable :=
  declareParams scope f.params ((t.addFunction f).ensureScope scope (some parent))

theorem alike_routine (hbody : ∀ n ∈ body, Fits W .statement n)
    (hclasses : ∀ name, t.isClass name = decide (name ∈ known)) (hhidden : Hidden shown known body) :
    Alike shown (Node.declareAll scope body (openRoutine scope parent f t)) (openRoutine scope parent f t) := by
  refine Alike.declareHidden (fun n hn _ ht hs hx => (hbody n hn).alike_hidden rfl ht hs hx) (fun name => ?_) ?_ hhidden
  · rw [openRoutine, isClass_declareParams]
    exact hclasses name
  · exact has_scopes_declareParams (has_scopes_ensureScope _ _ _) f.params

/-- One statement of a class or a program may stand for the other: they are the same, or functions of the same head that
declare no name that is shown in their bodies. -/
inductive Interchangeable (shown : String → Bool) (known : List String) : Node → Node → Prop
  | same (n : Node) : Interchangeable shown known n n
  | routine {h h' : FunctionHead} {params body body' typeParams typeParams' annotations annotations' : List Node}
      (hname : h.name = h'.name) (hresult : h.returnType = h'.returnType) (hbody : Hidden shown known body)
      (hbody' : Hidden shown known body') :
      Interchangeable shown known (.function h params (some body) typeParams annotations)
        (.function h' params (some body') typeParams' annotations')

theorem declareIn_function (owner : Option String) (h : FunctionHead) (params body typeParams annotations : List Node)
    (t : SymbolTable) : declareIn owner (.function h params (some body) typeParams annotations) t =
      Node.declareAll (routineScope owner h.name) body (openRoutine (routineScope owner h.name) (owner.getD "global")
        ⟨h.name, params, h.returnType, owner.getD "global"⟩ t) := by
  cases owner <;> rfl

theorem SymbolTable.Alike.openRoutine (h : Alike shown t t') (scope parent : String) (f : FunctionSymbol) :
    Alike shown (openRoutine scope parent f t) (openRoutine scope parent f t') :=
  ((h.addFunction f).ensureScope scope (some parent)).declareParams scope f.params

theorem Fits.alike_member (hn : Fits W .member n) (h : Alike shown t t') (owner : Option String) :
    Alike shown (declareIn owner n t) (declareIn owner n t') := by
  cases hn with
  | function _ _ _ _ hbody =>
    rw [declareIn_function, declareIn_function]
    exact (h.openRoutine _ _ _).declareAll fun n hn _ _ h => (hbody n hn).alike_statement rfl h
  | plainMember hn =>
    have hfunction : n.isFunction = false := by cases hn <;> rfl
    rw [declareIn_of_isFunction_eq_false hfunction, declareIn_of_isFunction_eq_false hfunction]
    exact hn.alike_statement rfl h

theorem Interchangeable.alike (hnn : Interchangeable shown known n n') (hn : Fits W .member n)
    (hn' : Fits W .member n') (hclasses : ∀ name, t.isClass name = decide (name ∈ known)) (h : Alike shown t t')
    (owner : Option String) : Alike shown (declareIn owner n t) (declareIn owner n' t') := by
  cases hnn with
  | same => exact hn.alike_member h owner
  | @routine head head' params body body' _ _ _ _ hname hresult hbody hbody' =>
    have hclasses' : ∀ name, t'.isClass name = decide (name ∈ known) := fun name =>
      (h.sameOutline.isClass_eq name).symm.trans (hclasses name)
    have hfits : ∀ k ∈ body, Fits W .statement k := by
      cases hn with
      | function _ _ _ _ hbody => exact hbody
      | plainMember hn => cases hn
    have hfits' : ∀ k ∈ body', Fits W .statement k := by
      cases hn' with
      | function _ _ _ _ hbody => exact hbody
      | plainMember hn => cases hn
    rw [declareIn_function, declareIn_function, hname, hresult]
    exact ((alike_routine hfits hclasses hbody).trans (h.openRoutine _ _ _)).trans
      (alike_routine hfits' hclasses' hbody').symm

theorem alike_members (hns : Forall₂ (Interchangeable shown known) ns ns') (hfits : ∀ n ∈ ns, Fits W .member n)
    (hfits' : ∀ n ∈ ns', Fits W .member n) (hopen : IsOpen os cls) (hrecords : Records t ds os known)
    (h : Alike shown t t') : Alike shown (declareMembers cls ns t) (declareMembers cls ns' t') := by
  induction hns generalizing t t' ds os with
  | nil => exact h
  | @cons n n' ns ns' hn hns ih =>
    have hone := hn.alike (hfits n (.head ns)) (hfits' n' (.head ns')) hrecords.classes h (some cls)
    have hnext := (hfits n (.head ns)).records_member (some cls) hopen hrecords
    rw [declareMembers_cons, declareMembers_cons]
    exact ih (fun k hk => hfits k (.tail n hk)) (fun k hk => hfits' k (.tail n' hk)) (hopen.append _) hnext hone

end

namespace Node

def classOutline : Node → ClassOutline
  | classDecl h body params annotations =>
    ClassSymbol.outline ⟨classDecl h body params annotations, "global", params.map Node.name, methodsOf h.name body⟩
  | n => ClassSymbol.outline ⟨n, "global", [], methodsOf (n.typeName?.getD "") n.members⟩

end Node

/-- One statement of a program may stand for the other: a class for one of the same outline and fields with members that
may stand for each other. -/
inductive TopInterchangeable (shown : String → Bool) (known : List String) : Node → Node → Prop
  | same (n : Node) : TopInterchangeable shown known n n
  | routine {n n' : Node} (h : Interchangeable shown known n n') : TopInterchangeable shown known n n'
  | members {n n' : Node} {cls : String} (hname : n.typeName? = some cls) (hname' : n'.typeName? = some cls)
      (houtline : n.classOutline = n'.classOutline) (hfields : n.fieldNodes = n'.fieldNodes)
      (hmembers : Forall₂ (Interchangeable shown known) n.members n'.members) :
      TopInterchangeable shown known n n'

section

open SymbolTable

theorem Fits.declare_top (h : Fits W .top n) :
    (n.typeName? = none ∧ Fits W .member n) ∨
    (n.typeName? = none ∧ ∀ t, declare "global" n t = t.addInterface n.name ⟨n, "global"⟩) ∨
    ∃ cls c, n.typeName? = some cls ∧ c.outline = n.classOutline ∧ (∀ k ∈ n.members, Fits W .member k) ∧
      ∀ t, declare "global" n t = declareMembers cls n.members
        (declareParams cls n.fieldNodes ((t.addClass cls c).ensureScope cls (some "global"))) := by
  cases h with
  | plainTop h => exact .inl ⟨h.typeName?_eq_none, h⟩
  | interface => exact .inr (.inl ⟨rfl, fun _ => rfl⟩)
  | classDecl _ _ _ hbody => exact .inr (.inr ⟨_, _, rfl, rfl, hbody, fun _ => rfl⟩)
  | dataClass _ _ hbody | enumDecl _ _ hbody =>
    exact .inr (.inr ⟨_, ⟨_, "global", [], _⟩, rfl, rfl, hbody, fun _ => rfl⟩)

theorem alike_class {fields : List Node} (hc : c.outline = c'.outline)
    (hns : Forall₂ (Interchangeable shown (known ++ [cls])) ns ns') (hfits : ∀ n ∈ ns, Fits W .member n)
    (hfits' : ∀ n ∈ ns', Fits W .member n) (hrecords : Records t ds os known) (h : Alike shown t t') :
    Alike shown (declareMembers cls ns (declareParams cls fields ((t.addClass cls c).ensureScope cls (some "global"))))
      (declareMembers cls ns' (declareParams cls fields ((t'.addClass cls c').ensureScope cls (some "global")))) := by
  have hopen : IsOpen (os ++ [(cls, "global")]) cls := isOpen_append_singleton os _
  have hclass := ((hrecords.addClass cls c).ensureScope (isOpen_global os) cls).declareParams hopen fields
  exact alike_members hns hfits hfits' hopen hclass
    (((h.addClass cls hc).ensureScope cls (some "global")).declareParams cls fields)

theorem Fits.alike_top (hn : Fits W .top n) (hrecords : Records t ds os known) (h : Alike shown t t') :
    Alike shown (declare "global" n t) (declare "global" n t') := by
  rcases hn.declare_top with ⟨_, hmember⟩ | ⟨_, hdeclare⟩ | ⟨cls, c, hcls, hc, hmembers, hdeclare⟩
  · exact hmember.alike_member h none
  · rw [hdeclare, hdeclare]
    exact h.addInterface _ _
  · rw [hdeclare, hdeclare]
    exact alike_class rfl (forall₂_same.2 fun k _ => .same k) hmembers hmembers hrecords h

theorem TopInterchangeable.alike (hnn : TopInterchangeable shown (known ++ n.typeName?.toList) n n')
    (hn : Fits W .top n) (hn' : Fits W .top n') (hrecords : Records t ds os known) (h : Alike shown t t') :
    Alike shown (declare "global" n t) (declare "global" n' t') := by
  cases hnn with
  | same => exact hn.alike_top hrecords h
  | routine hnn =>
    cases hnn with
    | same => exact hn.alike_top hrecords h
    | routine hname hresult hbody hbody' =>
      cases hn with
      | plainTop hn =>
        cases hn' with
        | plainTop hn' =>
          have hnone : known ++ [] = known := append_nil known
          exact Interchangeable.alike (.routine hname hresult (hnone ▸ hbody) (hnone ▸ hbody'))
            hn hn' hrecords.classes h
            none
  | members hname hname' houtline hfields hmembers =>
    rw [hname] at hmembers
    rcases hn.declare_top with ⟨hnone, _⟩ | ⟨hnone, _⟩ | ⟨_, c, hcls, hc, hfits, hdeclare⟩
    · cases hname.symm.trans hnone
    · cases hname.symm.trans hnone
    · rcases hn'.declare_top with ⟨hnone, _⟩ | ⟨hnone, _⟩ | ⟨_, c', hcls', hc', hfits', hdeclare'⟩
      · cases hname'.symm.trans hnone
      · cases hname'.symm.trans hnone
      · cases hname.symm.trans hcls
        cases hname'.symm.trans hcls'
        rw [hdeclare, hdeclare', hfields]
        exact alike_class (hc.trans (houtline.trans hc'.symm)) hmembers hfits hfits' hrecords h

theorem TopInterchangeable.typeName?_eq (h : TopInterchangeable shown known n n') : n.typeName? = n'.typeName? := by
  cases h with
  | same => rfl
  | routine h => cases h <;> rfl
  | members hname hname' => rw [hname, hname']

theorem alike_tops (hfits : ∀ n ∈ ns, Fits W .top n) (hfits' : ∀ n ∈ ns', Fits W .top n)
    (hns : Forall₂ (fun i i' => TopInterchangeable shown i.1 i.2 i'.2) (withKnown known ns) (withKnown known ns'))
    (hrecords : Records t ds os known) (h : Alike shown t t') :
    Alike shown (declareAll "global" ns t) (declareAll "global" ns' t') := by
  induction ns generalizing ns' t t' ds os known with
  | nil =>
    cases ns' with
    | nil => exact h
    | cons => cases hns
  | cons n ns ih =>
    cases ns' with
    | nil => cases hns
    | cons n' ns' =>
      cases hns with
      | cons hn hrest =>
        have hnext := (hfits n (.head ns)).records_top hrecords
        have hone := hn.alike (hfits n (.head ns)) (hfits' n' (.head ns')) hrecords h
        rw [← hn.typeName?_eq] at hrest
        rw [declareAll, declareAll]
        exact ih (fun k hk => hfits k (.tail n hk)) (fun k hk => hfits' k (.tail n' hk)) hrest hnext hone

/-- Programs whose statements may stand for each other have tables that are alike. -/
theorem Fits.alike_symbols (hm : Fits W .program m) (hm' : Fits W .program m')
    (h : Forall₂ (fun i i' => TopInterchangeable shown i.1 i.2 i'.2) m.items m'.items) :
    Alike shown m.symbols m'.symbols := by
  cases hm with
  | module hbody =>
    cases hm' with
    | module hbody' => exact alike_tops hbody hbody' h Records.empty (.refl {})

end

end BraceLang
