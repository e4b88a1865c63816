import BraceLang.Proofs.Shape
import BraceLang.Symbols.Declare
import Mathlib.Data.List.Basic
import Mathlib.Data.List.Induction

/-!
# What a symbol table records

A program is a list of declarations, each in the scope that it is made in, and a list of scopes that are opened, each
in another one.
-/

namespace BraceLang

open List NameMap SymbolTable

variable {scope : String} {os : List (String × String)}

namespace NameMap

variable {α : Type}

theorem has_iff_mem_map_fst {m : NameMap α} : has m name ↔ name ∈ m.map Prod.fst := by
  rw [has, get?, lookup_isSome_iff, mem_map]
  simp only [beq_iff_eq, @eq_comm _ name]

theorem get?_putNew (name other : String) (value : α) (m : NameMap α) :
    get? (putNew name value m) other = (get? m other).or (if other = name then some value else none) := by
  unfold putNew
  split
  · next hhas =>
    by_cases hname : other = name
    · obtain ⟨old, hold⟩ := Option.isSome_iff_exists.1 hhas
      rw [hname, hold, Option.some_or]
    · rw [if_neg hname, Option.or_none]
  · rw [get?, get?, lookup_append, lookup_cons, lookup_nil]
    by_cases hname : other = name
    · simp [hname]
    · rw [if_neg hname, beq_false_of_ne hname]

theorem map_put {β : Type} (h : get? m name = some old)
    (g : String × α → β) (hg : g (name, value) = g (name, old)) : (put name value m).map g = m.map g := by
  induction m with
  | nil => cases h
  | cons e m ih =>
    rw [put]
    rw [get?, lookup_cons] at h
    by_cases hname : e.1 = name
    · subst hname
      rw [beq_self_eq_true] at h
      cases h
      rw [if_pos rfl, map_cons, map_cons, hg]
    · rw [beq_false_of_ne (Ne.symm hname)] at h
      rw [if_neg hname, map_cons, map_cons, ih h]

theorem map_fst_put (h : has m name) (value : α) : (put name value m).map Prod.fst = m.map Prod.fst := by
  obtain ⟨old, hold⟩ := Option.isSome_iff_exists.1 h
  exact map_put hold Prod.fst rfl

end NameMap

/-! ### Declarations and scopes -/

structure Declaration where
  scope : String
  name : String
  type : Option String
  deriving DecidableEq

namespace Declaration

variable {name scope : String}

def allIn (scope : String) (xs : List (String × Option String)) : List Declaration := xs.map fun x => ⟨scope, x.1, x.2⟩

variable {body : List Node} {d : Declaration} {c : List String} {f : FunctionSymbol} {parent cls : String}

theorem mem_allIn : d ∈ allIn scope xs ↔ d.scope = scope ∧ (d.name, d.type) ∈ xs := by
  rw [allIn, mem_map]
  constructor
  · rintro ⟨x, hx, rfl⟩
    exact ⟨rfl, hx⟩
  · rintro ⟨rfl, hd⟩
    exact ⟨_, hd, rfl⟩

theorem allIn_append (scope : String) (xs ys : List (String × Option String)) :
    allIn scope (xs ++ ys) = allIn scope xs ++ allIn scope ys := map_append

def last? (ds : List Declaration) (scope name : String) : Option (Option String) :=
  (ds.reverse.find? fun d => d.scope = scope ∧ d.name = name).map (·.type)

theorem last?_append_singleton (ds : List Declaration) (d : Declaration) (scope name : String) :
    last? (ds ++ [d]) scope name = if d.scope = scope ∧ d.name = name then some d.type else last? ds scope name := by
  rw [last?, reverse_append, reverse_singleton, singleton_append, find?_cons]
  by_cases h : d.scope = scope ∧ d.name = name
  · rw [if_pos h, decide_eq_true h]
    rfl
  · rw [if_neg h, decide_eq_false h]
    rfl

variable {ds : List Declaration}

theorem mem_of_last? {type : Option String} (h : last? ds scope name = some type) : ⟨scope, name, type⟩ ∈ ds := by
  obtain ⟨d, hd, rfl⟩ := Option.map_eq_some_iff.1 h
  obtain ⟨rfl, rfl⟩ : d.scope = scope ∧ d.name = name := by simpa using find?_some hd
  exact mem_reverse.1 (mem_of_find?_eq_some hd)

theorem last?_eq_none_iff : last? ds scope name = none ↔ ∀ type, ⟨scope, name, type⟩ ∉ ds := by
  constructor
  · intro h type hmem
    have hnone := find?_eq_none.1 (Option.map_eq_none_iff.1 h) _ (mem_reverse.2 hmem)
    simp at hnone
  · intro h
    cases hlast : last? ds scope name with
    | none => rfl
    | some type => exact absurd (mem_of_last? hlast) (h type)

end Declaration

/-- The chains of scopes that openings lead to: each opened scope with those around it.  Only the first opening of a
scope counts. -/
def chains (os : List (String × String)) : NameMap (List String) :=
  os.foldl (fun cs o => putNew o.1 (o.1 :: (get? cs o.2).getD []) cs) [("global", ["global"])]

def IsOpen (os : List (String × String)) (scope : String) : Prop := (get? (chains os) scope).isSome = true

theorem chains_append_singleton (os : List (String × String)) (o : String × String) : chains (os ++ [o]) =
    putNew o.1 (o.1 :: (get? (chains os) o.2).getD []) (chains os) := by
  rw [chains, foldl_append]
  rfl

theorem get?_chains_append (h : get? (chains os) scope = some c) (more : List (String × String)) :
    get? (chains (os ++ more)) scope = some c := by
  induction more using reverseRecOn with
  | nil => rwa [append_nil]
  | append_singleton more o ih =>
    rw [← List.append_assoc, chains_append_singleton, get?_putNew, ih, Option.some_or]

theorem get?_chains_global (os : List (String × String)) : get? (chains os) "global" = some ["global"] := by
  rw [← nil_append os]
  exact get?_chains_append rfl os

theorem isOpen_global (os : List (String × String)) : IsOpen os "global" := by
  rw [IsOpen, get?_chains_global]
  rfl

theorem IsOpen.append (h : IsOpen os scope) (more : List (String × String)) : IsOpen (os ++ more) scope := by
  obtain ⟨c, hc⟩ := Option.isSome_iff_exists.1 h
  rw [IsOpen, get?_chains_append hc]
  rfl

theorem isOpen_append_singleton (os : List (String × String)) (o : String × String) : IsOpen (os ++ [o]) o.1 := by
  rw [IsOpen, chains_append_singleton, get?_putNew, if_pos rfl, Option.isSome_or]
  simp

theorem isOpen_iff : IsOpen os scope ↔ scope = "global" ∨ scope ∈ os.map Prod.fst := by
  induction os using reverseRecOn with
  | nil => simp [IsOpen, chains, get?, lookup_isSome_iff]
  | append_singleton os o ih =>
    rw [IsOpen, chains_append_singleton, get?_putNew, Option.isSome_or, Bool.or_eq_true]
    rw [IsOpen] at ih
    rw [ih, map_append, mem_append, or_assoc]
    by_cases hname : scope = o.1 <;> simp [hname]

theorem get?_chains_of_first {before after : List (String × String)} (hfirst : ¬ IsOpen before o.1)
    (houter : IsOpen before o.2) (hc : get? (chains (before ++ o :: after)) o.2 = some c) :
    get? (chains (before ++ o :: after)) o.1 = some (o.1 :: c) := by
  obtain ⟨c', hc'⟩ := Option.isSome_iff_exists.1 houter
  cases (get?_chains_append hc' (o :: after)).symm.trans hc
  rw [append_cons]
  refine get?_chains_append ?_ after
  rw [chains_append_singleton, get?_putNew, Option.not_isSome_iff_eq_none.1 hfirst, hc', if_pos rfl]
  rfl

theorem length_le_of_get?_chains (h : get? (chains os) scope = some c) : c.length ≤ (chains os).length := by
  induction os using reverseRecOn generalizing scope c with
  | nil =>
    rw [chains, foldl_nil, get?, lookup_cons] at h
    split at h
    · cases h
      exact Nat.le_refl _
    · cases h
  | append_singleton os o ih =>
    rw [chains_append_singleton, putNew] at h ⊢
    split at h
    · next hhas =>
      rw [if_pos hhas]
      exact ih h
    · next hhas =>
      rw [if_neg hhas, length_append, length_singleton]
      rw [get?, lookup_append, Option.or_eq_some_iff] at h
      rcases h with h | ⟨_, h⟩
      · exact Nat.le_succ_of_le (ih h)
      · rw [lookup_cons] at h
        split at h
        · cases h
          cases houter : get? (chains os) o.2 with
          | none => simp
          | some => simpa using ih houter
        · cases h

/-- The type of a name in a scope: that of its last declaration in the nearest scope around that has one.  A scope
without a name ends the search. -/
def visible? (ds : List Declaration) (os : List (String × String)) (scope name : String) : Option (Option String) :=
  (((get? (chains os) scope).getD []).takeWhile (· ≠ "")).findSome? fun s => Declaration.last? ds s name

/-! ### Tables -/

structure Records (t : SymbolTable) (ds : List Declaration) (os : List (String × String)) (known : List String) :
    Prop where
  types : ∀ scope name, (t.variableIn? scope name).map (·.type) = Declaration.last? ds scope name
  scopes : t.scopes.map Prod.fst = (chains os).map Prod.fst
  around : ∀ scope s, get? t.scopes scope = some s → ∃ outer,
    get? (chains os) scope = some (scope :: outer) ∧
      s.parent.elim (outer = []) fun p => get? (chains os) p = some outer
  /-- A scope is opened in one that is open. -/
  nested : ∀ before after o, os = before ++ o :: after → IsOpen before o.2
  classes : ∀ name, t.isClass name = decide (name ∈ known)

namespace Records

variable {t : SymbolTable} {ds : List Declaration} {os : List (String × String)} {known : List String} {scope : String}

theorem empty : Records {} [] [] [] where
  types scope name := by
    rw [variableIn?, get?, lookup_cons]
    split <;> rfl
  scopes := rfl
  around scope s hs := by
    rw [get?, lookup_cons] at hs
    split at hs
    · next hname =>
      cases hs
      cases eq_of_beq hname
      exact ⟨[], rfl, rfl⟩
    · cases hs
  nested before after o h := by cases before <;> cases h
  classes name := rfl

theorem has_scopes (h : Records t ds os known) (scope : String) : has t.scopes scope ↔ IsOpen os scope := by
  rw [has_iff_mem_map_fst, h.scopes, ← has_iff_mem_map_fst]
  rfl

theorem changeScope (h : Records t ds os known) (hscope : IsOpen os scope)
    (hf : ∀ s, (f s).parent = s.parent)
    (hds : ∀ s, get? t.scopes scope = some s → ∀ name,
      (get? (f s).locals name).map (·.type) = Declaration.last? ds' scope name)
    (hother : ∀ other, other ≠ scope → ∀ name, Declaration.last? ds' other name = Declaration.last? ds other name) :
    Records (t.changeScope scope f) ds' os known := by
  have hhas := (h.has_scopes scope).2 hscope
  obtain ⟨s, hs⟩ := Option.isSome_iff_exists.1 hhas
  have hchanged : (t.changeScope scope f).scopes = put scope (f s) t.scopes := by
    rw [SymbolTable.changeScope, change, hs]
    rfl
  constructor
  case types =>
    intro other name
    rw [SymbolTable.variableIn?, hchanged]
    by_cases hname : other = scope
    · rw [hname, get?_put_self]
      exact hds s hs name
    · rw [get?_put_of_ne hname, hother other hname, ← h.types]
      rfl
  case scopes => rw [hchanged, map_fst_put hhas, h.scopes]
  case around =>
    intro other s' hs'
    rw [hchanged] at hs'
    by_cases hname : other = scope
    · rw [hname, get?_put_self] at hs'
      cases hs'
      rw [hname, hf]
      exact h.around scope s hs
    · rw [get?_put_of_ne hname] at hs'
      exact h.around other s' hs'
  case nested => exact h.nested
  case classes => exact h.classes

theorem addVariable (h : Records t ds os known) (hscope : IsOpen os scope) (name : String) (type : Option String)
    (n : Node) : Records (t.addVariable scope name type n) (ds ++ [⟨scope, name, type⟩]) os known := by
  refine h.changeScope hscope ?_ (fun s hs other => ?_) (fun other hne name' => ?_)
  · exact fun _ => rfl
  · rw [Declaration.last?_append_singleton]
    by_cases hname : other = name
    · rw [hname, get?_put_self, if_pos ⟨rfl, rfl⟩]
      rfl
    · rw [get?_put_of_ne hname, if_neg fun heq => hname heq.2.symm, ← h.types, variableIn?, hs]
      rfl
  · rw [Declaration.last?_append_singleton, if_neg fun heq => hne heq.1.symm]

theorem addFunction (h : Records t ds os known) (hscope : IsOpen os f.scope) :
    Records (t.addFunction f) ds os known := by
  refine h.changeScope hscope ?_ (fun s hs name => ?_) (fun _ _ _ => rfl)
  · exact fun _ => rfl
  · rw [← h.types, variableIn?, hs]
    rfl

theorem ensureScope (h : Records t ds os known) (hparent : IsOpen os parent) (scope : String) :
    Records (t.ensureScope scope (some parent)) ds (os ++ [(scope, parent)]) known := by
  obtain ⟨outer, houter⟩ := Option.isSome_iff_exists.1 hparent
  have hget (other : String) : get? (t.ensureScope scope (some parent)).scopes other =
      (get? t.scopes other).or (if other = scope then some { parent := some parent } else none) :=
    get?_putNew ..
  constructor
  case types =>
    intro other name
    rw [← h.types, SymbolTable.variableIn?, SymbolTable.variableIn?, hget]
    cases get? t.scopes other with
    | some => rfl
    | none =>
      split <;> rfl
  case scopes =>
    have hsame : has (chains os) scope = has t.scopes scope :=
      Bool.eq_iff_iff.2 (h.has_scopes scope).symm
    rw [chains_append_singleton, SymbolTable.ensureScope, putNew, putNew, hsame]
    by_cases hhas : has t.scopes scope
    · rw [if_pos hhas, if_pos hhas, h.scopes]
    · rw [if_neg hhas, if_neg hhas, map_append, map_append, h.scopes]
      rfl
  case around =>
    intro other s hs
    rw [hget, Option.or_eq_some_iff] at hs
    rcases hs with hs | ⟨hnone, hs⟩
    · obtain ⟨rest, hchain, hrest⟩ := h.around other s hs
      refine ⟨rest, get?_chains_append hchain _, ?_⟩
      cases hp : s.parent with
      | none => rwa [hp] at hrest
      | some =>
        rw [hp] at hrest
        exact get?_chains_append hrest _
    · split at hs
      · next hname =>
        cases hs
        subst hname
        -- the scope is new, so its chain is made here
        have hnew : get? (chains os) other = none := by
          rw [← Option.not_isSome_iff_eq_none]
          intro hopen
          have hhas := (h.has_scopes other).2 hopen
          rw [has, hnone] at hhas
          cases hhas
        refine ⟨outer, ?_, get?_chains_append houter _⟩
        rw [chains_append_singleton, get?_putNew, hnew, houter, if_pos rfl]
        rfl
      · cases hs
  case nested =>
    intro before after o heq
    rcases eq_nil_or_concat after with rfl | ⟨after, last, rfl⟩
    · obtain ⟨rfl, ho⟩ := append_inj' heq rfl
      cases ho
      exact hparent
    · rw [concat_eq_append, ← cons_append, ← List.append_assoc] at heq
      exact h.nested before after o (append_inj' heq rfl).1
  case classes => exact h.classes

theorem addClass (h : Records t ds os known) (name : String) (c : ClassSymbol) :
    Records (t.addClass name c) ds os (known ++ [name]) where
  types := h.types
  scopes := h.scopes
  around := h.around
  nested := h.nested
  classes other := by
    rw [SymbolTable.isClass, SymbolTable.addClass, has]
    by_cases hname : other = name
    · rw [hname, get?_put_self]
      simp
    · have hold := h.classes other
      rw [SymbolTable.isClass, has] at hold
      rw [get?_put_of_ne hname, hold]
      simp [hname]

theorem addInterface (h : Records t ds os known) (name : String) (i : InterfaceSymbol) :
    Records (t.addInterface name i) ds os known := ⟨h.types, h.scopes, h.around, h.nested, h.classes⟩

/-! ### Looking names up -/

theorem lookupWithin_type (h : Records t ds os known) (name : String)
    (hc : get? (chains os) scope = some c) (hn : c.length < n) :
    (t.lookupWithin name n scope).map (·.type) =
      (c.takeWhile (· ≠ "")).findSome? fun s => Declaration.last? ds s name := by
  induction n generalizing scope c with
  | zero => cases hn
  | succ n ih =>
    have hopen : IsOpen os scope := by rw [IsOpen, hc]; rfl
    obtain ⟨s, hs⟩ := Option.isSome_iff_exists.1 ((h.has_scopes scope).2 hopen)
    obtain ⟨outer, hchain, houter⟩ := h.around scope s hs
    cases hc.symm.trans hchain
    rw [lookupWithin]
    by_cases hempty : scope = ""
    · subst hempty
      rfl
    · have hvariable := h.types scope name
      rw [variableIn?, hs, Option.bind_some] at hvariable
      rw [if_neg (by simpa using hempty), hs, takeWhile_cons_of_pos (by simpa using hempty), findSome?_cons,
        ← hvariable]
      dsimp only
      cases get? s.locals name with
      | some => rfl
      | none =>
        cases hp : s.parent with
        | none =>
          rw [hp] at houter
          cases houter
          rfl
        | some =>
          rw [hp] at houter
          exact ih houter (Nat.lt_of_succ_lt_succ hn)

/-- What a name means in a scope is its last declaration in the nearest scope that has one. -/
theorem lookup_type (h : Records t ds os known) (scope name : String) :
    (t.lookup scope name).map (·.type) = visible? ds os scope name := by
  rw [SymbolTable.lookup, visible?]
  cases hc : get? (chains os) scope with
  | some =>
    have hlength : t.scopes.length = (chains os).length := by simpa using congrArg List.length h.scopes
    have hbound := length_le_of_get?_chains hc
    rw [Option.getD_some]
    exact h.lookupWithin_type name hc (by omega)
  | none =>
    have hnone : get? t.scopes scope = none := by
      rw [← Option.not_isSome_iff_eq_none]
      intro hsome
      have hopen := (h.has_scopes scope).1 hsome
      rw [IsOpen, hc] at hopen
      cases hopen
    rw [SymbolTable.lookupWithin, hnone]
    split <;> rfl

end Records

/-! ### Programs -/

/-- A function or a class with the scope that it opens, the scope around it and the classes that are known in it. -/
structure Block where
  scope : String
  parent : String
  known : List String
  node : Node

namespace Block

def opening (b : Block) : String × String := (b.scope, b.parent)

end Block

namespace Node

def impliedType? (known : List String) : Node → Option String
  | call (identifier name) _ => if name ∈ known ∧ name ≠ "" then some name else none
  | n => n.shownType?

mutual

/-- The names that the statements of a node declare, with their types.  Conditionals and switches are entered only if
`branches` is set. -/
def declared (branches : Bool) (known : List String) : Node → List (String × Option String)
  | expression (assignment (identifier name) _ _ (some type) _) _ => [(name, some type)]
  | expression (assignment (identifier name) value _ none _) _ =>
    (value.impliedType? known).toList.map fun type => (name, some type)
  | finalDecl (identifier name) _ type => [(name, type)]
  | conditional _ thenBody elseBody =>
    if branches then allDeclared branches known thenBody ++ allDeclared branches known elseBody else []
  | switch _ cases default =>
    if branches then allDeclared branches known cases ++ allDeclared branches known default else []
  | forLoop _ body | whileLoop _ body | case _ body => allDeclared branches known body
  | _ => []

def allDeclared (branches : Bool) (known : List String) : List Node → List (String × Option String)
  | [] => []
  | n :: ns => declared branches known n ++ allDeclared branches known ns

end

def parameters (params : List Node) : List (String × Option String) :=
  params.filterMap fun
    | parameter name type .. => some (name, type)
    | _ => none

def typeName? : Node → Option String
  | classDecl h .. => some h.name
  | dataClass name .. | enumDecl name .. => some name
  | _ => none

def fieldNodes : Node → List Node
  | dataClass _ fields .. => fields
  | _ => []

def members : Node → List Node
  | classDecl _ body .. | dataClass _ _ body .. | enumDecl _ _ body .. => body
  | _ => []

def ownDeclared (branches : Bool) (known : List String) : Node → List (String × Option String)
  | function _ params body .. => parameters params ++ allDeclared branches known (body.getD [])
  | n => parameters n.fieldNodes ++ n.members.flatMap (declared branches known)

def routineScope : Option String → String → String
  | some cls, name => methodScope cls name
  | none, name => name

def blocksIn (owner : Option String) (known : List String) (n : Node) : List Block :=
  match n with
  | function h .. => [⟨routineScope owner h.name, owner.getD "global", known, n⟩]
  | _ => []

def declarationsIn (owner : Option String) (known : List String) (n : Node) : List Declaration :=
  match n with
  | function h .. => Declaration.allIn (routineScope owner h.name) (n.ownDeclared false known)
  | _ => Declaration.allIn (owner.getD "global") (n.declared false known)

def topBlocks (known : List String) (n : Node) : List Block :=
  match n.typeName? with
  | some cls => ⟨cls, "global", known, n⟩ :: n.members.flatMap (blocksIn (some cls) known)
  | none => n.blocksIn none known

def topDeclarations (known : List String) (n : Node) : List Declaration :=
  match n.typeName? with
  | some cls => Declaration.allIn cls (parameters n.fieldNodes) ++ n.members.flatMap (declarationsIn (some cls) known)
  | none => n.declarationsIn none known

/-- Statements of a program, each with the classes that are known when it is declared. -/
def withKnown : List String → List Node → List (List String × Node)
  | _, [] => []
  | known, n :: ns => (known ++ n.typeName?.toList, n) :: withKnown (known ++ n.typeName?.toList) ns

def items (m : Node) : List (List String × Node) := withKnown [] m.statements

def blocks (m : Node) : List Block := m.items.flatMap fun i => i.2.topBlocks i.1

def openings (m : Node) : List (String × String) := m.blocks.map Block.opening

def declarations (m : Node) : List Declaration := m.items.flatMap fun i => i.2.topDeclarations i.1

def typeNames (m : Node) : List String := m.statements.filterMap typeName?

end Node

open Node

namespace Records

variable {t : SymbolTable} {ds : List Declaration} {os : List (String × String)} {known : List String} {scope : String}

theorem nothing (h : Records t ds os known) (scope : String) :
    Records t (ds ++ Declaration.allIn scope []) os known := by
  rwa [Declaration.allIn, map_nil, append_nil]

theorem declareParams (h : Records t ds os known) (hscope : IsOpen os scope) (params : List Node) :
    Records (declareParams scope params t) (ds ++ Declaration.allIn scope (parameters params)) os known := by
  induction params generalizing t ds with
  | nil => exact h.nothing scope
  | cons p params ih =>
    cases p with
    | parameter name type default annotations =>
      have hrest := ih (h.addVariable hscope name type (parameter name type default annotations))
      rwa [List.append_assoc] at hrest
    | _ => exact ih h

theorem filter_literalTypeOf (kind : LiteralKind) (text : String) :
    (literalTypeOf kind text).filter (fun type => !type.isEmpty) = literalTypeOf kind text := by
  cases kind with
  | number =>
    rw [literalTypeOf, numberType]
    split <;> rfl
  | _ => rfl

theorem filter_assignedType? (hclasses : ∀ name, t.isClass name = decide (name ∈ known)) (value : Node) :
    (assignedType? t value).filter (fun type => !type.isEmpty) = value.impliedType? known := by
  cases value with
  | literal | collection => exact filter_literalTypeOf _ _
  | call callee =>
    cases callee with
    | identifier name =>
      rw [assignedType?, impliedType?, hclasses]
      by_cases hname : name = ""
      · by_cases hknown : "" ∈ known <;> simp [hname, hknown]
      · by_cases hknown : name ∈ known <;> simp [hname, hknown, Option.filter]
    | _ => rfl
  | _ => rfl

theorem declareAssigned (h : Records t ds os known) (hscope : IsOpen os scope) (n : Node) (semicolon : Bool) :
    Records (declareAssigned scope n t)
      (ds ++ Declaration.allIn scope ((expression n semicolon).declared false known)) os known := by
  cases n with
  | assignment target value operator type =>
    cases target with
    | identifier name =>
      cases type with
      | some type => exact h.addVariable hscope name (some type) _
      | none =>
        rw [declared, ← filter_assignedType? h.classes]
        unfold BraceLang.Node.declareAssigned
        dsimp only
        cases assignedType? t value with
        | none => exact h.nothing scope
        | some type =>
          by_cases hempty : type = ""
          · simpa [Declaration.allIn, hempty, Option.filter] using h
          · simpa [Declaration.allIn, hempty, Option.filter] using h.addVariable hscope name (some type) _
    | _ => exact h.nothing scope
  | _ => exact h.nothing scope

theorem declareAll (hbody : ∀ n ∈ body, ∀ {t ds}, Records t ds os known →
      Records (declare scope n t) (ds ++ Declaration.allIn scope (n.declared false known)) os known)
    (h : Records t ds os known) :
    Records (declareAll scope body t) (ds ++ Declaration.allIn scope (allDeclared false known body)) os known := by
  induction body generalizing t ds with
  | nil => exact h.nothing scope
  | cons n body ih =>
    have hrest := ih (fun k hk => hbody k (.tail n hk)) (hbody n (.head body) h)
    rwa [List.append_assoc, ← Declaration.allIn_append] at hrest

end Records

section

variable {W : TokenKind → String → Prop} {n : Node} {t : SymbolTable} {ds : List Declaration}
  {os : List (String × String)} {known : List String} {scope : String}

theorem Fits.records_statement (h : Fits W role n) (hrole : role = .statement) (hscope : IsOpen os scope)
    (ht : Records t ds os known) :
    Records (declare scope n t) (ds ++ Declaration.allIn scope (n.declared false known)) os known := by
  induction h generalizing t ds with
  | expressionStatement | declaration => exact ht.declareAssigned hscope _ _
  | @finalDecl target value type =>
    cases target with
    | identifier name => exact ht.addVariable hscope name type _
    | _ => exact ht.nothing scope
  | forLoop _ _ _ ih | whileLoop _ _ _ ih =>
    exact ht.declareAll fun n hn _ _ ht => ih n hn rfl ht
  | pass | returns | raises | imports | conditional | switch => exact ht.nothing scope
  | _ => cases hrole

theorem Fits.records_body (h : ∀ n ∈ body, Fits W .statement n) (hscope : IsOpen os scope)
    (ht : Records t ds os known) :
    Records (declareAll scope body t) (ds ++ Declaration.allIn scope (allDeclared false known body)) os known :=
  .declareAll (fun n hn _ _ ht => (h n hn).records_statement rfl hscope ht) ht

theorem records_routine (hbody : ∀ n ∈ body, Fits W .statement n) (hparent : IsOpen os parent)
    (hf : f.scope = parent) (ht : Records t ds os known) :
    Records (declareAll scope body (declareParams scope params ((t.addFunction f).ensureScope scope (some parent))))
      (ds ++ Declaration.allIn scope (parameters params ++ allDeclared false known body)) (os ++ [(scope, parent)])
      known := by
  have hopen : IsOpen (os ++ [(scope, parent)]) scope := isOpen_append_singleton os _
  have hparams := ((ht.addFunction (hf ▸ hparent)).ensureScope hparent scope).declareParams hopen params
  rw [Declaration.allIn_append, ← List.append_assoc]
  exact Fits.records_body hbody hopen hparams

def declareIn : Option String → Node → SymbolTable → SymbolTable
  | some cls, n, t => declareMembers cls [n] t
  | none, n, t => declare "global" n t

theorem declareMembers_cons (cls : String) (n : Node) (ns : List Node) (t : SymbolTable) :
    declareMembers cls (n :: ns) t = declareMembers cls ns (declareIn (some cls) n t) := by
  cases n with
  | function _ _ body => cases body <;> rfl
  | _ => rfl

theorem Node.in_of_isFunction_eq_false (h : n.isFunction = false) (owner : Option String) (known : List String) :
    n.blocksIn owner known = [] ∧
      n.declarationsIn owner known = Declaration.allIn (owner.getD "global") (n.declared false known) := by
  cases n with
  | function => cases h
  | _ => exact ⟨rfl, rfl⟩

theorem declareIn_of_isFunction_eq_false (h : n.isFunction = false) (owner : Option String) (t : SymbolTable) :
    declareIn owner n t = declare (owner.getD "global") n t := by
  cases owner with
  | none => rfl
  | some =>
    cases n with
    | function => cases h
    | _ => rfl

theorem Fits.records_member (h : Fits W .member n) (owner : Option String) (hopen : IsOpen os (owner.getD "global"))
    (ht : Records t ds os known) :
    Records (declareIn owner n t) (ds ++ n.declarationsIn owner known)
      (os ++ (n.blocksIn owner known).map Block.opening) known := by
  cases h with
  | function _ _ _ _ hbody =>
    cases owner with
    | none | some => exact records_routine hbody hopen rfl ht
  | plainMember h =>
    have hfunction : n.isFunction = false := by cases h <;> rfl
    obtain ⟨hblocks, hdeclarations⟩ := in_of_isFunction_eq_false hfunction owner known
    rw [declareIn_of_isFunction_eq_false hfunction, hblocks, hdeclarations, map_nil, append_nil]
    exact h.records_statement rfl hopen ht

theorem Fits.records_members (h : ∀ n ∈ body, Fits W .member n) (hopen : IsOpen os cls) (ht : Records t ds os known) :
    Records (declareMembers cls body t) (ds ++ body.flatMap (declarationsIn (some cls) known))
      (os ++ (body.flatMap (blocksIn (some cls) known)).map Block.opening) known := by
  induction body generalizing t ds os with
  | nil =>
    change Records t (ds ++ []) (os ++ []) known
    rwa [append_nil, append_nil]
  | cons n body ih =>
    have hn := (h n (.head body)).records_member (some cls) hopen ht
    have hrest := ih (fun k hk => h k (.tail n hk)) (hopen.append _) hn
    rw [declareMembers_cons, flatMap_cons, flatMap_cons, map_append, ← List.append_assoc,
      ← List.append_assoc]
    exact hrest

theorem records_class (cls : String) (fields : List Node) (h : ∀ n ∈ body, Fits W .member n)
    (ht : Records t ds os known) :
    Records (declareMembers cls body (declareParams cls fields ((t.addClass cls c).ensureScope cls (some "global"))))
      (ds ++ (Declaration.allIn cls (parameters fields) ++ body.flatMap (declarationsIn (some cls) (known ++ [cls]))))
      (os ++ (cls, "global") :: (body.flatMap (blocksIn (some cls) (known ++ [cls]))).map Block.opening)
      (known ++ [cls]) := by
  have hopen : IsOpen (os ++ [(cls, "global")]) cls := isOpen_append_singleton os _
  have hfields := ((ht.addClass cls c).ensureScope (isOpen_global os) cls).declareParams hopen fields
  rw [← List.append_assoc, append_cons os]
  exact Fits.records_members h hopen hfields

theorem Fits.typeName?_eq_none (h : Fits W .member n) : n.typeName? = none := by
  cases h with
  | function => rfl
  | plainMember h => cases h <;> rfl

theorem Fits.records_top (h : Fits W .top n) (ht : Records t ds os known) :
    Records (declare "global" n t) (ds ++ n.topDeclarations (known ++ n.typeName?.toList))
      (os ++ (n.topBlocks (known ++ n.typeName?.toList)).map Block.opening) (known ++ n.typeName?.toList) := by
  cases h with
  | plainTop h =>
    rw [topDeclarations, topBlocks, h.typeName?_eq_none, Option.toList_none, append_nil]
    exact h.records_member none (isOpen_global os) ht
  | @classDecl head _ _ _ _ _ _ hbody => exact records_class head.name [] hbody ht
  | @dataClass name fields _ _ _ _ _ _ hbody => exact records_class name fields hbody ht
  | @enumDecl name _ _ _ _ _ _ hbody => exact records_class name [] hbody ht
  | interface =>
    change Records (t.addInterface _ _) (ds ++ Declaration.allIn "global" []) (os ++ []) (known ++ [])
    rw [append_nil, append_nil]
    exact (ht.addInterface _ _).nothing "global"

theorem Fits.records_tops (h : ∀ n ∈ ns, Fits W .top n) (ht : Records t ds os known) :
    Records (declareAll "global" ns t) (ds ++ (withKnown known ns).flatMap fun i => i.2.topDeclarations i.1)
      (os ++ ((withKnown known ns).flatMap fun i => i.2.topBlocks i.1).map Block.opening)
      (known ++ ns.filterMap typeName?) := by
  induction ns generalizing t ds os known with
  | nil =>
    change Records t (ds ++ []) (os ++ []) (known ++ [])
    rwa [append_nil, append_nil, append_nil]
  | cons n ns ih =>
    have hrest := ih (fun k hk => h k (.tail n hk)) ((h n (.head ns)).records_top ht)
    have hnames : (n :: ns).filterMap typeName? = n.typeName?.toList ++ ns.filterMap typeName? := by
      rw [filterMap_cons]
      cases n.typeName? <;> rfl
    rw [declareAll, withKnown, flatMap_cons, flatMap_cons, map_append, hnames, ← List.append_assoc,
      ← List.append_assoc, ← List.append_assoc]
    exact hrest

theorem Fits.records_symbols (h : Fits W .program m) : Records m.symbols m.declarations m.openings m.typeNames := by
  cases h with
  | module hbody =>
    have hall := records_tops hbody Records.empty
    rwa [nil_append, nil_append, nil_append] at hall

end

/-! ### Who declares a name -/

namespace Node

variable {known : List String} {n : Node}

theorem mem_declarationsIn_iff :
    d ∈ n.declarationsIn owner known ↔ (d.scope = owner.getD "global" ∧ (d.name, d.type) ∈ n.declared false known) ∨
      ∃ b ∈ n.blocksIn owner known, d.scope = b.scope ∧ (d.name, d.type) ∈ b.node.ownDeclared false b.known := by
  cases hfunction : n.isFunction with
  | true =>
    cases n with
    | function => simp [declarationsIn, blocksIn, declared, Declaration.mem_allIn]
    | _ => cases hfunction
  | false =>
    obtain ⟨hblocks, hdeclarations⟩ := in_of_isFunction_eq_false hfunction owner known
    simp [hblocks, hdeclarations, Declaration.mem_allIn]

theorem declared_of_typeName? (h : n.typeName? = some cls) (branches : Bool) (known : List String) :
    n.declared branches known = [] ∧
      n.ownDeclared branches known = parameters n.fieldNodes ++ n.members.flatMap (declared branches known) := by
  cases n with
  | classDecl | dataClass | enumDecl => exact ⟨rfl, rfl⟩
  | _ => cases h

theorem mem_topDeclarations_iff :
    d ∈ n.topDeclarations known ↔ (d.scope = "global" ∧ (d.name, d.type) ∈ n.declared false known) ∨
      ∃ b ∈ n.topBlocks known, d.scope = b.scope ∧ (d.name, d.type) ∈ b.node.ownDeclared false b.known := by
  unfold topDeclarations topBlocks
  split
  · next cls hcls =>
    obtain ⟨hnone, hown⟩ := declared_of_typeName? hcls false known
    simp only [hnone, not_mem_nil, and_false, false_or, mem_append, mem_flatMap, mem_cons,
      Declaration.mem_allIn, mem_declarationsIn_iff, Option.getD_some]
    constructor
    · rintro (⟨hscope, hfield⟩ | ⟨k, hk, ⟨hscope, hmember⟩ | ⟨b, hb, hd⟩⟩)
      · exact ⟨_, .inl rfl, hscope, hown ▸ mem_append_left _ hfield⟩
      · exact ⟨_, .inl rfl, hscope, hown ▸ mem_append_right _ (mem_flatMap.2 ⟨k, hk, hmember⟩)⟩
      · exact ⟨b, .inr ⟨k, hk, hb⟩, hd⟩
    · rintro ⟨b, rfl | ⟨k, hk, hb⟩, hscope, hd⟩
      · rw [hown, mem_append, mem_flatMap] at hd
        rcases hd with hfield | ⟨k, hk, hmember⟩
        · exact .inl ⟨hscope, hfield⟩
        · exact .inr ⟨k, hk, .inl ⟨hscope, hmember⟩⟩
      · exact .inr ⟨k, hk, .inr ⟨b, hb, hscope, hd⟩⟩
  · exact mem_declarationsIn_iff

/-- The names that the statements of a program declare outside its blocks. -/
def moduleDeclared (branches : Bool) (m : Node) : List (String × Option String) :=
  m.items.flatMap fun i => i.2.declared branches i.1

theorem mem_declarations_iff {m : Node} :
    d ∈ m.declarations ↔ (d.scope = "global" ∧ (d.name, d.type) ∈ m.moduleDeclared false) ∨
      ∃ b ∈ m.blocks, d.scope = b.scope ∧ (d.name, d.type) ∈ b.node.ownDeclared false b.known := by
  simp only [declarations, moduleDeclared, blocks, mem_flatMap, mem_topDeclarations_iff]
  constructor
  · rintro ⟨i, hi, ⟨hscope, hd⟩ | ⟨b, hb, hd⟩⟩
    · exact .inl ⟨hscope, i, hi, hd⟩
    · exact .inr ⟨b, ⟨i, hi, hb⟩, hd⟩
  · rintro (⟨hscope, i, hi, hd⟩ | ⟨b, ⟨i, hi, hb⟩, hd⟩)
    · exact ⟨i, hi, .inl ⟨hscope, hd⟩⟩
    · exact ⟨i, hi, .inr ⟨b, hb, hd⟩⟩

end Node

end BraceLang
