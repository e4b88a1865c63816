import BraceLang.Proofs.DeclaredScopes
import Mathlib.Data.List.Nodup

/-!
# Chains of scopes

A scope is made once, inside a scope that is there already, whatever names the declarations of a program have and
however often they are repeated (`Nested`).
-/

namespace BraceLang

open List NameMap Node

variable {m : List (String × Option String)} {f : FunctionSymbol} {body : List Node} {outer : Option String}

namespace SymbolTable

/-- The scopes in the order in which they were made, each with the scope around it. -/
def nesting (t : SymbolTable) : List (String × Option String) := t.scopes.map fun e => (e.1, e.2.parent)

def IsScope (t : SymbolTable) (scope : String) : Prop := scope ∈ t.nesting.map Prod.fst

def Inside (t : SymbolTable) (scope parent : String) : Prop := (scope, some parent) ∈ t.nesting

/-- Scopes made one after the other: the outermost first, and every other one, under a new name, inside one of those
before it. -/
inductive Nested : List (String × Option String) → Prop
  | root : Nested [("global", none)]
  | inside {m : List (String × Option String)} {name parent : String} (h : Nested m) (hnew : name ∉ m.map Prod.fst)
      (hparent : parent ∈ m.map Prod.fst) : Nested (m ++ [(name, some parent)])

/-- The second table has the scopes of the first, and those made after them. -/
def Grows (t t' : SymbolTable) : Prop := t.nesting <+: t'.nesting ∧ (Nested t.nesting → Nested t'.nesting)

variable {t t' : SymbolTable} {scope : String}

theorem isScope_iff : t.IsScope scope ↔ has t.scopes scope := by
  rw [IsScope, nesting, List.map_map, has_iff_mem_map_fst]
  rfl

/-! ### What a declaration does to the scopes -/

theorem grows_of_eq (h : t'.nesting = t.nesting) : t.Grows t' := by
  rw [Grows, h]
  exact ⟨prefix_refl _, id⟩

theorem Grows.trans (h : t.Grows t') (h' : t'.Grows t'') : t.Grows t'' :=
  ⟨h.1.trans h'.1, fun hnested => h'.2 (h.2 hnested)⟩

theorem Grows.isScope (h : t.Grows t') (hscope : t.IsScope scope) : t'.IsScope scope :=
  (h.1.map Prod.fst).subset hscope

theorem nesting_changeScope (h : t.IsScope scope) {f : ScopeSymbol → ScopeSymbol} (hf : ∀ s, (f s).parent = s.parent) :
    (t.changeScope scope f).nesting = t.nesting := by
  obtain ⟨s, hs⟩ := Option.isSome_iff_exists.1 (isScope_iff.1 h)
  rw [nesting, changeScope, change, hs]
  exact map_put hs _ (by rw [Option.getD_some, hf])

theorem grows_addVariable (h : t.IsScope scope) (name : String) (type : Option String) (n : Node) :
    t.Grows (t.addVariable scope name type n) :=
  grows_of_eq (nesting_changeScope h fun _ => rfl)

theorem grows_addFunction (h : t.IsScope f.scope) : t.Grows (t.addFunction f) :=
  grows_of_eq (nesting_changeScope h fun _ => rfl)

theorem grows_ensureScope (h : t.IsScope parent) (name : String) : t.Grows (t.ensureScope name (some parent)) := by
  by_cases hname : t.IsScope name
  · refine grows_of_eq ?_
    rw [nesting, ensureScope, putNew, if_pos (isScope_iff.1 hname)]
    rfl
  · have hnew : (t.ensureScope name (some parent)).nesting = t.nesting ++ [(name, some parent)] := by
      rw [nesting, ensureScope, putNew, if_neg (mt isScope_iff.2 hname), map_append]
      rfl
    rw [Grows, hnew]
    exact ⟨prefix_append _ _, fun hnested => .inside hnested hname h⟩

theorem isScope_ensureScope (t : SymbolTable) (name : String) (parent : Option String) :
    (t.ensureScope name parent).IsScope name := by
  rw [isScope_iff, ensureScope, has, get?_putNew, if_pos rfl, Option.isSome_or]
  simp

theorem grows_open (h : t.IsScope parent) (scope : String) (params : List Node) :
    t.Grows (declareParams scope params (t.ensureScope scope (some parent))) ∧
      (declareParams scope params (t.ensureScope scope (some parent))).IsScope scope := by
  have hopen := grows_ensureScope h scope
  have hscope := isScope_ensureScope t scope (some parent)
  generalize t.ensureScope scope (some parent) = t' at hopen hscope
  induction params generalizing t' with
  | nil => exact ⟨hopen, hscope⟩
  | cons p params ih =>
    cases p with
    | parameter name type default annotations =>
      have hadd := grows_addVariable hscope name type (.parameter name type default annotations)
      exact ih _ (hopen.trans hadd) (hadd.isScope hscope)
    | _ => exact ih t' hopen hscope

theorem grows_declareAssigned (h : t.IsScope scope) (n : Node) : t.Grows (declareAssigned scope n t) := by
  unfold declareAssigned
  split
  · exact grows_addVariable h ..
  · split
    · split
      · exact grows_of_eq rfl
      · exact grows_addVariable h ..
    · exact grows_of_eq rfl
  · exact grows_of_eq rfl

/-- A statement, at the level of a function or of a class, makes scopes only inside scopes that are there. -/
def Opens (n : Node) : Prop := ∀ ⦃t : SymbolTable⦄ ⦃scope : String⦄, t.IsScope scope →
  t.Grows (declare scope n t) ∧ t.Grows (declareMembers scope [n] t)

theorem grows_declareAll (hbody : ∀ n ∈ body, Opens n) (h : t.IsScope scope) :
    t.Grows (declareAll scope body t) := by
  induction body generalizing t with
  | nil => exact grows_of_eq rfl
  | cons n ns ih =>
    obtain ⟨hn, hns⟩ := forall_mem_cons.1 hbody
    have hfirst := (hn h).1
    exact hfirst.trans (ih hns (hfirst.isScope h))

theorem grows_declareMembers (hbody : ∀ n ∈ body, Opens n) (h : t.IsScope scope) :
    t.Grows (declareMembers scope body t) := by
  induction body generalizing t with
  | nil => exact grows_of_eq rfl
  | cons n ns ih =>
    obtain ⟨hn, hns⟩ := forall_mem_cons.1 hbody
    have hfirst := (hn h).2
    rw [declareMembers_cons]
    exact hfirst.trans (ih hns (hfirst.isScope h))

theorem grows_routine (hbody : ∀ n ∈ ns, Opens n) (h : t.IsScope f.scope)
    (inner : String) (params : List Node) : t.Grows (declareAll inner ns
      (declareParams inner params ((t.addFunction f).ensureScope inner (some f.scope)))) := by
  have hadd := grows_addFunction h
  obtain ⟨hgrows, hinner⟩ := grows_open (hadd.isScope h) inner params
  exact hadd.trans (hgrows.trans (grows_declareAll hbody hinner))

theorem opens (n : Node) : Opens n := by
  induction n using body_induction with
  | h n ih =>
    intro t scope h
    have hclass (name : String) (c : ClassSymbol) (fields : List Node) {body : List Node}
        (hbody : n.body? = some body) :
        t.Grows (declareMembers name body
          (declareParams name fields ((t.addClass name c).ensureScope name (some scope)))) := by
      have hadd : t.Grows (t.addClass name c) := grows_of_eq rfl
      obtain ⟨hgrows, hinner⟩ := grows_open (hadd.isScope h) name fields
      exact hadd.trans (hgrows.trans (grows_declareMembers (ih body hbody) hinner))
    cases n with
    | function head params body =>
      let f : FunctionSymbol := ⟨head.name, params, head.returnType, scope⟩
      have hroutine {ns : List Node} (hns : ∀ n ∈ ns, Opens n) (inner : String) :=
        grows_routine (f := f) hns h inner params
      cases body with
      | none => exact ⟨hroutine (forall_mem_nil _) _, hroutine (forall_mem_nil _) _⟩
      | some ns => exact ⟨hroutine (ih ns rfl) _, hroutine (ih ns rfl) _⟩
    | classDecl head => exact ⟨hclass head.name _ [] rfl, hclass head.name _ [] rfl⟩
    | dataClass name fields => exact ⟨hclass name _ fields rfl, hclass name _ fields rfl⟩
    | enumDecl name => exact ⟨hclass name _ [] rfl, hclass name _ [] rfl⟩
    | module | forLoop | whileLoop | case => exact ⟨grows_declareAll (ih _ rfl) h, grows_declareAll (ih _ rfl) h⟩
    | expression value => exact ⟨grows_declareAssigned h value, grows_declareAssigned h value⟩
    | finalDecl target =>
      cases target with
      | identifier => exact ⟨grows_addVariable h .., grows_addVariable h ..⟩
      | _ => exact ⟨grows_of_eq rfl, grows_of_eq rfl⟩
    | _ => exact ⟨grows_of_eq rfl, grows_of_eq rfl⟩

theorem nested_symbols (body : List Node) : Nested (Node.module body).symbols.nesting :=
  (grows_declareAll (fun n _ => opens n) (mem_singleton.2 rfl)).2 .root

/-! ### The scopes around a scope -/

namespace Nested

theorem nodup (h : Nested m) : (m.map Prod.fst).Nodup := by
  induction h with
  | root => exact nodup_singleton _
  | inside h hnew _ ih =>
    rw [map_append, nodup_append']
    exact ⟨ih, nodup_singleton _, by simpa using hnew⟩

theorem head (h : Nested m) : m.head? = some ("global", none) := by
  induction h with
  | root => rfl
  | inside _ _ _ ih => rw [head?_append, ih, Option.some_or]

theorem parent (h : Nested m) {before after : List (String × Option String)} {name : String}
    (hm : m = before ++ (name, outer) :: after) (hname : name ≠ "global") :
    ∃ parent ∈ before.map Prod.fst, outer = some parent := by
  induction h generalizing after with
  | root =>
    cases before with
    | nil => cases hm; exact absurd rfl hname
    | cons => simp at hm
  | inside h hnew hparent ih =>
    rcases eq_nil_or_concat after with rfl | ⟨after, last, rfl⟩
    · obtain ⟨rfl, hlast⟩ := append_inj' hm rfl
      cases hlast
      exact ⟨_, hparent, rfl⟩
    · rw [concat_eq_append, ← cons_append, ← List.append_assoc] at hm
      exact ih (append_inj' hm rfl).1

-- The chain of a new scope is the chain of the scope around it, which was there before.
theorem exists_chain (h : Nested m) (hscope : scope ∈ m.map Prod.fst) : ∃ outer : List String,
    (scope :: outer).IsChain (fun s p => (s, some p) ∈ m) ∧ (scope :: outer).getLast? = some "global" ∧
      outer.length < m.length := by
  induction h generalizing scope with
  | root =>
    cases mem_singleton.1 hscope
    exact ⟨[], .singleton _, rfl, Nat.zero_lt_one⟩
  | @inside m name parent h hnew hparent ih =>
    have hmono {c : List String} (hc : c.IsChain fun s p => (s, some p) ∈ m) :=
      hc.imp fun s p (hmem : (s, some p) ∈ m) => mem_append_left [(name, some parent)] hmem
    rw [map_append, mem_append] at hscope
    rcases hscope with hscope | hscope
    · obtain ⟨outer, hchain, hlast, hlength⟩ := ih hscope
      exact ⟨outer, hmono hchain, hlast, by simp; omega⟩
    · cases mem_singleton.1 hscope
      obtain ⟨outer, hchain, hlast, hlength⟩ := ih hparent
      exact ⟨parent :: outer, .cons_cons (by simp) (hmono hchain), by rwa [getLast?_cons_cons], by simp; omega⟩

end Nested

theorem parent_eq (h : Nested t.nesting)
    (hs : get? t.scopes scope = some s) (hscope : (scope, outer) ∈ t.nesting) : s.parent = outer := by
  obtain ⟨before, after, hscopes, -⟩ := lookup_eq_some_iff.1 hs
  have hmem : (scope, s.parent) ∈ t.nesting := by simp [nesting, hscopes]
  exact congrArg Prod.snd (inj_on_of_nodup_map h.nodup hmem hscope rfl)

theorem lookupWithin_succ (h : Nested t.nesting) (name : String) (n : Nat) (hscope : (scope, outer) ∈ t.nesting)
    (hname : scope ≠ "") : t.lookupWithin name (n + 1) scope =
      (t.variableIn? scope name).or (outer.bind (t.lookupWithin name n)) := by
  obtain ⟨s, hs⟩ := Option.isSome_iff_exists.1 (isScope_iff.1 (mem_map_of_mem hscope))
  rw [lookupWithin, if_neg (by simpa using hname), variableIn?, hs, Option.bind_some, ← parent_eq h hs hscope]
  cases hlocal : get? s.locals name <;> simp [hlocal]

theorem lookupWithin_chain (h : Nested t.nesting) (name : String) {outer : List String}
    (hchain : (scope :: outer).IsChain t.Inside) (hlast : (scope :: outer).getLast? = some "global")
    (hn : outer.length < n) :
    t.lookupWithin name n scope = ((scope :: outer).takeWhile (· ≠ "")).findSome? fun s => t.variableIn? s name := by
  induction outer generalizing scope n with
  | nil =>
    obtain ⟨n, rfl⟩ := Nat.exists_eq_add_one_of_ne_zero (Nat.ne_zero_of_lt hn)
    cases hlast
    have htop : ("global", none) ∈ t.nesting := mem_of_head? h.head
    rw [lookupWithin_succ h name n htop (by decide)]
    cases hglobal : t.variableIn? "global" name <;> simp [hglobal]
  | cons parent outer ih =>
    obtain ⟨n, rfl⟩ := Nat.exists_eq_add_one_of_ne_zero (Nat.ne_zero_of_lt hn)
    by_cases hname : scope = ""
    · rw [hname]
      rfl
    · obtain ⟨hinside, hrest⟩ := isChain_cons_cons.1 hchain
      rw [getLast?_cons_cons] at hlast
      rw [takeWhile_cons_of_pos (by simpa using hname), findSome?_cons, lookupWithin_succ h name n hinside hname,
        Option.bind_some, ih hrest hlast (Nat.lt_of_succ_lt_succ hn)]
      cases t.variableIn? scope name <;> rfl

end SymbolTable

/-- In the table of a program the outermost scope has no scope around it, and every other scope was made after the scope
around it.  The scopes around a scope lead to the outermost one, and the search for a variable ends with that of the
nearest of them that has one, up to a scope without a name. -/
theorem symbols_scope_chains (body : List Node) :
    (∃ s rest, (module body).symbols.scopes = ("global", s) :: rest ∧ s.parent = none) ∧
    ((module body).symbols.scopes.map Prod.fst).Nodup ∧
    (∀ before scope s after, (module body).symbols.scopes = before ++ (scope, s) :: after → scope ≠ "global" →
      ∃ parent ∈ before.map Prod.fst, s.parent = some parent) ∧
    ∀ scope, has (module body).symbols.scopes scope → ∃ outer : List String,
      (scope :: outer).IsChain (module body).symbols.Inside ∧ (scope :: outer).getLast? = some "global" ∧
        outer.length < (module body).symbols.scopes.length ∧
        ∀ name n, outer.length < n → (module body).symbols.lookup scope name =
            (module body).symbols.lookupWithin name n scope ∧
          (module body).symbols.lookup scope name = ((scope :: outer).takeWhile (· ≠ "")).findSome? fun s =>
            (module body).symbols.variableIn? s name := by
  have h := SymbolTable.nested_symbols body
  generalize (module body).symbols = t at h ⊢
  have hlength : t.nesting.length = t.scopes.length := List.length_map _
  refine ⟨?_, ?_, fun before scope s after hscopes hscope => ?_, fun scope hscope => ?_⟩
  · obtain ⟨rest, hrest⟩ := List.head?_eq_some_iff.1 h.head
    obtain ⟨⟨_, s⟩, scopes, hscopes, heq, -⟩ := List.map_eq_cons_iff.1 hrest
    obtain ⟨rfl, hparent⟩ := Prod.mk.inj heq
    exact ⟨s, scopes, hscopes, hparent⟩
  · have hnodup := h.nodup
    rwa [SymbolTable.nesting, List.map_map] at hnodup
  · have hsplit : t.nesting = before.map (fun e => (e.1, e.2.parent)) ++ (scope, s.parent) ::
        after.map fun e => (e.1, e.2.parent) := by simp [SymbolTable.nesting, hscopes]
    obtain ⟨parent, hparent, heq⟩ := h.parent hsplit hscope
    rw [List.map_map] at hparent
    exact ⟨parent, hparent, heq⟩
  · obtain ⟨outer, hchain, hlast, hless⟩ := h.exists_chain (SymbolTable.isScope_iff.2 hscope)
    rw [hlength] at hless
    refine ⟨outer, hchain, hlast, hless, fun name n hn => ?_⟩
    have hlookup := SymbolTable.lookupWithin_chain h name hchain hlast (Nat.lt_succ_of_lt hless)
    exact ⟨hlookup.trans (SymbolTable.lookupWithin_chain h name hchain hlast hn).symm, hlookup⟩

/-- A class without a name has a scope, but the variables of that scope are not found from it. -/
theorem exists_variable_not_found :
    let value := literal (.text "1") .number
    let t := (module [classDecl { name := "" }
      [expression (assignment (identifier "x") value (some "=") (some "int") {}) true] [] []]).symbols
    has t.scopes "" = true ∧ (t.variableIn? "" "x").isSome ∧ (t.lookup "" "x").isSome = false := by
  decide

end BraceLang
