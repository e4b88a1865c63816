import BraceLang.Proofs.BoundArguments
import BraceLang.Proofs.ProgramText
import Mathlib.Data.List.Forall2

/-!
# Which calls are accepted

A call in Python binds its arguments to parameters in order and by name, leaves out parameters with defaults, and
passes the receiver for a parameter that is written as `self` (`boundTo`).
-/

namespace BraceLang

open List NameMap

namespace Node

variable {args params : List Node} {pairs : List (Node × Node)}

def hasDefault : Node → Bool
  | parameter _ _ default _ => default ≠ .absent
  | _ => false

def keyword? : Node → Option (String × Node)
  | argument (some name) value => some (name, value)
  | _ => none

def keywords (arguments : List Node) : NameMap Node := arguments.filterMap keyword?

def positionals (arguments : List Node) : List Node := arguments.filter fun a => a.keyword?.isNone

/-- Which argument each parameter gets: arguments in order first, then those with a name, and a parameter with a default
may get none. -/
def boundTo : List Node → List Node → NameMap Node → Option (List (Node × Node))
  | [], [], [] => some []
  | [], _, _ => none
  | p :: params, a :: args, named =>
    if has named p.name then none else (boundTo params args named).map ((p, a) :: ·)
  | p :: params, [], named =>
    match get? named p.name with
    | some a => (boundTo params [] (NameMap.erase p.name named)).map ((p, a) :: ·)
    | none => if p.hasDefault then boundTo params [] named else none

theorem positionals_eq_self (h : keywords arguments = []) : positionals arguments = arguments := by
  refine filter_eq_self.2 fun a ha => ?_
  rw [filterMap_eq_nil_iff.1 h a ha, Option.isNone_none]

theorem length_le_of_boundTo (h : boundTo params args named = some pairs) : args.length ≤ params.length := by
  induction params generalizing args named pairs with
  | nil =>
    cases args with
    | nil => exact Nat.le_refl 0
    | cons => cases h
  | cons p params ih =>
    cases args with
    | nil => exact Nat.zero_le _
    | cons =>
      rw [boundTo] at h
      obtain ⟨-, h⟩ := Option.ite_none_left_eq_some.1 h
      obtain ⟨rest, hrest, -⟩ := Option.map_eq_some_iff.1 h
      exact Nat.succ_le_succ (ih hrest)

theorem boundTo_eq_zip (hlength : args.length = params.length) (h : boundTo params args [] = some pairs) :
    pairs = params.zip args := by
  induction params generalizing args pairs with
  | nil =>
    cases length_eq_zero_iff.1 hlength
    cases h
    rfl
  | cons p params ih =>
    obtain ⟨a, args, rfl⟩ := exists_cons_of_length_eq_add_one hlength
    rw [boundTo] at h
    obtain ⟨-, h⟩ := Option.ite_none_left_eq_some.1 h
    obtain ⟨rest, hrest, rfl⟩ := Option.map_eq_some_iff.1 h
    rw [ih (Nat.succ.inj hlength) hrest, zip_cons_cons]

end Node

namespace SymbolTable

open Node

variable (t : SymbolTable) (scope : String)

/-- The parameters of a function that a call of it binds: not the receiver, if it is written as a parameter. -/
def Callee.bindable (c : Callee) (f : FunctionSymbol) : List Node :=
  if c.owner.isSome && (f.params.head?.map Node.name == some "self") then f.params.tail else f.params

def Callee.typeParams (c : Callee) : List String :=
  ((c.owner.bind (get? t.classes)).map (·.typeParameters)).getD []

def Callee.known (c : Callee) (s : TypeCheck) : Bindings :=
  ((c.receiver.filter (!·.isEmpty)).bind (get? s.bindings)).getD []

/-- The type of the argument is known, and it is one that the parameter is declared to take. -/
def takes (param arg : Node) : Bool := t.argumentsFit [t.typeOf scope arg] (declaredTypes [param])

/-- The arguments bind to the function, and each parameter takes its argument. -/
def binds (c : Callee) (f : FunctionSymbol) (arguments : List Node) : Bool :=
  (boundTo (c.bindable f) (positionals arguments) (keywords arguments)).any fun pairs =>
    pairs.all fun e => t.takes scope e.1 e.2

variable {t scope}

theorem findings_checkCall_iff {callee : Node} {arguments : List Node} {s : TypeCheck} {c : Callee}
    (hc : t.callee? scope callee = some c) :
    (t.checkCall scope callee arguments s).findings = s.findings ↔ c.functions = [] ∨ ∃ f ∈ c.functions, ∃ new,
      t.bindArguments (c.typeParams t) (c.known s) (arguments.map (t.typeOf scope)) (declaredTypes f.params) =
        some new := by
  rw [checkCall, hc, Callee.typeParams, Callee.known]
  dsimp only
  cases hfunctions : c.functions with
  | nil => simp
  | cons f fs =>
    dsimp only
    split
    · next hfound =>
      have hnone := findSome?_eq_none_iff.1 hfound
      refine iff_of_false (by simp) ?_
      rintro (hnil | ⟨f', hf', new, hnew⟩)
      · cases hnil
      · exact Option.some_ne_none new (hnew.symm.trans (hnone f' hf'))
    · next new hfound =>
      obtain ⟨f', hf', hnew⟩ := exists_of_findSome?_eq_some hfound
      refine iff_of_true ?_ (.inr ⟨f', hf', new, hnew⟩)
      split
      · split <;> rfl
      · rfl

theorem exists_of_takes (h : t.takes scope param arg) :
    ∃ a p, t.typeOf scope arg = some a ∧ declaredTypes [param] = [some p] ∧ t.isAssignable a p := by
  obtain ⟨p, hp⟩ : ∃ p, declaredTypes [param] = [p] := ⟨_, rfl⟩
  rw [takes, hp] at h
  rw [hp]
  cases ha : t.typeOf scope arg with
  | none => simp [ha, argumentsFit] at h
  | some a =>
    cases p with
    | none => simp [ha, argumentsFit] at h
    | some p => exact ⟨a, p, rfl, rfl, by simpa [ha, argumentsFit] using h⟩

theorem suitsAll_of_takes (choice : String → Option String)
    (h : Forall₂ (fun p a => t.takes scope p a = true) params args)
    (hplain : ∀ p ∈ typeParams, some p ∉ declaredTypes params) :
    (∀ a ∈ args, (t.typeOf scope a).isSome) ∧ (∀ p ∈ declaredTypes params, p.isSome) ∧
      t.SuitsAll typeParams choice (args.map (t.typeOf scope)) (declaredTypes params) := by
  induction h with
  | nil => simp [SuitsAll, declaredTypes]
  | @cons param arg params args hfirst _ ih =>
    obtain ⟨a, p, ha, hp, hassignable⟩ := exists_of_takes hfirst
    have hdeclared : declaredTypes (param :: params) = some p :: declaredTypes params :=
      congrArg (· ++ declaredTypes params) hp
    rw [hdeclared] at hplain ⊢
    obtain ⟨hargs, hparams, hsuits⟩ := ih fun q hq hmem => hplain q hq (mem_cons_of_mem _ hmem)
    refine ⟨forall_mem_cons.2 ⟨by rw [ha, Option.isSome_some], hargs⟩, forall_mem_cons.2 ⟨rfl, hparams⟩, ?_⟩
    intro b q hmem
    rw [map_cons, ha, zip_cons_cons, mem_cons] at hmem
    rcases hmem with hmem | hmem
    · cases hmem
      rw [Suits, if_neg fun hq => hplain p hq mem_cons_self]
      exact hassignable
    · exact hsuits b q hmem

/-- A call of functions is accepted, whatever has been learned before, just if one of them has as many parameters as the
call has arguments, all types are known, and some choice for the type parameters suits every position.  This is so if
the arguments bind to a function with one argument for each declared parameter, none of them by name, and no parameter
is of the type of a type parameter. -/
theorem checkCall_accepts {callee : Node} {c : Callee} (hc : t.callee? scope callee = some c) (arguments : List Node)
    (s : TypeCheck) :
    ((t.checkCall scope callee arguments s).findings = s.findings ↔ c.functions = [] ∨ ∃ f ∈ c.functions,
      arguments.length = f.params.length ∧ (∀ a ∈ arguments, (t.typeOf scope a).isSome) ∧
        (∀ p ∈ declaredTypes f.params, p.isSome) ∧ ∃ choice, Respects choice (c.known s) ∧
          t.SuitsAll (c.typeParams t) choice (arguments.map (t.typeOf scope)) (declaredTypes f.params)) ∧
    ∀ f ∈ c.functions, t.binds scope c f arguments → arguments.length = f.params.length →
      keywords arguments = [] →
      (∀ p ∈ c.typeParams t, some p ∉ declaredTypes f.params) →
      (t.checkCall scope callee arguments s).findings = s.findings := by
  have hlength (f : FunctionSymbol) : (arguments.map (t.typeOf scope)).length = (declaredTypes f.params).length ↔
      arguments.length = f.params.length := by
    rw [length_map, declaredTypes, length_map]
  have hiff := @findings_checkCall_iff t scope callee arguments s c hc
  simp only [exists_bindArguments_iff, hlength, forall_mem_map] at hiff
  refine ⟨hiff, fun f hf hbinds hcount hkeywords hplain => hiff.2 (.inr ⟨f, hf, hcount, ?_⟩)⟩
  obtain ⟨pairs, hpairs, hsuits⟩ := (Option.any_eq_true _ _).1 hbinds
  rw [positionals_eq_self hkeywords, hkeywords] at hpairs
  -- The receiver is not among the parameters: there would be one argument too many.
  have hparams : c.bindable f = f.params := by
    have hle := length_le_of_boundTo hpairs
    unfold Callee.bindable at hle ⊢
    split
    · next hself =>
      cases hfunction : f.params with
      | nil => simp [hfunction] at hself
      | cons =>
        rw [if_pos hself, length_tail, hcount, hfunction, length_cons] at hle
        omega
    · rfl
  rw [hparams] at hpairs
  rw [boundTo_eq_zip hcount hpairs, all_eq_true] at hsuits
  have htakes := forall₂_iff_zip.2 ⟨hcount.symm, fun h => hsuits _ h⟩
  obtain ⟨hargs, hdeclared, hall⟩ := suitsAll_of_takes (get? (c.known s)) htakes hplain
  exact ⟨hargs, hdeclared, _, fun _ _ h => h, hall⟩

/-- `f(1)`, where `f` has one parameter of the type `int`. -/
theorem checkCall_accepts_positional :
    let t := (Node.module [.function { name := "f" } [.parameter "a" (some "int") .absent []] (some []) [] []]).symbols
    (t.checkCall "global" (.identifier "f") [.literal (.text "1") .number] {}).findings = [] := by
  intro t
  have hc : t.callee? "global" (.identifier "f") = some ⟨t.globalFunctions "f", none, none⟩ := rfl
  refine (checkCall_accepts hc _ {}).2 _ mem_cons_self ?_ ?_ ?_ ?_
  · decide
  · decide
  · rfl
  · decide

/-- Calls that Python binds and that are reported: with a default, with a name, and with the receiver as a parameter. -/
theorem exists_bound_call_reported :
    ∃ (source : String) (tokens : List Token) (m : Node), tokenize source = .ok tokens ∧ parseTokens tokens = .ok m ∧
      (∃ f ∈ m.symbols.globalFunctions "f",
        m.symbols.binds "g" { functions := [f] } f [.literal (.text "1") .number] ∧
        m.symbols.binds "g" { functions := [f] } f [.argument (some "a") (.literal (.text "1") .number)]) ∧
      (∃ f ∈ m.symbols.methods "C" "m",
        m.symbols.binds "g" ⟨[f], some "C", some "c"⟩ f [.literal (.text "1") .number]) ∧
      (m.symbols.checkTypes m []).findings.map Finding.text =
        ["No overload of f matches argument types (int) (0:0)", "No overload of f matches argument types (None) (0:0)",
          "No overload of C.m matches argument types (int) (0:0)"] := by
  exact ⟨"def f(a: int, b: int = 1) \x7b\n    pass;\n\x7d\nclass C \x7b\n    def m(self, a: int) \x7b\n" ++
    "        pass;\n    \x7d\n\x7d\ndef g(c: C) \x7b\n    f(1);\n    f(a=1);\n    c.m(1);\n\x7d\n", exists_parsed (by decide +kernel)⟩

end SymbolTable

end BraceLang
