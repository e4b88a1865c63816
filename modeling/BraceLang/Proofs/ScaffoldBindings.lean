import BraceLang.Proofs.Scaffolding

/-!
# Which names of the writer are bound

`Needs.bindings` lists the lines in front of the statements of a program that import or define names of the writer.
-/

namespace BraceLang

open List

variable {target : Target} {body : List Node} {n : Node} {u : Scaffold.Use}

/-! ### The lines that bind names -/

/-- A line in front of the statements that binds names: an import, or the definition of a type variable. -/
inductive Binding where
  | imported (source : String) (names : List Scaffold)
  | defined (name : String) (bound : Option String)

namespace Binding

def line : Binding → String
  | imported source names =>
    "from " ++ source ++ " import " ++ String.intercalate ", " (names.map Scaffold.text) ++ "\n"
  | defined name bound => typeVariableLine name bound

def names : Binding → List Scaffold
  | imported _ names => names
  | defined name _ => [.typeVariable name]

def typeVariables : List String → List Node → List Binding
  | seen, .typeParameter name bound .. :: params =>
    if name ∈ seen then typeVariables seen params else defined name bound :: typeVariables (name :: seen) params
  | seen, _ :: params => typeVariables seen params
  | _, [] => []

theorem map_line_typeVariables (seen : List String) (params : List Node) :
    (typeVariables seen params).map line = typeVariableLines seen params := by
  induction params generalizing seen with
  | nil => rfl
  | cons p params ih =>
    cases p with
    | typeParameter name bound =>
      rw [typeVariables, typeVariableLines]
      split
      · exact ih seen
      · exact congrArg (typeVariableLine name bound :: ·) (ih (name :: seen))
    | _ => exact ih seen

variable {params : List Node} {seen : List String}

theorem exists_mem_typeVariables (hp : p ∈ params) (htyped : p.isTypeParameter)
    (hseen : p.name ∉ seen) : ∃ bound, defined p.name bound ∈ typeVariables seen params := by
  induction params generalizing seen with
  | nil => cases hp
  | cons q params ih =>
    cases q with
    | typeParameter name bound =>
      rw [typeVariables]
      by_cases hname : p.name = name
      · rw [if_neg (hname ▸ hseen), hname]
        exact ⟨bound, mem_cons_self⟩
      · have hrest : p ∈ params := by
          rcases mem_cons.1 hp with rfl | hp
          · exact absurd rfl hname
          · exact hp
        split
        · exact ih hrest hseen
        · obtain ⟨bound, hbound⟩ := ih hrest fun h => (mem_cons.1 h).elim hname hseen
          exact ⟨bound, mem_cons_of_mem _ hbound⟩
    | _ =>
      rcases mem_cons.1 hp with rfl | hp
      · cases htyped
      · exact ih hp hseen

theorem eq_defined_of_mem_typeVariables (hb : b ∈ typeVariables seen params) :
    ∃ name bound, b = defined name bound := by
  induction params generalizing seen with
  | nil => cases hb
  | cons q params ih =>
    cases q with
    | typeParameter name bound =>
      rw [typeVariables] at hb
      split at hb
      · exact ih hb
      · rcases mem_cons.1 hb with rfl | hb
        · exact ⟨name, bound, rfl⟩
        · exact ih hb
    | _ => exact ih hb

end Binding

def bindingIf (b : Bool) (source : String) (names : List Scaffold) : List Binding :=
  if b then [.imported source names] else []

/-- The lines in front of the statements that bind names of the writer. -/
def Needs.bindings (needs : Needs) (target : Target) : List Binding :=
  (match target with
  | .cython _ => []
  | .python =>
    [.imported "__future__" [.annotations]] ++
      bindingIf (needs.interfaces || needs.abstracts) "abc" [.abc, .abstractMethod] ++
      bindingIf needs.interfaces "typing" [.protocol] ++
      bindingIf needs.finals "typing" [.final] ++
      bindingIf (!needs.typeParameters.isEmpty) "typing" [.generic, .typeVar] ++
      Binding.typeVariables [] needs.typeParameters) ++
  bindingIf needs.dispatch "multipledispatch" [.dispatch] ++
  bindingIf needs.dataClasses "dataclasses" [.dataClass] ++
  bindingIf needs.enums "enum" (.enum :: if needs.memberValues then [.auto] else [])

theorem importLines_eq (needs : Needs) (target : Target) (imports : List String) :
    needs.importLines target imports =
      (needs.bindings target).map Binding.line ++ (sortedNames imports).map (· ++ "\n") := by
  have hline (b : Bool) (source : String) (names : List Scaffold) :
      (bindingIf b source names).map Binding.line = lineIf b (Binding.imported source names).line := by
    cases b <;> rfl
  have henum (b : Bool) : "from enum import Enum" ++ (if b then ", auto" else "") ++ "\n" =
      (Binding.imported "enum" (.enum :: if b then [.auto] else [])).line := by
    cases b <;> decide +kernel
  have htexts : [(Binding.imported "__future__" [.annotations]).line,
      (Binding.imported "abc" [.abc, .abstractMethod]).line, (Binding.imported "typing" [.protocol]).line,
      (Binding.imported "typing" [.final]).line,
      (Binding.imported "typing" [.generic, .typeVar]).line, (Binding.imported "multipledispatch" [.dispatch]).line,
      (Binding.imported "dataclasses" [.dataClass]).line] =
      ["from __future__ import annotations\n", "from abc import ABC, abstractmethod\n",
        "from typing import Protocol\n", "from typing import final\n", "from typing import Generic, TypeVar\n",
        "from multipledispatch import dispatch\n", "from dataclasses import dataclass\n"] := by decide +kernel
  simp only [List.cons.injEq, and_true] at htexts
  obtain ⟨hfuture, habc, hprotocol, hfinal, hgeneric, hdispatch, hdata⟩ := htexts
  unfold Needs.importLines Needs.bindings
  cases target <;>
    simp only [map_append, hline, Binding.map_line_typeVariables, map_cons, map_nil, hfuture, habc,
      hprotocol, hfinal, hgeneric, hdispatch, hdata, henum]

/-- The conditions under which a line binds a name. -/
def Needs.Binds (needs : Needs) (target : Target) : Scaffold → Prop
  | .annotations => target = .python
  | .abc | .abstractMethod => target = .python ∧ (needs.interfaces = true ∨ needs.abstracts)
  | .protocol => target = .python ∧ needs.interfaces
  | .final => target = .python ∧ needs.finals
  | .generic | .typeVar => target = .python ∧ needs.typeParameters ≠ []
  | .typeVariable name =>
    target = .python ∧ ∃ bound, Binding.defined name bound ∈ Binding.typeVariables [] needs.typeParameters
  | .dispatch => needs.dispatch = true
  | .dataClass => needs.dataClasses = true
  | .enum => needs.enums = true
  | .auto => needs.enums = true ∧ needs.memberValues

theorem exists_binding_iff (needs : Needs) (target : Target) (name : Scaffold) :
    (∃ b ∈ needs.bindings target, name ∈ b.names) ↔ needs.Binds target name := by
  have hif (c : Bool) (source : String) (names : List Scaffold) :
      (∃ b ∈ bindingIf c source names, name ∈ b.names) ↔ c ∧ name ∈ names := by
    cases c <;> simp [bindingIf, Binding.names]
  have hvariables : (∃ b ∈ Binding.typeVariables [] needs.typeParameters, name ∈ b.names) ↔
      ∃ x bound, name = .typeVariable x ∧
        Binding.defined x bound ∈ Binding.typeVariables [] needs.typeParameters := by
    constructor
    · rintro ⟨b, hb, hname⟩
      obtain ⟨x, bound, rfl⟩ := Binding.eq_defined_of_mem_typeVariables hb
      exact ⟨x, bound, mem_singleton.1 hname, hb⟩
    · rintro ⟨x, bound, rfl, hb⟩
      exact ⟨_, hb, mem_singleton_self _⟩
  cases target <;> simp only [Needs.bindings, mem_append, or_and_right, exists_or, hif, hvariables] <;>
    cases name <;> simp [Needs.Binds, Binding.names]

/-! ### Which names are bound -/

namespace Node

def isInterface : Node → Bool
  | interface .. => true
  | _ => false

def isAbstractClass : Node → Bool
  | classDecl head .. => head.isAbstract
  | _ => false

end Node

/-- The names that may be used without a line that binds them: the decorator of abstract methods if there is no
interface and no abstract class, that of final methods if no class and no function at the top level has a use for it,
and the base of a generic data class in a text for the compiled target. -/
def Unbound (target : Target) (body : List Node) : Scaffold → Prop
  | .abstractMethod => ∀ n ∈ body, n.isInterface = false ∧ n.isAbstractClass = false
  | .final => ∀ n ∈ body, n.usesFinal = false
  | .generic | .typeVariable _ => target.isCompiled = true
  | _ => False

instance (target : Target) (body : List Node) : DecidablePred (Unbound target body)
  | .abstractMethod => inferInstanceAs (Decidable (∀ n ∈ body, n.isInterface = false ∧ n.isAbstractClass = false))
  | .final => inferInstanceAs (Decidable (∀ n ∈ body, n.usesFinal = false))
  | .generic | .typeVariable _ => inferInstanceAs (Decidable (target.isCompiled = true))
  | .annotations | .abc | .protocol | .typeVar | .dispatch | .dataClass | .enum | .auto =>
    inferInstanceAs (Decidable False)

section

variable {name : Scaffold}

theorem interfaces_of (body : List Node) : (Needs.of body).interfaces = body.any Node.isInterface :=
  congrArg body.any (funext fun n => by cases n <;> rfl)

theorem abstracts_of (body : List Node) : (Needs.of body).abstracts = body.any Node.isAbstractClass :=
  congrArg body.any (funext fun n => by cases n <;> rfl)

theorem binds_abstractMethod_iff :
    (Needs.of body).Binds .python .abstractMethod ↔ ¬ Unbound .python body .abstractMethod := by
  simp only [Needs.Binds, Unbound, interfaces_of, abstracts_of, any_eq_true, true_and]
  constructor
  · rintro (⟨n, hn, h⟩ | ⟨n, hn, h⟩) hnone
    · exact Bool.noConfusion (h.symm.trans (hnone n hn).1)
    · exact Bool.noConfusion (h.symm.trans (hnone n hn).2)
  · intro h
    by_contra hnot
    obtain ⟨hinterface, habstract⟩ := not_or.1 hnot
    refine h fun n hn => ⟨Bool.eq_false_iff.2 fun h => ?_, Bool.eq_false_iff.2 fun h => ?_⟩
    · exact hinterface ⟨n, hn, h⟩
    · exact habstract ⟨n, hn, h⟩

theorem binds_final_iff : (Needs.of body).Binds .python .final ↔ ¬ Unbound .python body .final := by
  simp [Needs.Binds, Unbound, Needs.of]

theorem binds_generic_iff (hn : n ∈ body) (htyped : ∀ p ∈ n.classTypeParameters, p.isTypeParameter)
    (hname : name ∈ genericScaffold n.classTypeParameters) :
    (Needs.of body).Binds target name ↔ ¬ Unbound target body name := by
  have hparams : n.classTypeParameters ≠ [] := by
    intro hnil
    rw [hnil] at hname
    cases hname
  have hmem {p : Node} (hp : p ∈ n.classTypeParameters) : p ∈ (Needs.of body).typeParameters :=
    mem_flatMap.2 ⟨n, hn, hp⟩
  rw [genericScaffold, if_neg (by simpa using hparams)] at hname
  rcases mem_cons.1 hname with rfl | hname
  · obtain ⟨p, hp⟩ := exists_mem_of_ne_nil _ hparams
    have hany : (Needs.of body).typeParameters ≠ [] := ne_nil_of_mem (hmem hp)
    cases target <;> simp [Needs.Binds, Unbound, Target.isCompiled, hany]
  · obtain ⟨p, hp, rfl⟩ := mem_map.1 hname
    have hdefined : ∃ bound, Binding.defined p.name bound ∈ Binding.typeVariables [] (Needs.of body).typeParameters :=
      Binding.exists_mem_typeVariables (hmem hp) (htyped p hp) not_mem_nil
    cases target <;> simp [Needs.Binds, Unbound, Target.isCompiled, hdefined]

theorem anyUsesDispatch_of_mem (hn : n ∈ body) (h : n.usesDispatch) : Node.anyUsesDispatch body := by
  induction body with
  | nil => cases hn
  | cons m ms ih =>
    rw [Node.anyUsesDispatch]
    rcases mem_cons.1 hn with rfl | hn
    · rw [h, Bool.true_or]
    · rw [ih hn, Bool.or_true]

theorem usesDispatch_of_mem_classBody {owner : Node} (hn : n ∈ owner.classBody) (h : n.usesDispatch) :
    owner.usesDispatch := by
  cases owner with
  | classDecl | dataClass | enumDecl => exact anyUsesDispatch_of_mem hn h
  | _ => cases hn

theorem mem_ite_singleton {α : Type} {p : Prop} [Decidable p] {x y : α} :
    x ∈ (if p then [y] else []) ↔ p ∧ x = y := by
  by_cases h : p <;> simp [h]

theorem binds_function_iff (hn : n.isFunction)
    (hdispatch : n.usesDispatch → Node.anyUsesDispatch body) (hu : u ∈ n.scaffolding target)
    (hname : name ∈ u.names) : (Needs.of body).Binds target name ↔ ¬ Unbound target body name := by
  cases n with
  | function head params fbody =>
    rcases mem_append.1 hu with hu | hu
    · cases target with
      | cython => cases hu
      | python =>
        rcases mem_append.1 hu with hu | hu
        · obtain ⟨-, rfl⟩ := mem_ite_singleton.1 hu
          obtain rfl := mem_singleton.1 hname
          exact binds_abstractMethod_iff
        · obtain ⟨-, rfl⟩ := mem_ite_singleton.1 hu
          obtain rfl := mem_singleton.1 hname
          exact binds_final_iff
    · obtain ⟨d, hd, rfl⟩ := mem_map.1 hu
      obtain rfl := mem_singleton.1 hname
      have hany : head.decorators.any Node.isDispatch := any_eq_true.2 ⟨d, mem_filter.1 hd⟩
      refine ⟨fun _ => id, fun _ => hdispatch ?_⟩
      cases fbody with
      | none => exact hany
      | some => exact Bool.or_eq_true_iff.2 (.inl hany)
  | _ => cases hn

/-- A line binds a name that a declaration makes the writer use, unless the name is one of the unbound ones. -/
theorem Declared.binds_iff (h : Declared body n) (hbody : ∀ n ∈ body, n.InPlace) (hu : u ∈ n.scaffolding target)
    (hname : name ∈ u.names) : (Needs.of body).Binds target name ↔ ¬ Unbound target body name := by
  cases h with
  | method howner hn hfunction =>
    refine binds_function_iff hfunction (fun h => ?_) hu hname
    exact anyUsesDispatch_of_mem howner (usesDispatch_of_mem_classBody hn h)
  | @member owner howner hn hmember =>
    cases owner with
    | enumDecl ename members ebody annotations p =>
      cases n with
      | enumMember =>
        obtain ⟨hargs, rfl⟩ := mem_ite_singleton.1 hu
        obtain rfl := mem_singleton.1 hname
        have hvalues : (Needs.of body).memberValues :=
          any_eq_true.2 ⟨_, howner, any_eq_true.2 ⟨_, hn, hargs⟩⟩
        exact iff_of_true ⟨any_eq_true.2 ⟨_, howner, rfl⟩, hvalues⟩ id
      | _ => cases hmember
    | _ => cases hn
  | top hn hmember =>
    cases n with
    | function =>
      exact binds_function_iff rfl (anyUsesDispatch_of_mem hn) hu hname
    | interface =>
      cases target with
      | cython => cases hu
      | python =>
        obtain rfl := mem_singleton.1 hu
        obtain rfl := mem_singleton.1 hname
        exact iff_of_true ⟨rfl, any_eq_true.2 ⟨_, hn, rfl⟩⟩ id
    | classDecl =>
      cases target with
      | cython => cases hu
      | python =>
        rcases mem_append.1 hu with hu | hu
        · obtain ⟨-, rfl⟩ := mem_ite_singleton.1 hu
          obtain rfl := mem_singleton.1 hname
          exact binds_final_iff
        · obtain rfl := mem_singleton.1 hu
          rcases mem_append.1 hname with hname | hname
          · exact binds_generic_iff hn (hbody _ hn).typeParameters hname
          · obtain ⟨habstract, rfl⟩ := mem_ite_singleton.1 hname
            exact iff_of_true ⟨rfl, .inr (any_eq_true.2 ⟨_, hn, (Bool.and_eq_true_iff.1 habstract).1⟩)⟩ id
    | dataClass =>
      rcases mem_cons.1 hu with rfl | hu
      · obtain rfl := mem_singleton.1 hname
        exact iff_of_true (any_eq_true.2 ⟨_, hn, rfl⟩) id
      · obtain rfl := mem_singleton.1 hu
        exact binds_generic_iff hn (hbody _ hn).typeParameters hname
    | enumDecl =>
      obtain rfl := mem_singleton.1 hu
      obtain rfl := mem_singleton.1 hname
      exact iff_of_true (any_eq_true.2 ⟨_, hn, rfl⟩) id
    | enumMember => cases hmember
    | _ => cases hu

/-! ### The names in their lines -/

theorem stretch_trim (s : String) : Stretch (trim s) s := by
  have hstart : s.toList = s.toList.takeWhile isBlank ++ dropStart isBlank s.toList :=
    List.takeWhile_append_dropWhile.symm
  have hend (l : List Char) : ∃ back, l = dropEnd isBlank l ++ back := by
    refine ⟨(l.reverse.takeWhile isBlank).reverse, ?_⟩
    rw [dropEnd, ← reverse_append, takeWhile_append_dropWhile, reverse_reverse]
  obtain ⟨back, hback⟩ := hend (dropStart isBlank s.toList)
  refine ⟨String.ofList (s.toList.takeWhile isBlank), String.ofList back, ?_⟩
  rw [trim, ← String.ofList_append, ← String.ofList_append, List.append_assoc, ← hback, ← hstart, String.ofList_toList]

theorem stretch_of_isDispatch (h : Node.isDispatch d) : Stretch "dispatch" d := by
  obtain ⟨rest, hrest⟩ := isPrefixOf_iff_prefix.1 h
  refine Stretch.trans ⟨"@", String.ofList rest, ?_⟩ (stretch_trim d)
  calc trim d = String.ofList ("@dispatch".toList ++ rest) := by rw [hrest, String.ofList_toList]
    _ = "@dispatch" ++ String.ofList rest := by rw [String.ofList_append, String.ofList_toList]

theorem stretch_genericBase (hname : name ∈ genericScaffold params) (bases : List String) :
    Stretch name.text (basesText (genericBase params ++ bases)) := by
  have hparams : params.isEmpty = false := by
    cases params with
    | nil => cases hname
    | cons => rfl
  let inner := String.intercalate ", " (params.map Node.name)
  have hbases : Stretch ("Generic[" ++ inner ++ "]") (basesText (genericBase params ++ bases)) := by
    rw [genericBase, hparams, if_neg Bool.false_ne_true, basesText, if_neg (by simp)]
    exact ((stretch_intercalate mem_cons_self ", ").prepend "(").append ")"
  rw [genericScaffold, hparams, if_neg Bool.false_ne_true] at hname
  refine Stretch.trans (Stretch.append ?_ "]") hbases
  rcases mem_cons.1 hname with rfl | hname
  · exact Stretch.append ⟨"", "[", by decide⟩ inner
  · obtain ⟨p, hp, rfl⟩ := mem_map.1 hname
    exact (stretch_intercalate (mem_map_of_mem hp) ", ").prepend "Generic["

theorem classBaseNames_of_generic {head : ClassHead} (hname : name ∈ genericScaffold params) :
    classBaseNames .python head params = genericBase params ++ (head.bases ++ head.interfaces) := by
  cases params with
  | nil => cases hname
  | cons => simp [classBaseNames, genericBase, Target.isCompiled]

theorem stretch_of_mem_names (hu : u ∈ n.scaffolding target) (hname : name ∈ u.names) : Stretch name.text u.line := by
  cases n with
  | interface iname methods bases =>
    cases target with
    | cython => cases hu
    | python =>
      obtain rfl := mem_singleton.1 hu
      obtain rfl := mem_singleton.1 hname
      have hbase : Stretch "Protocol" (String.intercalate ", " (bases ++ ["Protocol"])) :=
        stretch_intercalate (mem_append_right _ mem_cons_self) ", "
      exact (hbase.prepend _).append _
  | classDecl head cbody params =>
    cases target with
    | cython => cases hu
    | python =>
      rcases mem_append.1 hu with hu | hu
      · obtain ⟨-, rfl⟩ := mem_ite_singleton.1 hu
        obtain rfl := mem_singleton.1 hname
        exact ⟨"@", "\n", by decide⟩
      · obtain rfl := mem_singleton.1 hu
        refine Stretch.append (Stretch.prepend ?_ _) _
        rcases mem_append.1 hname with hname | hname
        · rw [classBaseNames_of_generic hname]
          exact stretch_genericBase hname _
        · obtain ⟨hbare, rfl⟩ := mem_ite_singleton.1 hname
          have hbases : classBaseNames .python head params = ["ABC"] := by
            simp only [Bool.and_eq_true, List.isEmpty_iff] at hbare
            simp [classBaseNames, genericBase, Target.isCompiled, hbare]
          rw [hbases]
          exact ⟨"(", ")", by decide⟩
  | dataClass dname fields cbody params bases =>
    rcases mem_cons.1 hu with rfl | hu
    · obtain rfl := mem_singleton.1 hname
      exact ⟨"@", "\n", by decide⟩
    · obtain rfl := mem_singleton.1 hu
      exact ((stretch_genericBase hname bases).prepend _).append _
  | enumDecl ename =>
    obtain rfl := mem_singleton.1 hu
    obtain rfl := mem_singleton.1 hname
    exact ⟨"class " ++ ename ++ "(", "):\n", by simp [String.append_assoc, Scaffold.text]⟩
  | enumMember mname =>
    obtain ⟨-, rfl⟩ := mem_ite_singleton.1 hu
    obtain rfl := mem_singleton.1 hname
    exact Stretch.prepend ⟨" = ", "()\n", by decide⟩ mname
  | function =>
    rcases mem_append.1 hu with hu | hu
    · cases target with
      | cython => cases hu
      | python =>
        rcases mem_append.1 hu with hu | hu
        · obtain ⟨-, rfl⟩ := mem_ite_singleton.1 hu
          obtain rfl := mem_singleton.1 hname
          exact ⟨"@", "\n", by decide⟩
        · obtain ⟨-, rfl⟩ := mem_ite_singleton.1 hu
          obtain rfl := mem_singleton.1 hname
          exact ⟨"@", "\n", by decide⟩
    · obtain ⟨d, hd, rfl⟩ := mem_map.1 hu
      obtain rfl := mem_singleton.1 hname
      exact (stretch_of_isDispatch (mem_filter.1 hd).2).append "\n"
  | _ => cases hu

end

theorem Declared.mem_allScaffolding (h : Declared body n) (hu : u ∈ n.scaffolding target) :
    u ∈ Node.allScaffolding target body := by
  cases h with
  | top hn => exact mem_flatMap.2 ⟨n, hn, mem_append_left _ (mem_append_left _ hu)⟩
  | method howner hn =>
    exact mem_flatMap.2 ⟨_, howner, mem_append_right _ (mem_flatMap.2 ⟨n, hn, hu⟩)⟩
  | member howner hn =>
    refine mem_flatMap.2 ⟨_, howner, mem_append_left _ (mem_append_right _ ?_)⟩
    exact mem_flatMap.2 ⟨n, hn, hu⟩

/-- In the text of a parsed program the lines that bind names of the writer come first, behind the header, and then, in
their order, all lines that have such names in them.  Each of these names is bound by one of the first lines, unless it
is the decorator of abstract or of final methods or stands in the base of a generic data class, under the conditions of
`Unbound`: then none of them binds it. -/
theorem toSource_scaffolding {tokens : List Token} {m n : Node} {u : Scaffold.Use} (hm : parseTokens tokens = .ok m)
    (target : Target) (imports : List String) (hn : n ∈ m.decorated.walk) (hu : u ∈ n.scaffolding target) :
    u ∈ Node.allScaffolding target m.decorated.statements ∧
    Followed
      (String.join (target.header ++ ((Needs.of m.decorated.statements).bindings target).map Binding.line))
      ((Node.allScaffolding target m.decorated.statements).map Scaffold.Use.line)
      (m.decorated.toSource target imports) ∧
    ∀ name ∈ u.names, Stretch name.text u.line ∧
      ((∃ b ∈ (Needs.of m.decorated.statements).bindings target, name ∈ b.names) ↔
        ¬ Unbound target m.decorated.statements name) := by
  obtain ⟨body, hbody, hplace⟩ := exists_inPlace hm
  rw [hbody] at hn ⊢
  have hdeclared : Declared body n := by
    have hdeclares : n.declares := by
      cases n with
      | interface | classDecl | dataClass | enumDecl | enumMember | function => rfl
      | _ => cases hu
    refine (declared_of_mem_walk hplace hn hdeclares).resolve_left ?_
    rintro rfl
    cases hu
  have huses := hdeclared.mem_allScaffolding hu
  have hfront : Stretch (String.join (target.header ++ ((Needs.of body).bindings target).map Binding.line))
      (String.join (target.header ++ (Needs.of body).importLines target imports)) := by
    rw [importLines_eq, ← List.append_assoc]
    exact (Kept.append _ _).stretch
  have hne : body ≠ [] := by
    rintro rfl
    cases huses
  refine ⟨huses, (Emit.toSource_followed hplace hne target imports).of_stretch hfront, fun name hname => ?_⟩
  rw [exists_binding_iff]
  exact ⟨stretch_of_mem_names hu hname, hdeclared.binds_iff hplace hu hname⟩

/-- A generic class with an abstract method and overloads, and an enum. -/
def boundSource : String :=
  "abstract class A<T> \x7b\nabstract def f();\ndef g(x: int) \x7b\npass;\n\x7d\n" ++
    "def g(x: str) \x7b\npass;\n\x7d\n\x7d\nenum E \x7b\nX\n\x7d\n"

def boundUse : Scaffold.Use := ⟨[.abstractMethod], "@abstractmethod\n"⟩

theorem toSource_scaffolding_bound : ∃ tokens m n, tokenize boundSource = .ok tokens ∧ parseTokens tokens = .ok m ∧
    n ∈ m.decorated.walk ∧ boundUse ∈ n.scaffolding .python ∧
    (Node.allScaffolding .python m.decorated.statements).map Scaffold.Use.names =
      [[.generic, .typeVariable "T"], [.abstractMethod], [.dispatch], [.dispatch], [.enum], [.auto]] ∧
    (∃ b ∈ (Needs.of m.decorated.statements).bindings .python, .abstractMethod ∈ b.names) ∧
    Followed (String.join (Target.header .python ++
        ((Needs.of m.decorated.statements).bindings .python).map Binding.line))
      ((Node.allScaffolding .python m.decorated.statements).map Scaffold.Use.line)
      (m.decorated.toSource .python ["import os"]) := by
  obtain ⟨tokens, m, htokens, hm, ⟨n, hn, hu⟩, hnames, hbound⟩ :
      ∃ tokens m, tokenize boundSource = .ok tokens ∧ parseTokens tokens = .ok m ∧
        (∃ n ∈ m.decorated.walk, boundUse ∈ n.scaffolding .python) ∧
        (Node.allScaffolding .python m.decorated.statements).map Scaffold.Use.names =
          [[.generic, .typeVariable "T"], [.abstractMethod], [.dispatch], [.dispatch], [.enum], [.auto]] ∧
        ¬ Unbound .python m.decorated.statements .abstractMethod := exists_parsed (by decide +kernel)
  obtain ⟨-, hfollowed, hbinds⟩ := toSource_scaffolding hm .python ["import os"] hn hu
  exact ⟨tokens, m, n, htokens, hm, hn, hu, hnames, (hbinds .abstractMethod (by decide)).2.2 hbound, hfollowed⟩

/-- An abstract method in a class that is not abstract has a decorator that nothing binds. -/
theorem exists_scaffolding_unbound : ∃ (source : String) (tokens : List Token) (m n : Node),
    tokenize source = .ok tokens ∧ parseTokens tokens = .ok m ∧
    n ∈ m.decorated.walk ∧ boundUse ∈ n.scaffolding .python ∧
    (∀ b ∈ (Needs.of m.decorated.statements).bindings .python, .abstractMethod ∉ b.names) ∧
    m.decorated.toSource .python [] = String.join (Target.header .python) ++
      "from __future__ import annotations\nclass A:\n    \"\"\"A class.\"\"\"\n\n    @abstractmethod\n" ++
      "    def f(self):\n        \"\"\"Abstract method.\"\"\"\n        pass\n" := by
  obtain ⟨tokens, m, htokens, hm, ⟨n, hn, hu⟩, hunbound, htext⟩ :
      ∃ tokens m, tokenize "class A \x7b\n    abstract def f();\n\x7d\n" = .ok tokens ∧ parseTokens tokens = .ok m ∧
        (∃ n ∈ m.decorated.walk, boundUse ∈ n.scaffolding .python) ∧
        (∀ b ∈ (Needs.of m.decorated.statements).bindings .python, .abstractMethod ∉ b.names) ∧
        m.decorated.toSource .python [] = String.join (Target.header .python) ++
          "from __future__ import annotations\nclass A:\n    \"\"\"A class.\"\"\"\n\n    @abstractmethod\n" ++
          "    def f(self):\n        \"\"\"Abstract method.\"\"\"\n        pass\n" := exists_parsed (by decide +kernel)
  exact ⟨_, tokens, m, n, htokens, hm, hn, hu, hunbound, htext⟩

end BraceLang
