import BraceLang.Analysis.Conformance
import BraceLang.Proofs.ProgramText
import Mathlib.Data.List.Induction
import Mathlib.Logic.Relation

/-!
# What the check of interfaces decides

A class conforms if every signature of the interfaces that it names, and of those that they extend, is provided by a
method of the class or of one that it extends (`Node.Conforms`).
-/

namespace BraceLang

open List

variable {name? : Node → Option String} {ns : List Node} {name : String} {k : Node}

def LastNamed (name? : Node → Option String) (ns : List Node) (name : String) (n : Node) : Prop :=
  ∃ before after, ns = before ++ n :: after ∧ name? n = some name ∧ ∀ k ∈ after, name? k ≠ some name

namespace LastNamed

variable {n : Node}

theorem mem (h : LastNamed name? ns name n) : n ∈ ns := by
  obtain ⟨before, after, rfl, _⟩ := h
  exact mem_append_right _ mem_cons_self

theorem named (h : LastNamed name? ns name n) : name? n = some name := by
  obtain ⟨_, _, _, hn, _⟩ := h
  exact hn

theorem append_singleton_iff : LastNamed name? (ns ++ [k]) name n ↔
    (n = k ∧ name? k = some name) ∨ LastNamed name? ns name n ∧ name? k ≠ some name := by
  constructor
  · rintro ⟨before, after, heq, hn, hafter⟩
    rcases eq_nil_or_concat after with rfl | ⟨after, last, rfl⟩
    · obtain ⟨_, hk⟩ := append_inj' heq rfl
      cases hk
      exact .inl ⟨rfl, hn⟩
    · rw [concat_eq_append, ← cons_append, ← List.append_assoc] at heq
      obtain ⟨rfl, hk⟩ := append_inj' heq rfl
      cases hk
      refine .inr ⟨⟨before, after, rfl, hn, fun l hl => hafter l ?_⟩, hafter k ?_⟩ <;> simp [*]
  · rintro (⟨rfl, hn⟩ | ⟨⟨before, after, rfl, hn, hafter⟩, hk⟩)
    · exact ⟨ns, [], rfl, hn, nofun⟩
    · refine ⟨before, after ++ [k], by simp, hn, fun l hl => ?_⟩
      rcases mem_append.1 hl with hl | hl
      · exact hafter l hl
      · exact mem_singleton.1 hl ▸ hk

theorem exists_of_mem (hmem : n ∈ ns) (hn : name? n = some name) : ∃ k, LastNamed name? ns name k := by
  induction ns using reverseRecOn with
  | nil => cases hmem
  | append_singleton ns k ih =>
    simp only [append_singleton_iff]
    by_cases hk : name? k = some name
    · exact ⟨k, .inl ⟨rfl, hk⟩⟩
    · rcases mem_append.1 hmem with hmem | hmem
      · obtain ⟨l, hl⟩ := ih hmem
        exact ⟨l, .inr ⟨hl, hk⟩⟩
      · cases mem_singleton.1 hmem
        exact absurd hn hk

theorem unique (hn : LastNamed name? ns name n) (hk : LastNamed name? ns name k) : n = k := by
  induction ns using reverseRecOn with
  | nil => cases hn.mem
  | append_singleton ns l ih =>
    rcases append_singleton_iff.1 hn with ⟨rfl, hl⟩ | ⟨hn, hl⟩ <;>
      rcases append_singleton_iff.1 hk with ⟨rfl, hl'⟩ | ⟨hk, hl'⟩
    · rfl
    · exact absurd hl hl'
    · exact absurd hl' hl
    · exact ih hn hk

theorem of_nodup (hns : (ns.filterMap name?).Nodup) (hmem : n ∈ ns) (hn : name? n = some name) :
    LastNamed name? ns name n := by
  obtain ⟨before, after, rfl⟩ := append_of_mem hmem
  refine ⟨before, after, rfl, hn, fun k hk hname => ?_⟩
  rw [filterMap_append, filterMap_cons_some hn] at hns
  have hcons := (nodup_append.1 hns).2.1
  exact (nodup_cons.1 hcons).1 (mem_filterMap.2 ⟨k, hk, hname⟩)

end LastNamed

namespace NameMap

variable {α : Type} {m : NameMap α}

def Distinct (m : NameMap α) : Prop := (m.map Prod.fst).Nodup

theorem mem_put_iff (h : Distinct m) : e ∈ put name value m ↔ e = (name, value) ∨ e ∈ m ∧ e.1 ≠ name := by
  induction m with
  | nil => simp [put]
  | cons d m ih =>
    obtain ⟨key, old⟩ := d
    obtain ⟨hkey, hm⟩ := nodup_cons.1 h
    unfold put
    split
    · next heq =>
      subst heq
      -- no other entry has the name that is put
      have hother : e ∈ m → e.1 ≠ key := by
        rintro he rfl
        exact hkey (mem_map.2 ⟨e, he, rfl⟩)
      simp only [mem_cons]
      constructor
      · rintro (rfl | he)
        · exact .inl rfl
        · exact .inr ⟨.inr he, hother he⟩
      · rintro (rfl | ⟨rfl | he, hne⟩)
        · exact .inl rfl
        · exact absurd rfl hne
        · exact .inr he
    · next hne =>
      simp only [mem_cons, ih hm]
      constructor
      · rintro (rfl | rfl | ⟨he, hname⟩)
        · exact .inr ⟨.inl rfl, hne⟩
        · exact .inl rfl
        · exact .inr ⟨.inr he, hname⟩
      · rintro (rfl | ⟨rfl | he, hname⟩)
        · exact .inr (.inl rfl)
        · exact .inl rfl
        · exact .inr (.inr ⟨he, hname⟩)

theorem Distinct.put (h : Distinct m) (name : String) (value : α) : Distinct (put name value m) := by
  induction m with
  | nil => simp [Distinct, NameMap.put]
  | cons d m ih =>
    obtain ⟨hkey, hm⟩ := nodup_cons.1 h
    unfold NameMap.put
    split
    · exact nodup_cons.2 ⟨hkey, hm⟩
    · next hne =>
      refine nodup_cons.2 ⟨fun hmem => ?_, ih hm⟩
      obtain ⟨e, he, heq⟩ := mem_map.1 hmem
      rcases (mem_put_iff hm).1 he with rfl | ⟨he, _⟩
      · exact hne heq.symm
      · exact hkey (mem_map.2 ⟨e, he, heq⟩)

theorem get?_eq_some_iff (h : Distinct m) : get? m name = some value ↔ (name, value) ∈ m := by
  induction m with
  | nil => simp [get?]
  | cons d m ih =>
    obtain ⟨key, old⟩ := d
    obtain ⟨hkey, hm⟩ := nodup_cons.1 h
    rw [mem_cons, ← ih hm]
    by_cases hname : name = key
    · subst hname
      have hnone : m.lookup name ≠ some value := fun hget => hkey (mem_map.2 ⟨_, (ih hm).1 hget, rfl⟩)
      simp [get?, hnone, eq_comm]
    · have hfalse : (name == key) = false := by simpa using hname
      simp [get?, lookup_cons, hfalse, hname]

/-- The map that names the values of nodes, the later ones in place of the earlier ones. -/
def ofNodes (name? : Node → Option String) (value : Node → α) (ns : List Node) : NameMap α :=
  ns.foldl (fun m n => (name? n).elim m fun name => put name (value n) m) []

variable (name? : Node → Option String) (value : Node → α)

theorem ofNodes_append_singleton (ns : List Node) (k : Node) : ofNodes name? value (ns ++ [k]) =
    (name? k).elim (ofNodes name? value ns) fun name => put name (value k) (ofNodes name? value ns) := by
  rw [ofNodes, foldl_append]
  rfl

theorem distinct_ofNodes (ns : List Node) : Distinct (ofNodes name? value ns) := by
  induction ns using reverseRecOn with
  | nil => exact nodup_nil
  | append_singleton ns k ih =>
    rw [ofNodes_append_singleton]
    cases name? k with
    | none => exact ih
    | some name => exact ih.put name (value k)

theorem mem_ofNodes_iff : (name, v) ∈ ofNodes name? value ns ↔ ∃ n, LastNamed name? ns name n ∧ value n = v := by
  induction ns using reverseRecOn with
  | nil =>
    refine ⟨nofun, ?_⟩
    rintro ⟨n, hn, _⟩
    cases hn.mem
  | append_singleton ns k ih =>
    rw [ofNodes_append_singleton]
    simp only [LastNamed.append_singleton_iff]
    cases hk : name? k with
    | none => simp [ih]
    | some =>
      rw [Option.elim_some, mem_put_iff (distinct_ofNodes name? value ns), ih]
      constructor
      · rintro (heq | ⟨⟨n, hn, hv⟩, hne⟩)
        · cases heq
          exact ⟨k, .inl ⟨rfl, rfl⟩, rfl⟩
        · exact ⟨n, .inr ⟨hn, fun heq => hne (Option.some.inj heq).symm⟩, hv⟩
      · rintro ⟨n, ⟨rfl, heq⟩ | ⟨hn, hne⟩, rfl⟩
        · cases heq
          exact .inl rfl
        · exact .inr ⟨⟨n, hn, rfl⟩, fun heq => hne (congrArg some heq.symm)⟩

theorem get?_ofNodes_iff : get? (ofNodes name? value ns) name = some v ↔ ∃ n, LastNamed name? ns name n ∧ value n = v :=
  (get?_eq_some_iff (distinct_ofNodes name? value ns)).trans (mem_ofNodes_iff name? value)

end NameMap

namespace Node

/-! ### Conformance -/

def annotatedType : Node → String
  | parameter _ (some type) .. => if type = "" then "Any" else type
  | _ => "Any"

def interfaceName? : Node → Option String
  | interface name .. => some name
  | _ => none

def className? : Node → Option String
  | classDecl h .. => some h.name
  | _ => none

def baseName? : Node → Option String
  | classDecl h .. => some h.name
  | dataClass name .. => some name
  | _ => none

def extended : Node → List String
  | interface _ _ bases .. => bases
  | classDecl h .. => h.bases
  | dataClass _ _ _ _ bases .. => bases
  | _ => []

def implemented : Node → List String
  | classDecl h .. => h.interfaces
  | _ => []

def signatures : Node → List MethodShape
  | interface _ methods .. => (methods.getD []).filterMap methodShape?
  | _ => []

def ownMethods (n : Node) : List MethodShape := ((n.body?.getD []).filter isFunction).filterMap methodShape?

end Node

namespace MethodShape

def types (s : MethodShape) : List String := (s.params.filter fun p => p.name ≠ "self").map Node.annotatedType

def Provides (f s : MethodShape) : Prop := f.name = s.name ∧ f.types = s.types ∧ f.returnType = s.returnType

instance : DecidableRel Provides := fun _ _ => inferInstanceAs (Decidable (_ ∧ _ ∧ _))

def SelfFree (s : MethodShape) : Prop := ∀ p ∈ s.params, p.name ≠ "self"

instance (s : MethodShape) : Decidable s.SelfFree := inferInstanceAs (Decidable (∀ p ∈ s.params, p.name ≠ "self"))

variable {s : MethodShape} {body : List Node}

theorem SelfFree.types_eq (h : s.SelfFree) : s.types = s.params.map Node.annotatedType := by
  have hall : s.params.filter (fun p => p.name ≠ "self") = s.params :=
    filter_eq_self.2 fun p hp => decide_eq_true (h p hp)
  rw [types, hall]

end MethodShape

namespace Node

variable {a c : Node} {title : String}

/-- The first declaration extends the second one, which has a name of the given kind. -/
def Extends (name? : Node → Option String) (m a b : Node) : Prop :=
  b ∈ m.statements ∧ ∃ name ∈ a.extended, name? b = some name

/-- Every class of a program provides what the interfaces that it implements ask for, and those that they extend. -/
def Conforms (m : Node) : Prop :=
  ∀ c ∈ m.statements, ∀ title ∈ c.implemented,
    (∃ i ∈ m.statements, i.interfaceName? = some title) ∧
    ∀ i ∈ m.statements, i.interfaceName? = some title →
      ∀ j, Relation.ReflTransGen (Extends interfaceName? m) i j → ∀ s ∈ j.signatures,
        ∃ d, Relation.ReflTransGen (Extends baseName? m) c d ∧ ∃ f ∈ d.ownMethods, f.Provides s

/-! ### What the check compares -/

/-- The first method of a class with the name of a signature and its types, where the receiver of the signature is one
of its parameters, has its result. -/
def Answers (c : Node) (s : MethodShape) : Prop :=
  ∃ f, c.ownMethods.find? (fun f => f.name = s.name ∧ f.types = s.params.map annotatedType) = some f ∧
    f.returnType = s.returnType

/-- The last class of each name answers the signatures in the last interface of each name that it implements. -/
def AnswersListed (m : Node) : Prop :=
  ∀ name c, LastNamed className? m.statements name c → ∀ title ∈ c.implemented,
    ∃ i, LastNamed interfaceName? m.statements title i ∧ ∀ s ∈ i.signatures, c.Answers s

theorem comparedType_eq (n : Node) : n.comparedType = n.annotatedType := by
  cases n with
  | parameter name type =>
    cases type with
    | none => rfl
    | some type =>
      by_cases h : type = ""
      · simp [comparedType, annotatedType, isGiven, h]
      · simp [comparedType, annotatedType, isGiven, h]
  | _ => rfl

def classParts : Node → ClassHead × List Node
  | classDecl h members .. => (h, members)
  | _ => ({ name := "" }, [])

theorem interfaceMethods_eq (ns : List Node) : interfaceMethods ns = NameMap.ofNodes interfaceName? signatures ns := by
  unfold interfaceMethods NameMap.ofNodes
  congr 1
  funext m n
  cases n <;> rfl

theorem classesByName_eq (ns : List Node) : classesByName ns = NameMap.ofNodes className? classParts ns := by
  unfold classesByName NameMap.ofNodes
  congr 1
  funext m n
  cases n <;> rfl

theorem hasFunction_of_implementation?
    (hfound : implementation? body name types = some h) : hasFunction body name := by
  obtain ⟨n, hn, hhead⟩ := exists_of_findSome?_eq_some hfound
  refine any_eq_true.2 ⟨n, hn, ?_⟩
  split at hhead
  · split at hhead
    · next hsame => exact (Bool.and_eq_true_iff.1 hsame).1
    · cases hhead
  · cases hhead

theorem implementation?_cons (h : FunctionHead) (params : List Node) (inner : Option (List Node))
    (typeParams annotations body : List Node) (s : MethodShape) :
    implementation? (function h params inner typeParams annotations :: body) s.name (s.params.map comparedType) =
      if h.name = s.name ∧ MethodShape.types ⟨h.name, params, h.returnType⟩ = s.params.map annotatedType then some h
      else implementation? body s.name (s.params.map comparedType) := by
  simp only [implementation?, MethodShape.types, findSome?_cons, funext comparedType_eq]
  generalize (params.filter fun p => p.name ≠ "self").map annotatedType = types
  by_cases hname : h.name = s.name <;> by_cases htypes : types = s.params.map annotatedType <;> simp [hname, htypes]

theorem implementation?_result (body : List Node) (s : MethodShape) :
    (implementation? body s.name (s.params.map comparedType)).map (·.returnType) =
      (((body.filter isFunction).filterMap methodShape?).find? fun f =>
        f.name = s.name ∧ f.types = s.params.map annotatedType).map (·.returnType) := by
  induction body with
  | nil => rfl
  | cons n body ih =>
    cases n with
    | function h params inner typeParams annotations =>
      let f : MethodShape := ⟨h.name, params, h.returnType⟩
      have hshape : methodShape? (function h params inner typeParams annotations) = some f := rfl
      rw [implementation?_cons, filter_cons_of_pos rfl, filterMap_cons_some hshape, find?_cons]
      by_cases hsame : f.name = s.name ∧ f.types = s.params.map annotatedType
      · rw [if_pos hsame, decide_eq_true hsame]
        rfl
      · rw [if_neg hsame, decide_eq_false hsame, ih]
    | _ => exact ih

theorem methodFindings_eq_nil_iff (params annotations : List Node) :
    methodFindings h body title s = [] ↔ (classDecl h body params annotations).Answers s := by
  have hanswers : (classDecl h body params annotations).Answers s ↔
      ∃ f, implementation? body s.name (s.params.map comparedType) = some f ∧ f.returnType = s.returnType := by
    rw [← Option.map_eq_some_iff, implementation?_result, Option.map_eq_some_iff]
    rfl
  rw [hanswers, methodFindings]
  split
  · split
    · next hnone => simp [hnone]
    · next f hf => simp [hf]
  · next hname =>
    simp only [cons_ne_nil, false_iff]
    rintro ⟨f, hf, _⟩
    exact hname (hasFunction_of_implementation? hf)

theorem classFindings_eq_nil_iff (hc : LastNamed className? ns name c) :
    classFindings (interfaceMethods ns) c.classParts.1 c.classParts.2 = [] ↔ ∀ title ∈ c.implemented,
      ∃ i, LastNamed interfaceName? ns title i ∧ ∀ s ∈ i.signatures, c.Answers s := by
  have hname := hc.named
  cases c with
  | classDecl h body params annotations =>
    refine List.flatMap_eq_nil_iff.trans (forall₂_congr fun title _ => ?_)
    rw [interfaceMethods_eq]
    split
    · next hnone =>
      -- no interface has the name, for the last one with it would be in the map
      simp only [cons_ne_nil, false_iff]
      rintro ⟨i, hi, _⟩
      have hsome := (NameMap.get?_ofNodes_iff interfaceName? signatures).2 ⟨i, hi, rfl⟩
      rw [hnone] at hsome
      cases hsome
    · next methods hmethods =>
      rw [flatMap_eq_nil_iff]
      simp only [methodFindings_eq_nil_iff params annotations]
      constructor
      · intro hall
        obtain ⟨i, hi, rfl⟩ := (NameMap.get?_ofNodes_iff interfaceName? signatures).1 hmethods
        exact ⟨i, hi, hall⟩
      · rintro ⟨i, hi, hall⟩
        have hsome := (NameMap.get?_ofNodes_iff interfaceName? signatures).2 ⟨i, hi, rfl⟩
        rw [hmethods] at hsome
        cases hsome
        exact hall
  | _ => cases hname

/-- The check accepts a program just if each class answers the signatures of the interfaces that it names. -/
theorem interfaceFindings_eq_nil_iff (m : Node) : m.interfaceFindings = [] ↔ m.AnswersListed := by
  cases m with
  | module =>
    rw [interfaceFindings, flatMap_eq_nil_iff, classesByName_eq, Prod.forall]
    constructor
    · intro hall name c hc
      exact (classFindings_eq_nil_iff hc).1
        (hall name c.classParts ((NameMap.mem_ofNodes_iff className? classParts).2 ⟨c, hc, rfl⟩))
    · intro hall name parts hparts
      obtain ⟨c, hc, rfl⟩ := (NameMap.mem_ofNodes_iff className? classParts).1 hparts
      exact (classFindings_eq_nil_iff hc).2 (hall name c hc)
  | _ =>
    refine iff_of_true rfl ?_
    intro name c hc
    cases hc.mem

/-! ### Where the check is right -/

/-- Neither two classes nor two interfaces of a program have the same name. -/
def DistinctNames (m : Node) : Prop :=
  (m.statements.filterMap className?).Nodup ∧ (m.statements.filterMap interfaceName?).Nodup

instance (m : Node) : Decidable m.DistinctNames := inferInstanceAs (Decidable (_ ∧ _))

/-- A class that implements an interface implements those that it extends. -/
def ListsInherited (m : Node) : Prop :=
  ∀ c ∈ m.statements, ∀ i ∈ m.statements, ∀ title ∈ i.interfaceName?, title ∈ c.implemented →
    ∀ j ∈ m.statements, ∀ other ∈ j.interfaceName?, other ∈ i.extended → other ∈ c.implemented

def SelfFree (m : Node) : Prop := ∀ i ∈ m.statements, ∀ s ∈ i.signatures, s.SelfFree

/-- A class that implements interfaces extends no class of the program. -/
def ExtendsNoClass (m : Node) : Prop :=
  ∀ c ∈ m.statements, c.implemented ≠ [] → ∀ d ∈ m.statements, ∀ name ∈ d.baseName?, name ∉ c.extended

/-- Two methods of a class with the same name and types have the same result. -/
def ResultsAgree (m : Node) : Prop :=
  ∀ c ∈ m.statements, ∀ f ∈ c.ownMethods, ∀ g ∈ c.ownMethods, f.name = g.name → f.types = g.types →
    f.returnType = g.returnType

variable {m : Node}

theorem eq_of_reaches (ha : ∀ c, ¬ Extends name? m a c) (h : Relation.ReflTransGen (Extends name? m) a b) : a = b := by
  rcases Relation.ReflTransGen.cases_head h with rfl | ⟨c, hc, _⟩
  · rfl
  · exact absurd hc (ha c)

theorem not_extends_of_extended_eq_nil (ha : a.extended = []) (b : Node) : ¬ Extends name? m a b := by
  rintro ⟨_, name, hname, _⟩
  rw [ha] at hname
  cases hname

theorem Answers.exists_provides (h : c.Answers s) (hs : s.SelfFree) : ∃ f ∈ c.ownMethods, f.Provides s := by
  obtain ⟨f, hfind, hresult⟩ := h
  obtain ⟨hname, htypes⟩ : f.name = s.name ∧ f.types = s.params.map annotatedType := by
    simpa using find?_some hfind
  exact ⟨f, mem_of_find?_eq_some hfind, hname, htypes.trans hs.types_eq.symm, hresult⟩

theorem ListsInherited.implemented_of_reachable (h : m.ListsInherited) (hc : c ∈ m.statements) (hi : i ∈ m.statements)
    (hname : i.interfaceName? = some title)
    (htitle : title ∈ c.implemented) (hreach : Relation.ReflTransGen (Extends interfaceName? m) i j) :
    j ∈ m.statements ∧ ∃ name, j.interfaceName? = some name ∧ name ∈ c.implemented := by
  induction hreach with
  | refl => exact ⟨hi, title, hname, htitle⟩
  | tail _ hstep ih =>
    obtain ⟨hk, name, hname, hlisted⟩ := ih
    obtain ⟨hj, other, hextended, hother⟩ := hstep
    exact ⟨hj, other, hother, h c hc _ hk name hname hlisted _ hj other hother hextended⟩

theorem AnswersListed.conforms (h : m.AnswersListed) (hdistinct : m.DistinctNames) (hlists : m.ListsInherited)
    (hself : m.SelfFree) : m.Conforms := by
  intro c hc title htitle
  obtain ⟨name, hclass⟩ : ∃ name, c.className? = some name := by
    cases c with
    | classDecl h => exact ⟨h.name, rfl⟩
    | _ => cases htitle
  have hlast : LastNamed className? m.statements name c := .of_nodup hdistinct.1 hc hclass
  obtain ⟨i, hi, _⟩ := h name c hlast title htitle
  refine ⟨⟨i, hi.mem, hi.named⟩, fun i hi hname j hreach s hs => ?_⟩
  obtain ⟨hj, other, hother, hlisted⟩ := hlists.implemented_of_reachable hc hi hname htitle hreach
  obtain ⟨k, hk, hanswers⟩ := h name c hlast other hlisted
  -- the names differ, so the interface that the check took is the one that was reached
  have hjk : j = k := (LastNamed.of_nodup hdistinct.2 hj hother).unique hk
  subst hjk
  exact ⟨c, .refl, (hanswers s hs).exists_provides (hself j hj s hs)⟩

theorem Conforms.answersListed (h : m.Conforms) (hself : m.SelfFree) (hextends : m.ExtendsNoClass)
    (hresults : m.ResultsAgree) : m.AnswersListed := by
  intro name c hc title htitle
  obtain ⟨⟨k, hk, hname⟩, hprovides⟩ := h c hc.mem title htitle
  obtain ⟨i, hi⟩ := LastNamed.exists_of_mem hk hname
  refine ⟨i, hi, fun s hs => ?_⟩
  obtain ⟨d, hreach, f, hf, hfname, hftypes, hfresult⟩ := hprovides i hi.mem hi.named i .refl s hs
  have hnone : ∀ b, ¬ Extends baseName? m c b := by
    rintro b ⟨hb, base, hbase, hbname⟩
    exact hextends c hc.mem (ne_nil_of_mem htitle) b hb base hbname hbase
  obtain rfl := eq_of_reaches hnone hreach
  have hsome : (c.ownMethods.find? fun g => g.name = s.name ∧ g.types = s.params.map annotatedType).isSome := by
    refine find?_isSome.2 ⟨f, hf, decide_eq_true ⟨hfname, ?_⟩⟩
    rw [hftypes, (hself i hi.mem s hs).types_eq]
  obtain ⟨g, hg⟩ := Option.isSome_iff_exists.1 hsome
  obtain ⟨hgname, hgtypes⟩ : g.name = s.name ∧ g.types = s.params.map annotatedType := by
    simpa using find?_some hg
  refine ⟨g, hg, (hresults c hc.mem g (mem_of_find?_eq_some hg) f hf ?_ ?_).trans hfresult⟩
  · exact hgname.trans hfname.symm
  · rw [hgtypes, hftypes, (hself i hi.mem s hs).types_eq]

instance : DecidablePred ListsInherited := fun _ => inferInstanceAs (Decidable (∀ _ ∈ _, _))

instance : DecidablePred SelfFree := fun _ => inferInstanceAs (Decidable (∀ _ ∈ _, _))

instance : DecidablePred ExtendsNoClass := fun _ => inferInstanceAs (Decidable (∀ _ ∈ _, _))

instance : DecidablePred ResultsAgree := fun _ => inferInstanceAs (Decidable (∀ _ ∈ _, _))

end Node

open Node

/-- The check accepts a program just if the first method of the last class of each name that has the name and the types
of a signature has its result too, for the signatures in the last interface of each name that the class implements.
What it accepts conforms if names differ, signatures have no receivers, and classes implement what the interfaces they
implement extend.  It accepts what conforms if signatures have no receivers, implementing classes extend no class of the
program, and methods with the same name and types have the same result. -/
theorem interfaceFindings_exact (m : Node) :
    (m.interfaceFindings = [] ↔ m.AnswersListed) ∧
    (m.DistinctNames → m.ListsInherited → m.SelfFree → m.interfaceFindings = [] → m.Conforms) ∧
    (m.SelfFree → m.ExtendsNoClass → m.ResultsAgree → m.Conforms → m.interfaceFindings = []) := by
  have hiff := interfaceFindings_eq_nil_iff m
  refine ⟨hiff, fun hdistinct hlists hself hnone => ?_, fun hself hextends hresults hconforms => ?_⟩
  · exact (hiff.1 hnone).conforms hdistinct hlists hself
  · exact hiff.2 (hconforms.answersListed hself hextends hresults)

def extendingSource (result : String) : String :=
  "interface A \x7b\ndef f(x: int) -> str;\n\x7d\ninterface B extends A \x7b\n\x7d\n" ++
    "class C implements B, A \x7b\ndef f(self, x: int) -> " ++ result ++ " \x7b\n\x7d\n\x7d\n"

theorem interfaceFindings_exact_extending : (∃ tokens m, tokenize (extendingSource "str") = .ok tokens ∧
      parseTokens tokens = .ok m ∧ m.interfaceFindings = [] ∧ m.AnswersListed ∧ m.Conforms) ∧
    ∃ tokens m, tokenize (extendingSource "int") = .ok tokens ∧
      parseTokens tokens = .ok m ∧ m.interfaceFindings ≠ [] ∧ ¬ m.Conforms := by
  constructor
  · obtain ⟨tokens, m, htokens, hm, hdistinct, hlists, hself, hnone⟩ :
        ∃ tokens m, tokenize (extendingSource "str") = .ok tokens ∧ parseTokens tokens = .ok m ∧
          m.DistinctNames ∧ m.ListsInherited ∧ m.SelfFree ∧ m.interfaceFindings = [] :=
            exists_parsed (by decide +kernel)
    obtain ⟨hiff, hsound, _⟩ := interfaceFindings_exact m
    exact ⟨tokens, m, htokens, hm, hnone, hiff.1 hnone, hsound hdistinct hlists hself hnone⟩
  · obtain ⟨tokens, m, htokens, hm, hself, hextends, hresults, hfound⟩ :
        ∃ tokens m, tokenize (extendingSource "int") = .ok tokens ∧ parseTokens tokens = .ok m ∧
          m.SelfFree ∧ m.ExtendsNoClass ∧ m.ResultsAgree ∧ m.interfaceFindings ≠ [] := exists_parsed (by decide +kernel)
    obtain ⟨_, _, hcomplete⟩ := interfaceFindings_exact m
    exact ⟨tokens, m, htokens, hm, hfound, fun h => hfound (hcomplete hself hextends hresults h)⟩

/-- A class without methods implements an interface that extends one with a method. -/
def inheritedSource : String :=
  "interface A \x7b\ndef f() -> int;\n\x7d\ninterface B extends A \x7b\n\x7d\nclass C implements B \x7b\n\x7d\n"

/-- A class gets the method that it needs from the class that it extends. -/
def suppliedSource : String :=
  "interface A \x7b\ndef f() -> int;\n\x7d\nclass B \x7b\ndef f(self) -> int \x7b\nreturn 1;\n\x7d\n\x7d\n" ++
    "class C extends B implements A \x7b\n\x7d\n"

/-- The check accepts a class that lacks an inherited signature, and rejects one that has an inherited method. -/
theorem exists_conformance_misjudged : (∃ tokens m, tokenize inheritedSource = .ok tokens ∧
      parseTokens tokens = .ok m ∧ m.interfaceFindings = [] ∧ ¬ m.Conforms) ∧
    ∃ tokens m, tokenize suppliedSource = .ok tokens ∧
      parseTokens tokens = .ok m ∧ m.interfaceFindings ≠ [] ∧ m.Conforms := by
  constructor
  · obtain ⟨tokens, m, htokens, hm, hnone, c, hc, hextended, hmethods, title, htitle, i, hi, hname, j, hj, other,
        hother, hjname, hsignatures⟩ : ∃ tokens m, tokenize inheritedSource = .ok tokens ∧
        parseTokens tokens = .ok m ∧ m.interfaceFindings = [] ∧ ∃ c ∈ m.statements,
          c.extended = [] ∧ c.ownMethods.isEmpty ∧ ∃ title ∈ c.implemented,
          ∃ i ∈ m.statements, i.interfaceName? = some title ∧ ∃ j ∈ m.statements, ∃ other ∈ i.extended,
            j.interfaceName? = some other ∧ j.signatures.isEmpty = false := exists_parsed (by decide +kernel)
    refine ⟨tokens, m, htokens, hm, hnone, fun hconforms => ?_⟩
    obtain ⟨s, hs⟩ := List.exists_mem_of_ne_nil j.signatures (List.isEmpty_eq_false_iff.1 hsignatures)
    obtain ⟨_, hprovides⟩ := hconforms c hc title htitle
    obtain ⟨d, hreach, f, hf, _⟩ := hprovides i hi hname j (.single ⟨hj, other, hother, hjname⟩) s hs
    -- the class extends nothing, so the method would have to be its own
    obtain rfl := eq_of_reaches (not_extends_of_extended_eq_nil hextended) hreach
    rw [List.isEmpty_iff.1 hmethods] at hf
    cases hf
  · obtain ⟨tokens, m, htokens, hm, hfound, hall⟩ : ∃ tokens m, tokenize suppliedSource = .ok tokens ∧
        parseTokens tokens = .ok m ∧ m.interfaceFindings ≠ [] ∧ ∀ c ∈ m.statements, ∀ title ∈ c.implemented,
          (∃ i ∈ m.statements, i.interfaceName? = some title) ∧
          ∀ i ∈ m.statements, i.interfaceName? = some title → i.extended = [] ∧ ∀ s ∈ i.signatures,
            ∃ d ∈ m.statements, (∃ name ∈ c.extended, d.baseName? = some name) ∧ ∃ f ∈ d.ownMethods, f.Provides s :=
      exists_parsed (by decide +kernel)
    refine ⟨tokens, m, htokens, hm, hfound, fun c hc title htitle => ?_⟩
    obtain ⟨hdeclared, hprovides⟩ := hall c hc title htitle
    refine ⟨hdeclared, fun i hi hname j hreach s hs => ?_⟩
    obtain ⟨hextended, hsupplied⟩ := hprovides i hi hname
    obtain rfl := eq_of_reaches (not_extends_of_extended_eq_nil hextended) hreach
    obtain ⟨d, hd, hbase, f, hf, hfs⟩ := hsupplied s hs
    exact ⟨d, .single ⟨hd, hbase⟩, f, hf, hfs⟩

end BraceLang
