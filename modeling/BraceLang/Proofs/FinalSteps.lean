import BraceLang.Analysis.Finals
import BraceLang.Syntax.Part
import Mathlib.Logic.Relation

/-!
# The steps of the check of finals

From a node, the check of finals enters its body, and no branch of a conditional or switch.
-/

namespace BraceLang

open List

namespace Node

mutual

/-- The classes that the check meets in a node, each with its body. -/
def heldClasses : Node → List (ClassHead × List Node)
  | classDecl h body _ _ => (h, body) :: allHeldClasses body
  | module body | function _ _ (some body) _ _ | forLoop _ body | whileLoop _ body | case _ body
  | dataClass _ _ body _ _ _ _ | enumDecl _ _ body _ _ => allHeldClasses body
  | _ => []

def allHeldClasses : List Node → List (ClassHead × List Node)
  | [] => []
  | n :: ns => heldClasses n ++ allHeldClasses ns

end

theorem allHeldClasses_eq (ns : List Node) : allHeldClasses ns = ns.flatMap heldClasses := by
  induction ns with
  | nil => rfl
  | cons n ns ih => rw [allHeldClasses, flatMap_cons, ih]

end Node

open Node

namespace FinalCheck

variable {annotations body ns params : List Node}

/-! ### Noting classes -/

def noteClass (s : FinalCheck) (c : ClassHead × List Node) : FinalCheck := s.addClass c.1 c.2

theorem collectAll_eq_foldl_of (h : ∀ n ∈ ns, ∀ s, collect n s = n.heldClasses.foldl noteClass s)
    (s : FinalCheck) : collectAll ns s = (allHeldClasses ns).foldl noteClass s := by
  induction ns generalizing s with
  | nil => rfl
  | cons n ns ih =>
    obtain ⟨hn, hns⟩ := forall_mem_cons.1 h
    rw [collectAll, allHeldClasses, foldl_append, hn, ih hns]

theorem collect_eq_foldl (n : Node) : ∀ s, collect n s = n.heldClasses.foldl noteClass s := by
  induction n using body_induction with
  | h n ih =>
    intro s
    cases n with
    | classDecl head body => exact collectAll_eq_foldl_of (ih _ rfl) (s.addClass head body)
    | function _ _ body =>
      cases body with
      | none => rfl
      | some => exact collectAll_eq_foldl_of (ih _ rfl) s
    | module | forLoop | whileLoop | case | dataClass | enumDecl => exact collectAll_eq_foldl_of (ih _ rfl) s
    | _ => rfl

theorem collectAll_eq_foldl (ns : List Node) (s : FinalCheck) :
    collectAll ns s = (allHeldClasses ns).foldl noteClass s :=
  collectAll_eq_foldl_of (fun n _ => collect_eq_foldl n) s

theorem collectAll_keeps (ns : List Node) (s : FinalCheck) : (collectAll ns s).finals = s.finals ∧
    (collectAll ns s).findings = s.findings ∧ (collectAll ns s).scope = s.scope := by
  rw [collectAll_eq_foldl]
  induction allHeldClasses ns generalizing s with
  | nil => exact ⟨rfl, rfl, rfl⟩
  | cons c cs ih => exact ih (s.noteClass c)

/-! ### Going through a program -/

variable {s s' : FinalCheck} {classes : List (ClassHead × List Node)}

theorem exists_of_bind {α β : Type} {x : Except FinalCheckError α} {f : α → Except FinalCheckError β} {b : β}
    (h : x >>= f = .ok b) : ∃ a, x = .ok a ∧ f a = .ok b := by
  cases x with
  | error => cases h
  | ok a => exact ⟨a, rfl, h⟩

/-- The body of a function is gone through in its own scope and then in the scope around it. -/
theorem exists_of_visit_function {head : FunctionHead}
    (h : visit (.function head params (some body) typeParams annotations) s = .ok s') :
    ∃ inner, visitAll body (s.enter head.name) = .ok inner ∧ visitAll body { inner with scope := s.scope } = .ok s' :=
  exists_of_bind h

theorem exists_of_visit_classDecl {head : ClassHead} (h : visit (.classDecl head body params annotations) s = .ok s') :
    ∃ inner, visitAll body ((s.enter head.name).checkOverrides head body) = .ok inner ∧
      visitAll body { inner with scope := s.scope } = .ok s' :=
  exists_of_bind h

/-- What the check can do at once, when it meets the given classes. -/
inductive Step (classes : List (ClassHead × List Node)) : FinalCheck → FinalCheck → Prop
  | register (s : FinalCheck) (name : String) : Step classes s (s.register name)
  | assign (s : FinalCheck) (name : String) (p : Position) : Step classes s (s.assign name p)
  | enter (s : FinalCheck) (name : String) : Step classes s (s.enter name)
  | inScope (s : FinalCheck) (scope : String) : Step classes s { s with scope := scope }
  | checkOverrides (s : FinalCheck) {c : ClassHead × List Node} (hc : c ∈ classes) :
      Step classes s (s.checkOverrides c.1 c.2)

abbrev Steps (classes : List (ClassHead × List Node)) : FinalCheck → FinalCheck → Prop :=
  Relation.ReflTransGen (Step classes)

variable {more : List (ClassHead × List Node)}

theorem Step.mono (h : Step classes s s') (hmore : classes ⊆ more) : Step more s s' := by
  cases h with
  | register => exact .register s _
  | assign => exact .assign s _ _
  | enter => exact .enter s _
  | inScope => exact .inScope s _
  | checkOverrides hc => exact .checkOverrides s (hmore hc)

theorem Steps.mono (h : Steps classes s s') (hmore : classes ⊆ more) :
    Steps more s s' := Relation.ReflTransGen.mono (fun _ _ (hstep : Step classes _ _) => hstep.mono hmore) _ _ h

theorem scope_assign (s : FinalCheck) (name : String) (p : Position) : (s.assign name p).scope = s.scope := by
  unfold assign
  split <;> rfl

theorem steps_assignAll (s : FinalCheck) (names : List (String × Position)) :
    Steps classes s (s.assignAll names) ∧ (s.assignAll names).scope = s.scope := by
  induction names generalizing s with
  | nil => exact ⟨.refl, rfl⟩
  | cons a names ih =>
    obtain ⟨hsteps, hscope⟩ := ih (s.assign a.1 a.2)
    exact ⟨.head (.assign s a.1 a.2) hsteps, hscope.trans (scope_assign s a.1 a.2)⟩

/-- The check gets through the node in steps, and ends in the scope where it started. -/
def Walks (n : Node) : Prop :=
  ∀ {s s' : FinalCheck}, visit n s = .ok s' → Steps n.heldClasses s s' ∧ s'.scope = s.scope

theorem walks_all (hns : ∀ n ∈ ns, Walks n) (h : visitAll ns s = .ok s') :
    Steps (allHeldClasses ns) s s' ∧ s'.scope = s.scope := by
  induction ns generalizing s with
  | nil =>
    cases h
    exact ⟨.refl, rfl⟩
  | cons n ns ih =>
    obtain ⟨hn, hns⟩ := forall_mem_cons.1 hns
    obtain ⟨next, hvisit, hrest⟩ := exists_of_bind h
    obtain ⟨hfirst, hscope⟩ := hn hvisit
    obtain ⟨hsecond, hscope'⟩ := ih hns hrest
    exact ⟨(hfirst.mono (subset_append_left ..)).trans (hsecond.mono (subset_append_right ..)),
      hscope'.trans hscope⟩

theorem visit_steps (n : Node) : Walks n := by
  induction n using body_induction with
  | h n ih =>
    intro s s' h
    cases n with
    | finalDecl target =>
      cases target with
      | identifier name =>
        cases h
        exact ⟨.single (.register s name), rfl⟩
      | _ =>
        cases h
        exact ⟨.refl, rfl⟩
    | expression =>
      cases h
      exact steps_assignAll s _
    | assignment target => cases target <;> cases h <;> exact steps_assignAll s _
    | function head params body =>
      cases body with
      | none => cases h
      | some =>
        obtain ⟨inner, hinner, hagain⟩ := exists_of_visit_function h
        obtain ⟨hfirst, _⟩ := walks_all (ih _ rfl) hinner
        obtain ⟨hsecond, hscope⟩ := walks_all (ih _ rfl) hagain
        exact ⟨.head (.enter s head.name) (hfirst.trans (.head (.inScope inner s.scope) hsecond)), hscope⟩
    | classDecl head body =>
      obtain ⟨inner, hinner, hagain⟩ := exists_of_visit_classDecl h
      obtain ⟨hfirst, _⟩ := walks_all (ih _ rfl) hinner
      obtain ⟨hsecond, hscope⟩ := walks_all (ih _ rfl) hagain
      have hbody := Steps.mono (hfirst.trans (.head (.inScope inner s.scope) hsecond))
        (subset_cons_self (head, body) _)
      exact ⟨.head (.enter s head.name) (.head (.checkOverrides _ (c := (head, body)) (.head _)) hbody), hscope⟩
    | module | forLoop | whileLoop | case | dataClass | enumDecl => exact walks_all (ih _ rfl) h
    | _ =>
      cases h
      exact ⟨.refl, rfl⟩

theorem visitAll_steps (ns : List Node) (h : visitAll ns s = .ok s') :
    Steps (allHeldClasses ns) s s' ∧ s'.scope = s.scope :=
  walks_all (fun n _ => visit_steps n) h

end FinalCheck

end BraceLang
