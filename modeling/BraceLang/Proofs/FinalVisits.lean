import BraceLang.Proofs.AssignedFinals

/-!
# What the check of finals meets

`Node.finalVisits` lists, without a state, the declarations and assignments that the check of finals meets, each with
its scope: the body of a function or class is met twice, first in its own scope and then in the scope around it.
-/

namespace BraceLang

open List NameMap Node

/-- What a statement does to a name: it declares it final, or it assigns it. -/
inductive FinalAction where
  | declares (name : String)
  | assigns (name : String) (position : Position)
  deriving DecidableEq, Repr

structure FinalVisit where
  scope : String
  action : FinalAction
  deriving DecidableEq, Repr

/-- The finding on a visit after others: an assigned name that was declared in the scope or at the top level. -/
def FinalVisit.report? (seen : List FinalVisit) : FinalVisit → Option Finding
  | ⟨scope, .assigns name p⟩ =>
    if ⟨scope, .declares name⟩ ∈ seen ∨ ⟨"global", .declares name⟩ ∈ seen then some ⟨.reassigned name, p⟩ else none
  | _ => none

def reportsAfter (seen : List FinalVisit) : List FinalVisit → List Finding
  | [] => []
  | v :: vs => (v.report? seen).toList ++ reportsAfter (seen ++ [v]) vs

def finalReports (vs : List FinalVisit) : List Finding := reportsAfter [] vs

theorem reportsAfter_append (seen vs ws : List FinalVisit) :
    reportsAfter seen (vs ++ ws) = reportsAfter seen vs ++ reportsAfter (seen ++ vs) ws := by
  induction vs generalizing seen with
  | nil => simp [reportsAfter]
  | cons v vs ih => simp [reportsAfter, ih]

theorem finalReports_append (vs ws : List FinalVisit) :
    finalReports (vs ++ ws) = finalReports vs ++ reportsAfter vs ws := reportsAfter_append [] vs ws

theorem mem_reportsAfter_iff :
    f ∈ reportsAfter seen vs ↔ ∃ before v after, vs = before ++ v :: after ∧ v.report? (seen ++ before) = some f := by
  induction vs generalizing seen with
  | nil => simp [reportsAfter]
  | cons w vs ih =>
    rw [reportsAfter, mem_append, Option.mem_toList, ih]
    constructor
    · rintro (hw | ⟨before, v, after, rfl, hv⟩)
      · exact ⟨[], w, vs, rfl, by simpa using hw⟩
      · exact ⟨w :: before, v, after, rfl, by simpa using hv⟩
    · rintro ⟨before, v, after, heq, hv⟩
      rcases cons_eq_append_iff.1 heq with ⟨rfl, hnil⟩ | ⟨before, rfl, hrest⟩
      · cases hnil
        exact .inl (by simpa using hv)
      · exact .inr ⟨before, v, after, hrest, by simpa using hv⟩

namespace Node

def assigning? : Node → Option FinalAction
  | assignment (identifier name) _ _ _ p => some (.assigns name p)
  | _ => none

mutual

/-- What the statements of a node do to names, in the order of the source.  Conditionals and switches are entered only
if `branches` is set. -/
def finalActions (branches : Bool) : Node → List FinalAction
  | finalDecl (identifier name) _ _ => [.declares name]
  | expression value _ => value.walk.filterMap assigning?
  | conditional _ thenBody elseBody =>
    if branches then allFinalActions branches thenBody ++ allFinalActions branches elseBody else []
  | switch _ cases default =>
    if branches then allFinalActions branches cases ++ allFinalActions branches default else []
  | module body | classDecl _ body _ _ | function _ _ (some body) _ _ | forLoop _ body | whileLoop _ body | case _ body
  | dataClass _ _ body _ _ _ _ | enumDecl _ _ body _ _ => allFinalActions branches body
  | _ => []

def allFinalActions (branches : Bool) : List Node → List FinalAction
  | [] => []
  | n :: ns => finalActions branches n ++ allFinalActions branches ns

end

def assignedVisits (scope : String) (names : List (String × Position)) : List FinalVisit :=
  names.map fun a => ⟨scope, .assigns a.1 a.2⟩

mutual

/-- What the check meets in a node that it enters in a scope. -/
def finalVisits (scope : String) : Node → List FinalVisit
  | finalDecl (identifier name) _ _ => [⟨scope, .declares name⟩]
  | expression value _ => assignedVisits scope value.assignedNames
  | assignment (identifier name) value _ _ p => assignedVisits scope ((name, p) :: value.assignedNames)
  | assignment _ value _ _ _ => assignedVisits scope value.assignedNames
  | function h _ (some body) _ _ => allFinalVisits h.name body ++ allFinalVisits scope body
  | classDecl h body _ _ => allFinalVisits h.name body ++ allFinalVisits scope body
  | module body | forLoop _ body | whileLoop _ body | case _ body | dataClass _ _ body _ _ _ _
  | enumDecl _ _ body _ _ => allFinalVisits scope body
  | _ => []

def allFinalVisits (scope : String) : List Node → List FinalVisit
  | [] => []
  | n :: ns => finalVisits scope n ++ allFinalVisits scope ns

end

theorem allFinalActions_eq (branches : Bool) (ns : List Node) :
    allFinalActions branches ns = ns.flatMap (finalActions branches) := by
  induction ns with
  | nil => rfl
  | cons n ns ih => rw [allFinalActions, flatMap_cons, ih]

theorem allFinalVisits_eq (scope : String) (ns : List Node) :
    allFinalVisits scope ns = ns.flatMap (finalVisits scope) := by
  induction ns with
  | nil => rfl
  | cons n ns ih => rw [allFinalVisits, flatMap_cons, ih]

end Node

/-! ### The check follows the visits -/

def Finding.isReassignment (f : Finding) : Bool :=
  match f.problem with
  | .reassigned _ => true
  | _ => false

namespace FinalCheck

variable {s s' : FinalCheck} {seen : List FinalVisit}

/-- What the check knows after the visits: the declared names are final, and the assigned ones are reported. -/
structure Reflects (s : FinalCheck) (seen : List FinalVisit) : Prop where
  finals : ∀ scope name, s.isFinalIn scope name ↔ ⟨scope, .declares name⟩ ∈ seen
  reports : s.findings.filter Finding.isReassignment = finalReports seen

namespace Reflects

variable {s : FinalCheck} {seen : List FinalVisit}

theorem inScope (h : s.Reflects seen) (scope : String) : Reflects { s with scope := scope } seen :=
  ⟨h.finals, h.reports⟩

theorem enter (h : s.Reflects seen) (scope : String) : (s.enter scope).Reflects seen := by
  refine ⟨fun other name => ?_, h.reports⟩
  rw [← h.finals]
  constructor
  · intro hname
    obtain ⟨names, hnames, hname⟩ := isFinalIn_iff.1 hname
    refine isFinalIn_iff.2 ⟨names, ?_, hname⟩
    change get? (putNew scope [] s.finals) other = some names at hnames
    unfold putNew at hnames
    split at hnames
    · exact hnames
    · -- a new scope has no finals, so the name is one of a scope that was there
      rw [get?, lookup_append, ← get?] at hnames
      cases hold : get? s.finals other with
      | some => rw [hold] at hnames; exact hnames
      | none =>
        rw [hold, Option.none_or, lookup_cons] at hnames
        split at hnames
        · cases hnames; cases hname
        · cases hnames
  · exact (extends_enter s scope).finals other name

theorem checkOverrides (h : s.Reflects seen) (head : ClassHead) (body : List Node) :
    (s.checkOverrides head body).Reflects seen := by
  refine ⟨h.finals, ?_⟩
  show filter _ (s.findings ++ _) = _
  rw [filter_append, h.reports]
  refine (congrArg (finalReports seen ++ ·) (filter_eq_nil_iff.2 fun f hf => ?_)).trans (append_nil _)
  obtain ⟨n, _, hn⟩ := mem_filterMap.1 hf
  cases n with
  | function =>
    obtain ⟨base, _, rfl⟩ := Option.map_eq_some_iff.1 hn
    exact Bool.false_ne_true
  | _ => cases hn

theorem register (h : s.Reflects seen) (name : String) :
    (s.register name).Reflects (seen ++ [⟨s.scope, .declares name⟩]) := by
  refine ⟨fun scope other => ?_, ?_⟩
  · rw [mem_append, mem_singleton, ← h.finals]
    constructor
    · intro hother
      obtain ⟨names, hnames, hmem⟩ := isFinalIn_iff.1 hother
      by_cases hscope : scope = s.scope
      · subst hscope
        have hself := (get?_put_self s.scope _ s.finals).symm.trans hnames
        cases hself
        have hcases : other ∈ (get? s.finals s.scope).getD [] ∨ other = name := by
          dsimp only at hmem
          split at hmem
          · exact .inl hmem
          · simpa using hmem
        rcases hcases with hold | rfl
        · exact .inl (contains_iff_mem.2 hold)
        · exact .inr rfl
      · refine .inl (isFinalIn_iff.2 ⟨names, ?_, hmem⟩)
        exact (get?_put_of_ne hscope _ _).symm.trans hnames
    · rintro (hold | heq)
      · exact (extends_register s name).finals scope other hold
      · cases heq
        exact isFinalIn_register s name
  · rw [finalReports_append, reportsAfter, reportsAfter]
    exact h.reports.trans (append_nil _).symm

theorem assign (h : s.Reflects seen) (name : String) (p : Position) :
    (s.assign name p).Reflects (seen ++ [⟨s.scope, .assigns name p⟩]) := by
  have hfinal : s.mayAssign name = false ↔
      ⟨s.scope, .declares name⟩ ∈ seen ∨ ⟨"global", .declares name⟩ ∈ seen := by
    rw [mayAssign, Bool.not_eq_false', Bool.or_eq_true, h.finals, h.finals]
  have hreports : reportsAfter seen [⟨s.scope, .assigns name p⟩] =
      if s.mayAssign name then [] else [⟨.reassigned name, p⟩] := by
    rw [reportsAfter, reportsAfter, FinalVisit.report?, append_nil]
    cases hmay : s.mayAssign name with
    | true => rw [if_neg (hfinal.not.1 (by simp [hmay]))]; rfl
    | false => rw [if_pos (hfinal.1 hmay)]; rfl
  refine ⟨fun scope other => ?_, ?_⟩
  · have hsame : (s.assign name p).isFinalIn scope other = s.isFinalIn scope other := by
      unfold FinalCheck.assign
      split <;> rfl
    rw [hsame, h.finals, mem_append]
    simp
  · rw [finalReports_append, hreports, ← h.reports]
    unfold FinalCheck.assign
    split
    · exact (append_nil _).symm
    · exact filter_append _ _

theorem assignAll (h : s.Reflects seen) (names : List (String × Position)) :
    (s.assignAll names).Reflects (seen ++ assignedVisits s.scope names) := by
  induction names generalizing s seen with
  | nil => exact (append_nil seen).symm ▸ h
  | cons a names ih =>
    have hrest := ih (h.assign a.1 a.2)
    rw [scope_assign, List.append_assoc] at hrest
    exact hrest

end Reflects

/-- On its way through the node, the check learns and reports what the visits of the node tell. -/
def Follows (n : Node) : Prop :=
  ∀ {s s' : FinalCheck} {seen : List FinalVisit}, visit n s = .ok s' → s.Reflects seen →
    s'.Reflects (seen ++ n.finalVisits s.scope)

theorem follows_all (hns : ∀ n ∈ ns, Follows n) (h : visitAll ns s = .ok s') (hs : s.Reflects seen) :
    s'.Reflects (seen ++ allFinalVisits s.scope ns) := by
  induction ns generalizing s seen with
  | nil =>
    cases h
    exact (append_nil seen).symm ▸ hs
  | cons n ns ih =>
    obtain ⟨hn, hns⟩ := forall_mem_cons.1 hns
    obtain ⟨next, hvisit, hrest⟩ := exists_of_bind h
    have hreflects := ih hns hrest (hn hvisit hs)
    rw [(visit_steps n hvisit).2, List.append_assoc] at hreflects
    exact hreflects

theorem reflects_visit (n : Node) : Follows n := by
  induction n using body_induction with
  | h n ih =>
    intro s s' seen h hs
    cases n with
    | finalDecl target =>
      cases target with
      | identifier name =>
        cases h
        exact hs.register name
      | _ =>
        cases h
        exact (append_nil seen).symm ▸ hs
    | expression value =>
      cases h
      exact hs.assignAll value.assignedNames
    | assignment target => cases target <;> cases h <;> exact hs.assignAll _
    | function head params body =>
      cases body with
      | none => cases h
      | some =>
        obtain ⟨inner, hinner, hagain⟩ := exists_of_visit_function h
        have hfirst := follows_all (ih _ rfl) hinner (hs.enter head.name)
        have hsecond := follows_all (ih _ rfl) hagain (hfirst.inScope s.scope)
        rw [finalVisits, ← List.append_assoc]
        exact hsecond
    | classDecl head body =>
      obtain ⟨inner, hinner, hagain⟩ := exists_of_visit_classDecl h
      have hfirst := follows_all (ih _ rfl) hinner ((hs.enter head.name).checkOverrides head body)
      have hsecond := follows_all (ih _ rfl) hagain (hfirst.inScope s.scope)
      rw [finalVisits, ← List.append_assoc]
      exact hsecond
    | module | forLoop | whileLoop | case | dataClass | enumDecl => exact follows_all (ih _ rfl) h hs
    | _ =>
      cases h
      exact (append_nil seen).symm ▸ hs

theorem reflects_visitAll (ns : List Node) (h : visitAll ns s = .ok s')
    (hs : s.Reflects seen) : s'.Reflects (seen ++ allFinalVisits s.scope ns) :=
  follows_all (fun n _ => reflects_visit n) h hs

end FinalCheck

end BraceLang
