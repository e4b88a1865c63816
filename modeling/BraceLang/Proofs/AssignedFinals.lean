import BraceLang.Proofs.ExpressionText
import BraceLang.Proofs.FinalSteps
import BraceLang.Proofs.InlinedCalls

/-!
# Names that are assigned

The body of a function or class is checked a second time in the scope around it.
-/

namespace BraceLang

open NameMap Node

variable {W : TokenKind → String → Prop} {site : Site} {s s' : FinalCheck}

namespace Node

/-- The statement assigns the name, and not only in a conditional or a switch. -/
inductive Assigns (name : String) : Node → Prop
  | expression {e value : Node} {operator type : Option String} {p : Position} {semicolon : Bool}
      (h : assignment (identifier name) value operator type p ∈ e.walk) : Assigns name (expression e semicolon)
  | forLoop {clause n : Node} {body : List Node} (hn : n ∈ body) (h : Assigns name n) :
      Assigns name (forLoop clause body)
  | whileLoop {condition n : Node} {body : List Node} (hn : n ∈ body) (h : Assigns name n) :
      Assigns name (whileLoop condition body)
  | function {head : FunctionHead} {params body typeParams annotations : List Node} {n : Node} (hn : n ∈ body)
      (h : Assigns name n) : Assigns name (function head params (some body) typeParams annotations)
  | classDecl {head : ClassHead} {body params annotations : List Node} {n : Node} (hn : n ∈ body)
      (h : Assigns name n) : Assigns name (classDecl head body params annotations)
  | dataClass {title : String} {fields body params annotations : List Node} {bases : List String} {p : Position}
      {n : Node} (hn : n ∈ body) (h : Assigns name n) :
      Assigns name (dataClass title fields body params bases annotations p)
  | enumDecl {title : String} {members body annotations : List Node} {p : Position} {n : Node} (hn : n ∈ body)
      (h : Assigns name n) : Assigns name (enumDecl title members body annotations p)

/-! ### Assignments in an expression -/

def isAnnotationUse : Node → Bool
  | annotationUse .. => true
  | _ => false

def hasNoKeys : Field → Bool
  | .keyed .. => false
  | _ => true

variable {n : Node} {f : String × Field} {role : Role} {head : FunctionHead} {params ns : List Node}

theorem plainMembers_eq (h : n.isAnnotationUse = false) (hf : f ∈ n.fields) :
    f.2.plainMembers = f.2.members := by
  have hall : n.fields.all (fun f => hasNoKeys f.2) := by
    cases n with
    | annotationUse => cases h
    | _ => rfl
  have hfield := List.all_eq_true.1 hall f hf
  obtain ⟨_, f⟩ := f
  cases f with
  | keyed => cases hfield
  | _ => rfl

theorem assignedNames_subset (hf : f ∈ n.fields) (hm : m ∈ f.2.plainMembers) :
    m.assignedNames ⊆ n.assignedNames := by
  intro a ha
  rw [assignedNames.eq_def]
  refine List.mem_append_right _ (List.mem_flatMap.2 ⟨⟨f, hf⟩, List.mem_attach _ _, ?_⟩)
  exact List.mem_flatMap.2 ⟨⟨m, hm⟩, List.mem_attach _ _, ha⟩

theorem mem_assignedNames {n : Node} (hn : n.Everywhere fun m => m.isAnnotationUse = false) {name : String}
    (h : assignment (identifier name) value operator type p ∈ n.walk) : (name, p) ∈ n.assignedNames := by
  rcases mem_walk_iff.1 h with rfl | ⟨c, hc, hmem⟩
  · rw [assignedNames]
    exact List.mem_append_left _ List.mem_cons_self
  · obtain ⟨f, hf, hc⟩ := List.mem_flatMap.1 hc
    have hc := (List.mem_filter.1 hc).1
    have hfound := mem_assignedNames (hn.of_mem_fields hf hc) hmem
    have hplain : n.isAnnotationUse = false := by
      cases n with
      | missing => rfl
      | _ => exact hn.here
    exact assignedNames_subset hf (plainMembers_eq hplain hf ▸ hc) hfound
termination_by sizeOf n
decreasing_by exact sizeOf_lt_of_mem_members hf hc

theorem mem_walk_of_mem_members (hf : f ∈ n.fields) (hm : m ∈ f.2.members) (hk : k ∈ m.walk)
    (hpresent : k.isPresent) : k ∈ n.walk := by
  cases hp : m.isPresent with
  | true => exact mem_walk_of_mem_children (mem_children hf hm hp) hk
  | false =>
    cases m with
    | missing =>
      rcases mem_walk_iff.1 hk with rfl | ⟨c, hc, _⟩
      · cases hpresent
      · cases hc
    | _ => cases hp

theorem exists_mem_walk_of_mem_assignedNames {n : Node} {name : String} (h : (name, p) ∈ n.assignedNames) :
    ∃ value operator type, assignment (identifier name) value operator type p ∈ n.walk := by
  have hfields {f : String × Field} {m : Node} (hf : f ∈ n.fields) (hm : m ∈ f.2.members)
      (hmem : (name, p) ∈ m.assignedNames) :
      ∃ value operator type, assignment (identifier name) value operator type p ∈ n.walk := by
    have hsize := sizeOf_lt_of_mem_members hf hm
    obtain ⟨value, operator, type, hwalk⟩ := exists_mem_walk_of_mem_assignedNames hmem
    exact ⟨value, operator, type, mem_walk_of_mem_members hf hm hwalk rfl⟩
  rw [assignedNames.eq_def] at h
  rcases List.mem_append.1 h with hown | hparts
  · split at hown
    · next target value operator type q =>
      rcases List.mem_cons.1 hown with heq | hvalue
      · cases heq
        exact ⟨value, operator, type, mem_walk_self _⟩
      · exact hfields (.tail _ (.head _)) (.head _) hvalue
    · next target value operator type q _ =>
      exact hfields (.tail _ (.head _)) (.head _) hown
    · cases hown
  · obtain ⟨f, _, hf⟩ := List.mem_flatMap.1 hparts
    obtain ⟨m, _, hm⟩ := List.mem_flatMap.1 hf
    exact hfields f.2 (Field.mem_members_of_mem_plainMembers m.2) hm
termination_by sizeOf n

end Node

theorem Fits.annotationFree (h : Fits W role n) (hrole : role.isExpression) :
    n.Everywhere fun m => m.isAnnotationUse = false := by
  induction h with
  | identifier | truth | nothing | literal | missing => exact everywhere_iff.2 ⟨fun _ => rfl, nofun⟩
  | sequence _ _ ih | dictionary _ ih =>
    exact everywhere_iff.2 ⟨fun _ => rfl, List.forall_mem_append.2 ⟨fun n hn => ih n hn rfl, nofun⟩⟩
  | member _ _ ih | namedArgument _ _ ih | unary _ _ ih =>
    exact everywhere_iff.2 ⟨fun _ => rfl, List.forall_mem_cons.2 ⟨ih rfl, nofun⟩⟩
  | plainArgument _ ih | plainIndex _ ih | present _ ih => exact ih rfl
  | @call callee arguments _ _ ihcallee ihargs =>
    have hargs : ∀ n ∈ arguments ++ [], n.Everywhere fun m => m.isAnnotationUse = false :=
      List.forall_mem_append.2 ⟨fun n hn => ihargs n hn rfl, nofun⟩
    exact everywhere_iff.2 ⟨fun _ => rfl, List.forall_mem_cons.2 ⟨ihcallee rfl, hargs⟩⟩
  | entry _ _ ih ih' | subscript _ _ ih ih' | binary _ _ _ ih ih' | logical _ _ _ ih ih' | assignment _ _ _ ih ih'
  | declared _ _ _ ih ih' =>
    exact everywhere_iff.2 ⟨fun _ => rfl, List.forall_mem_cons.2 ⟨ih rfl, List.forall_mem_cons.2 ⟨ih' rfl, nofun⟩⟩⟩
  | slice _ _ _ ihstart ihstop ihstep =>
    exact everywhere_iff.2 ⟨fun _ => rfl, List.forall_mem_cons.2 ⟨ihstart rfl, List.forall_mem_cons.2 ⟨ihstop rfl,
      List.forall_mem_cons.2 ⟨ihstep rfl, nofun⟩⟩⟩⟩
  | comprehension _ _ _ _ _ _ ihelement ihplace ihsource ihcondition ihkey =>
    exact everywhere_iff.2 ⟨fun _ => rfl, List.forall_mem_cons.2 ⟨ihelement rfl, List.forall_mem_cons.2 ⟨ihplace rfl,
      List.forall_mem_cons.2 ⟨ihsource rfl, List.forall_mem_cons.2 ⟨ihcondition rfl,
        List.forall_mem_cons.2 ⟨ihkey rfl, nofun⟩⟩⟩⟩⟩⟩
  | _ => cases hrole

namespace FinalCheck

variable {annotations body : List Node} {name : String}

/-! ### What a check keeps -/

theorem isFinalIn_iff {scope : String} :
    s.isFinalIn scope name ↔ ∃ names, get? s.finals scope = some names ∧ name ∈ names := by
  rw [isFinalIn, List.contains_iff_mem]
  cases get? s.finals scope with
  | none => exact ⟨nofun, nofun⟩
  | some names => exact ⟨fun h => ⟨names, rfl, h⟩, fun ⟨_, hnames, h⟩ => Option.some.inj hnames ▸ h⟩

structure Extends (s s' : FinalCheck) : Prop where
  finals : ∀ scope name, s.isFinalIn scope name → s'.isFinalIn scope name
  findings : s.findings <+: s'.findings

variable {s s' s'' : FinalCheck}

namespace Extends

theorem refl (s : FinalCheck) : s.Extends s := ⟨fun _ _ h => h, List.prefix_rfl⟩

theorem trans (h : s.Extends s') (h' : s'.Extends s'') : s.Extends s'' :=
  ⟨fun scope name hfinal => h'.finals scope name (h.finals scope name hfinal), h.findings.trans h'.findings⟩

theorem inScope (h : s.Extends s') (scope : String) : s.Extends { s' with scope := scope } := ⟨h.finals, h.findings⟩

theorem findings_eq_nil (h : s.Extends s') (hs : s'.findings = []) : s.findings = [] :=
  List.prefix_nil.1 (hs ▸ h.findings)

theorem mayAssign (h : s.Extends s') (hscope : s'.scope = s.scope) (hname : s'.mayAssign name) :
    s.mayAssign name := by
  simp only [FinalCheck.mayAssign, hscope, Bool.not_eq_true', Bool.or_eq_false_iff] at hname ⊢
  exact ⟨Bool.eq_false_iff.2 fun hfinal => Bool.eq_false_iff.1 hname.1 (h.finals _ _ hfinal),
    Bool.eq_false_iff.2 fun hfinal => Bool.eq_false_iff.1 hname.2 (h.finals _ _ hfinal)⟩

end Extends

theorem extends_enter (s : FinalCheck) (scope : String) : s.Extends (s.enter scope) := by
  refine ⟨fun other name h => ?_, List.prefix_rfl⟩
  obtain ⟨names, hnames, hname⟩ := isFinalIn_iff.1 h
  refine isFinalIn_iff.2 ⟨names, ?_, hname⟩
  show get? (putNew scope [] s.finals) other = some names
  unfold putNew
  split
  · exact hnames
  · rw [get?, List.lookup_append, ← get?, hnames]
    rfl

theorem get?_register (s : FinalCheck) (name : String) : ∃ names,
    get? (s.register name).finals s.scope = some names ∧ name ∈ names ∧
      ∀ other, s.isFinalIn s.scope other → other ∈ names := by
  refine ⟨_, get?_put_self _ _ _, ?_, fun other h => ?_⟩
  · show name ∈ if name ∈ _ then _ else _
    split
    · assumption
    · exact List.mem_append_right _ (List.mem_singleton.2 rfl)
  · obtain ⟨names, hnames, hother⟩ := isFinalIn_iff.1 h
    rw [hnames]
    show other ∈ if name ∈ names then names else names ++ [name]
    split
    · exact hother
    · exact List.mem_append_left _ hother

theorem isFinalIn_register (s : FinalCheck) (name : String) : (s.register name).isFinalIn s.scope name := by
  obtain ⟨names, hnames, hname, _⟩ := get?_register s name
  exact isFinalIn_iff.2 ⟨names, hnames, hname⟩

theorem extends_register (s : FinalCheck) (name : String) : s.Extends (s.register name) := by
  refine ⟨fun scope other h => ?_, List.prefix_rfl⟩
  by_cases hscope : scope = s.scope
  · subst hscope
    obtain ⟨names, hnames, _, hothers⟩ := get?_register s name
    exact isFinalIn_iff.2 ⟨names, hnames, hothers other h⟩
  · obtain ⟨names, hnames, hother⟩ := isFinalIn_iff.1 h
    exact isFinalIn_iff.2 ⟨names, (get?_put_of_ne hscope _ _).trans hnames, hother⟩

theorem extends_checkOverrides (s : FinalCheck) (h : ClassHead) (body : List Node) :
    s.Extends (s.checkOverrides h body) := ⟨fun _ _ h => h, List.prefix_append _ _⟩

theorem extends_assign (s : FinalCheck) (name : String) (p : Position) : s.Extends (s.assign name p) := by
  unfold assign
  split
  · exact .refl s
  · exact ⟨fun _ _ h => h, List.prefix_append _ _⟩

theorem extends_assignAll (s : FinalCheck) (names : List (String × Position)) : s.Extends (s.assignAll names) := by
  induction names generalizing s with
  | nil => exact .refl s
  | cons a names ih => exact (extends_assign s a.1 a.2).trans (ih _)

theorem mayAssign_of_findings {names : List (String × Position)} (h : (s.assignAll names).findings = [])
    (hmem : (name, p) ∈ names) : s.mayAssign name := by
  induction names generalizing s with
  | nil => cases hmem
  | cons a names ih =>
    have hfirst : s.mayAssign a.1 := by
      have hfindings := (extends_assignAll (s.assign a.1 a.2) names).findings_eq_nil h
      by_contra hnot
      simp [assign, hnot] at hfindings
    have hassign : s.assign a.1 a.2 = s := if_pos hfirst
    rcases List.mem_cons.1 hmem with rfl | hmem
    · exact hfirst
    · exact ih (by rw [← hassign]; exact h) hmem

/-! ### Going through a program -/

theorem Steps.extends {classes : List (ClassHead × List Node)} (h : Steps classes s s') : s.Extends s' := by
  induction h with
  | refl => exact .refl s
  | tail _ hstep ih =>
    refine ih.trans ?_
    cases hstep with
    | register => exact extends_register ..
    | assign => exact extends_assign ..
    | enter => exact extends_enter ..
    | inScope => exact (Extends.refl _).inScope _
    | checkOverrides => exact extends_checkOverrides ..

theorem extends_visit (n : Node) (h : visit n s = .ok s') : s.Extends s' ∧ s'.scope = s.scope :=
  (visit_steps n h).imp_left Steps.extends

theorem extends_visitAll (ns : List Node) (h : visitAll ns s = .ok s') : s.Extends s' ∧ s'.scope = s.scope :=
  (visitAll_steps ns h).imp_left Steps.extends

/-- If nothing is found on the way through the node, the names that it assigns are not final where the way starts. -/
def Guards (n : Node) : Prop :=
  ∀ {s s' : FinalCheck} {name : String}, visit n s = .ok s' → s'.findings = [] → n.Assigns name →
    s.mayAssign name

theorem mayAssign_of_mem (hguards : ∀ n ∈ ns, Guards n) (h : visitAll ns s = .ok s') (hs : s'.findings = [])
    (hn : n ∈ ns) (hname : n.Assigns name) : s.mayAssign name := by
  induction ns generalizing s with
  | nil => cases hn
  | cons m ms ih =>
    obtain ⟨next, hm, hms⟩ := exists_of_bind h
    obtain ⟨hextends, hscope⟩ := extends_visit m hm
    obtain ⟨hguard, hguards⟩ := List.forall_mem_cons.1 hguards
    rcases List.mem_cons.1 hn with rfl | hn
    · exact hguard hm ((extends_visitAll ms hms).1.findings_eq_nil hs) hname
    · exact hextends.mayAssign hscope (ih hguards hms hn)

theorem guards_function (hbody : ∀ n ∈ body, Guards n) :
    Guards (.function head params (some body) typeParams annotations) := by
  intro s s' name h hs hname
  obtain ⟨inner, hinner, hagain⟩ := exists_of_visit_function h
  cases hname with
  | function hn hname =>
    -- the second time, the body is gone through in the scope of the function
    have hlater := mayAssign_of_mem hbody hagain hs hn hname
    exact (((extends_enter s head.name).trans (extends_visitAll body hinner).1).inScope s.scope).mayAssign rfl hlater

theorem guards_classDecl (hbody : ∀ n ∈ body, Guards n) : Guards (.classDecl head body params annotations) := by
  intro s s' name h hs hname
  obtain ⟨inner, hinner, hagain⟩ := exists_of_visit_classDecl h
  cases hname with
  | classDecl hn hname =>
    have hlater := mayAssign_of_mem hbody hagain hs hn hname
    have hentered := (extends_enter s head.name).trans (extends_checkOverrides _ head body)
    exact ((hentered.trans (extends_visitAll body hinner).1).inScope s.scope).mayAssign rfl hlater

end FinalCheck

open FinalCheck

theorem Fits.guards (h : Fits W role n) : Guards n := by
  induction h with
  | expressionStatement h | declaration h =>
    intro s s' name hvisit hs hname
    cases hvisit
    cases hname with
    | expression hmem =>
      exact mayAssign_of_findings hs (mem_assignedNames (h.annotationFree rfl) hmem)
  | forLoop _ _ _ ih =>
    intro s s' name hvisit hs hname
    cases hname with
    | forLoop hn hname => exact mayAssign_of_mem ih hvisit hs hn hname
  | whileLoop _ _ _ ih =>
    intro s s' name hvisit hs hname
    cases hname with
    | whileLoop hn hname => exact mayAssign_of_mem ih hvisit hs hn hname
  | plainMember _ ih | plainTop _ ih | plainArgument _ ih | plainIndex _ ih | present _ ih => exact ih
  | function _ _ _ _ _ _ _ ihbody => exact guards_function ihbody
  | classDecl _ _ _ _ _ _ ihbody => exact guards_classDecl ihbody
  | dataClass _ _ _ _ _ _ ihbody =>
    intro s s' name hvisit hs hname
    cases hname with
    | dataClass hn hname => exact mayAssign_of_mem ihbody hvisit hs hn hname
  | enumDecl _ _ _ _ _ ihbody =>
    intro s s' name hvisit hs hname
    cases hname with
    | enumDecl hn hname => exact mayAssign_of_mem ihbody hvisit hs hn hname
  | _ => exact fun _ _ hname => nomatch hname

/-! ### Finals in force -/

namespace Node

mutual

/-- Outside of functions, no final stands in a conditional or a switch. -/
def declaresPlainly : Node → Bool
  | module body | classDecl _ body _ _ | dataClass _ _ body _ _ _ _ | enumDecl _ _ body _ _ | forLoop _ body
  | whileLoop _ body => allDeclarePlainly body
  | conditional c t e => (conditional c t e).walk.all fun n => n.finalName?.isNone
  | switch subject cases default => (switch subject cases default).walk.all fun n => n.finalName?.isNone
  | _ => true

def allDeclarePlainly : List Node → Bool
  | [] => true
  | n :: ns => declaresPlainly n && allDeclarePlainly ns

end

end Node

def Role.isBlockPart : Role → Bool
  | statement | case | annotationUse => true
  | _ => false

section

variable {P : Mention → Prop} {V : ValueScope → Prop} {site : Site}

/-- No scope is entered in a block, so that its names are written in the scope around it. -/
theorem Fits.takes (h : Fits W role n) (hrole : role.isBlockPart)
    (hP : ∀ values, V values → ∀ name, P ⟨name, site.scopes values⟩)
    (hV : n.Everywhere fun m => ∀ name ∈ m.finalName?, ∀ value values, V values → V ((name, value) :: values)) :
    Takes P V V (n.inlined site) := by
  induction h with
  | pass | imports => exact takes_pure _
  | expressionStatement | declaration => exact (takes_inlinedExpression hP _).bind fun _ => takes_pure _
  | @finalDecl place =>
    have hplace := hV.here
    refine (takes_fill hP _).bind fun _ => (takes_fill hP _).bind fun value => ?_
    cases place with
    | identifier name => exact (takes_declare (fun _ h => h) (hplace name rfl value)).bind fun _ => takes_pure _
    | _ => exact takes_pure _
  | returns | raises => exact (takes_fill hP _).bind fun _ => takes_pure _
  | conditional _ _ _ _ ih ih' | switch _ _ _ _ ih ih' =>
    exact (takes_fill hP _).bind fun _ =>
      (takes_inlinedAll fun n hn => ih n hn rfl (hV.nodes 1 rfl n hn)).bind fun _ =>
      (takes_inlinedAll fun n hn => ih' n hn rfl (hV.nodes 2 rfl n hn)).bind fun _ => takes_pure _
  | forLoop _ _ _ ih | whileLoop _ _ _ ih | case _ _ _ ih =>
    exact (takes_fill hP _).bind fun _ =>
      (takes_inlinedAll fun n hn => ih n hn rfl (hV.nodes 1 rfl n hn)).bind fun _ => takes_pure _
  | annotationUse => exact takes_annotationUse hP _ _ _ _
  | _ => cases hrole

end

/-- The check knows that the finals of the scope are final. -/
def Seen (s : FinalCheck) (values : ValueScope) : Prop := ∀ e ∈ values, s.isFinalIn s.scope e.1

theorem seen_nil (s : FinalCheck) (values : ValueScope) (h : values = []) : Seen s values := by
  subst h
  exact nofun

theorem FinalCheck.Extends.seen (h : s.Extends s') (hscope : s'.scope = s.scope)
    (values : ValueScope) (hseen : Seen s values) : Seen s' values := by
  intro e he
  rw [hscope]
  exact h.finals _ _ (hseen e he)

/-- What the owner of a scope assigns is not in force in the scopes around it. -/
def Settled : List OwnedScope → Prop
  | [] => True
  | scope :: outer => (∀ owner ∈ scope.owner, ∀ name, owner.Assigns name → inForce? outer name = none) ∧ Settled outer

theorem Settled.of_append {scope : OwnedScope} {inner : List OwnedScope} {name : String}
    (h : Settled (inner ++ scope :: outer)) (howner : scope.owner = some owner) (hname : owner.Assigns name) :
    inForce? outer name = none := by
  induction inner with
  | nil => exact h.1 owner howner name hname
  | cons _ _ ih => exact ih h.2

/-- Where the check finds nothing, the node and what stands in it assign no finals of the scopes around them. -/
def Node.Heeds (n : Node) : Prop :=
  ∀ {site : Site} {s s' : FinalCheck}, visit n s = .ok s' → s'.findings = [] → Settled (site.scopes []) →
    (∀ name, n.Assigns name → inForce? site.outer name = none) → n.declaresPlainly →
    Takes (fun x => Settled x.scopes) (Seen s) (Seen s') (n.inlined site)

theorem takes_heeding (hns : ∀ n ∈ ns, n.Heeds) (h : visitAll ns s = .ok s') (hs : s'.findings = [])
    (hsettled : Settled (site.scopes [])) (hnames : ∀ n ∈ ns, ∀ name, n.Assigns name → inForce? site.outer name = none)
    (hplain : allDeclarePlainly ns) :
    Takes (fun x => Settled x.scopes) (Seen s) (Seen s') (inlinedAll site ns) := by
  induction ns generalizing s with
  | nil =>
    cases h
    exact takes_pure []
  | cons n ns ih =>
    obtain ⟨next, hn, hrest⟩ := exists_of_bind h
    obtain ⟨hheeds, hns⟩ := List.forall_mem_cons.1 hns
    obtain ⟨hname, hnames⟩ := List.forall_mem_cons.1 hnames
    obtain ⟨hplain, hplains⟩ := Bool.and_eq_true_iff.1 hplain
    have hnext := (extends_visitAll ns hrest).1.findings_eq_nil hs
    exact (hheeds hn hnext hsettled hname hplain).bind fun _ =>
      (ih hns hrest hnames hplains).bind fun _ => takes_pure _

theorem settled_within (hsettled : Settled (site.scopes [])) (hseen : Seen s values)
    (hassign : ∀ name, n.Assigns name → s.mayAssign name)
    (hnames : ∀ name, n.Assigns name → inForce? site.outer name = none) :
    Settled ((site.within values n).scopes []) := by
  refine ⟨fun owner howner name hname => ?_, hsettled⟩
  cases howner
  have hlookup : values.lookup name = none := by
    refine List.lookup_eq_none_iff.2 fun e he => ?_
    have hfree := hassign name hname
    have hfinal := hseen e he
    rw [FinalCheck.mayAssign, Bool.not_eq_true', Bool.or_eq_false_iff] at hfree
    rw [bne_iff_ne]
    rintro rfl
    rw [hfinal] at hfree
    cases hfree.1
  show List.findSome? _ (_ :: _) = none
  rw [List.findSome?_cons, hlookup]
  exact hnames name hname

section

variable {W : TokenKind → String → Prop} {body annotations : List Node}

theorem heeds_function (hbody : ∀ n ∈ body, Fits W .statement n)
    (hannotations : ∀ n ∈ annotations, Fits W .annotationUse n) :
    (function head params (some body) typeParams annotations).Heeds := by
  intro site s s' h hs hsettled hnames _
  obtain ⟨hextends, hscope⟩ := extends_visit _ h
  have hassign : ∀ name, (function head params (some body) typeParams annotations).Assigns name →
      s.mayAssign name := fun name => guards_function (fun n hn => (hbody n hn).guards) h hs
  have hinside {values : ValueScope} (hseen : Seen s values) {ns : List Node} {role : Role}
      (hrole : role.isBlockPart) (hns : ∀ n ∈ ns, Fits W role n) :
      Takes (fun x => Settled x.scopes) (fun _ => True) (fun _ => True) (inlinedAll (site.within values _) ns) :=
    takes_inlinedAll fun n hn => (hns n hn).takes hrole
      (fun _ _ _ => settled_within hsettled hseen hassign hnames) fun _ _ _ _ _ _ _ _ => trivial
  by_cases habstract : head.isAbstract
  · rw [inlined_abstract site habstract]
    exact takes_get fun t hseen => (((hinside hseen rfl hannotations).bind fun _ =>
      takes_pure _).strengthen fun _ _ => trivial).inScope.weaken (hextends.seen hscope)
  · rw [inlined_concrete site habstract]
    exact takes_get fun t hseen => (((hinside hseen rfl hannotations).bind fun _ =>
      (hinside hseen rfl hbody).bind fun _ => takes_pure _).strengthen fun _ _ => trivial).inScope.weaken
        (hextends.seen hscope)

theorem heeds_classDecl (hbody : ∀ n ∈ body, n.Heeds) (hguards : ∀ n ∈ body, Guards n) :
    (classDecl head body params annotations).Heeds := by
  intro site s s' h hs hsettled hnames hplain
  obtain ⟨inner, hinner, hagain⟩ := exists_of_visit_classDecl h
  obtain ⟨hextends, hscope⟩ := extends_visit _ h
  have hinnerFindings : inner.findings = [] := (extends_visitAll body hagain).1.findings_eq_nil hs
  have hassign : ∀ name, (classDecl head body params annotations).Assigns name → s.mayAssign name :=
    fun name => guards_classDecl hguards h hs
  refine takes_get fun t hseen => ?_
  have hwithin := settled_within hsettled hseen hassign hnames
  have hmembers := takes_heeding hbody hinner hinnerFindings hwithin
    (fun n hn name hname => hwithin.1 _ rfl name (.classDecl hn hname)) hplain
  exact ((hmembers.strengthen (seen_nil _)).inScope.bind fun _ => takes_pure _).weaken (hextends.seen hscope)

theorem heeds_of_finalFree (h : Fits W .statement n) (hvisit : ∀ s, visit n s = .ok s)
    (hfree : n.declaresPlainly = n.walk.all fun m => m.finalName?.isNone) : n.Heeds := by
  intro site s s' hs _ hsettled _ hplain
  cases (hvisit s).symm.trans hs
  refine h.takes rfl (fun _ _ _ => hsettled) fun m hm _ name hname => ?_
  rw [hfree, List.all_eq_true] at hplain
  have hnone := hplain m hm
  rw [Option.mem_def.1 hname] at hnone
  cases hnone

end

def Role.Heeds : Role → Node → Prop
  | statement, n | member, n | top, n => n.Heeds
  | program, .module body => ∀ n ∈ body, n.Heeds
  | _, _ => True

theorem Fits.heeds (h : Fits W role n) : role.Heeds n := by
  induction h with
  | pass | imports | interface =>
    intro site s s' hvisit _ _ _ _
    cases hvisit
    exact takes_pure _
  | expressionStatement | declaration =>
    intro site s s' hvisit _ hsettled _ _
    obtain ⟨hextends, hscope⟩ := extends_visit _ hvisit
    exact ((takes_inlinedExpression (fun _ _ _ => hsettled) _).bind fun _ => takes_pure _).weaken
      (hextends.seen hscope)
  | @finalDecl place =>
    intro site s s' hvisit _ hsettled _ _
    refine (takes_fill (fun _ _ _ => hsettled) _).bind fun _ =>
      (takes_fill (fun _ _ _ => hsettled) _).bind fun value => ?_
    cases place with
    | identifier name =>
      cases hvisit
      have hregister := (extends_register s name).seen rfl
      refine (takes_declare hregister fun values hseen => ?_).bind fun _ => takes_pure _
      exact List.forall_mem_cons.2 ⟨isFinalIn_register s name, hregister values hseen⟩
    | _ =>
      cases hvisit
      exact takes_pure _
  | returns | raises =>
    intro site s s' hvisit _ hsettled _ _
    cases hvisit
    exact (takes_fill (fun _ _ _ => hsettled) _).bind fun _ => takes_pure _
  | conditional hcondition hthen helse =>
    exact heeds_of_finalFree (.conditional hcondition hthen helse) (fun _ => rfl) rfl
  | switch hsubject hcases hdefault =>
    exact heeds_of_finalFree (.switch hsubject hcases hdefault) (fun _ => rfl) rfl
  | forLoop _ _ _ ih =>
    intro site s s' hvisit hs hsettled hnames hplain
    exact (takes_fill (fun _ _ _ => hsettled) _).bind fun _ =>
      (takes_heeding ih hvisit hs hsettled (fun n hn name hname => hnames name (.forLoop hn hname)) hplain).bind
        fun _ => takes_pure _
  | whileLoop _ _ _ ih =>
    intro site s s' hvisit hs hsettled hnames hplain
    exact (takes_fill (fun _ _ _ => hsettled) _).bind fun _ =>
      (takes_heeding ih hvisit hs hsettled (fun n hn name hname => hnames name (.whileLoop hn hname)) hplain).bind
        fun _ => takes_pure _
  | plainMember _ ih | plainTop _ ih => exact ih
  | function _ _ _ _ hbody hannotations => exact heeds_function hbody hannotations
  | classDecl _ _ _ hbody _ _ ihbody => exact heeds_classDecl ihbody fun n hn => (hbody n hn).guards
  | dataClass _ _ _ _ _ _ ihbody =>
    intro site s s' hvisit hs hsettled hnames hplain
    exact (takes_heeding ihbody hvisit hs hsettled (fun n hn name hname => hnames name (.dataClass hn hname))
      hplain).bind fun _ => takes_pure _
  | @enumDecl _ members _ _ _ _ hmembers _ _ _ ihbody =>
    intro site s s' hvisit hs hsettled hnames hplain
    have hlisted : Takes (fun x => Settled x.scopes) (Seen s) (Seen s) (inlinedAll site members) := by
      refine takes_inlinedAll fun n hn => ?_
      cases hmembers n hn with
      | enumMember => exact (takes_fillAll (fun _ _ _ => hsettled) _).bind fun _ => takes_pure _
    exact hlisted.bind fun _ =>
      (takes_heeding ihbody hvisit hs hsettled (fun n hn name hname => hnames name (.enumDecl hn hname))
        hplain).bind fun _ => takes_pure _
  | module _ ih => exact ih
  | _ => trivial

/-- If the check of the finals finds nothing and no final stands in a conditional or a switch outside of functions,
then no name that a function or class assigns is in force in the scopes around it. -/
theorem settled_of_mem_mentions (h : Fits W .program m) (hrun : FinalCheck.run m = .ok s) (hs : s.findings = [])
    (hplain : m.declaresPlainly)
    (hx : x ∈ m.mentions) : Settled x.scopes := by
  have hheeds := h.heeds
  cases h with
  | @module body hbody =>
    have hsettled : Settled ((module body).site.scopes []) := ⟨nofun, trivial⟩
    have htakes := takes_heeding hheeds hrun hs hsettled (fun _ _ _ _ => rfl) hplain
    exact ((htakes {} (seen_nil _ _ rfl)).2 x hx).resolve_left List.not_mem_nil

end BraceLang
