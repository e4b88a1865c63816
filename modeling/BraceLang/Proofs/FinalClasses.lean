import BraceLang.Proofs.AlikeTables
import BraceLang.Proofs.DecoratedAnalysis
import BraceLang.Proofs.FinalSteps
import BraceLang.Proofs.InterfaceConformance
import BraceLang.SourceUnit

/-!
# Final classes

A class can be marked final, and a program can then still extend it: no check of the analysis reads the mark of a
class.
-/

namespace BraceLang

open List NameMap

variable {W : TokenKind → String → Prop} {n m : Node}

def ClassHead.remarked (mark : ClassHead → Bool) (h : ClassHead) : ClassHead := { h with isFinal := mark h }

namespace Node

def remarked (mark : ClassHead → Bool) : Node → Node
  | classDecl h body params annotations => classDecl (h.remarked mark) body params annotations
  | n => n

def withFinalClasses (mark : ClassHead → Bool) : Node → Node
  | module body => module (body.map (remarked mark))
  | n => n

def classHead? : Node → Option ClassHead
  | classDecl h .. => some h
  | _ => none

def classHeads (m : Node) : List ClassHead := m.statements.filterMap classHead?

/-- Some class of the program extends a class that the program declares final. -/
def ExtendsFinal (m : Node) : Prop := ∃ c ∈ m.classHeads, ∃ d ∈ m.classHeads, d.name ∈ c.bases ∧ d.isFinal

instance (m : Node) : Decidable m.ExtendsFinal :=
  inferInstanceAs (Decidable (∃ c ∈ m.classHeads, ∃ d ∈ m.classHeads, d.name ∈ c.bases ∧ d.isFinal))

variable (mark : ClassHead → Bool)

/-! ### Decorators and overloads -/

theorem isFunctionNamed_remarked (name : String) (n : Node) :
    (n.remarked mark).isFunctionNamed name = n.isFunctionNamed name := by cases n <;> rfl

theorem parameterTypes_remarked (n : Node) : (n.remarked mark).parameterTypes = n.parameterTypes := by
  cases n <;> rfl

theorem remarked_of_isFunctionNamed {name : String} (h : n.isFunctionNamed name) : n.remarked mark = n := by
  cases n with
  | classDecl => cases h
  | _ => rfl

theorem filter_isFunctionNamed_map (name : String) (body : List Node) :
    (body.map (remarked mark)).filter (isFunctionNamed name) = body.filter (isFunctionNamed name) := by
  have hsame : isFunctionNamed name ∘ remarked mark = isFunctionNamed name :=
    funext (isFunctionNamed_remarked mark name)
  rw [filter_map, hsame]
  have hid : ∀ n ∈ body.filter (isFunctionNamed name), n.remarked mark = n := fun n hn =>
    remarked_of_isFunctionNamed mark (mem_filter.1 hn).2
  rw [map_congr_left hid, map_id']

theorem decorateOverload_remarked (body earlier : List Node) (n : Node) :
    decorateOverload (body.map (remarked mark)) (earlier.map (remarked mark)) (n.remarked mark) =
      (decorateOverload body earlier n).remarked mark := by
  cases n with
  | function h params body' typeParams annotations =>
    let f := function h params body' typeParams annotations
    have hrepeated : (earlier.map (remarked mark)).any (fun e => e.isFunctionNamed h.name &&
          signatureText h.name e.parameterTypes = signatureText h.name f.parameterTypes) =
        earlier.any fun e => e.isFunctionNamed h.name &&
          signatureText h.name e.parameterTypes = signatureText h.name f.parameterTypes := by
      rw [any_map]
      simp only [Function.comp_def, isFunctionNamed_remarked, parameterTypes_remarked]
    have hfunction (d : String) : (addDecorator d f).remarked mark = addDecorator d f := by
      rw [addDecorator]
      split <;> rfl
    rw [show f.remarked mark = f from rfl, decorateOverload, decorateOverload, filter_isFunctionNamed_map, hrepeated]
    split
    · exact (hfunction _).symm
    · rfl
  | _ => rfl

theorem decorateBody_map_remarked (body : List Node) :
    decorateBody (body.map (remarked mark)) = (decorateBody body).map (remarked mark) := by
  have hrest (earlier rest : List Node) :
      decorateRest (body.map (remarked mark)) (earlier.map (remarked mark)) (rest.map (remarked mark)) =
        (decorateRest body earlier rest).map (remarked mark) := by
    induction rest generalizing earlier with
    | nil => rfl
    | cons n rest ih =>
      have hearlier : (earlier ++ [n]).map (remarked mark) = earlier.map (remarked mark) ++ [n.remarked mark] := by
        rw [map_append, map_singleton]
      rw [map_cons, decorateRest, decorateRest, decorateOverload_remarked, map_cons, ← hearlier, ih]
  exact hrest [] body

theorem decorateAll_map_remarked (ns : List Node) :
    decorateAll (ns.map (remarked mark)) = (decorateAll ns).map (remarked mark) := by
  have hn (n : Node) : (n.remarked mark).decorateClasses = n.decorateClasses.remarked mark := by
    cases n with
    | function h params body => cases body <;> rfl
    | _ => rfl
  induction ns with
  | nil => rfl
  | cons n ns ih => rw [map_cons, decorateAll, decorateAll, hn, ih, map_cons]

theorem decorated_withFinalClasses (m : Node) :
    (m.withFinalClasses mark).decorated = m.decorated.withFinalClasses mark := by
  cases m with
  | module =>
    simp only [withFinalClasses, decorated, decorateAll_map_remarked, decorateBody_map_remarked]
  | _ => rfl

theorem overloadFindings_withFinalClasses (m : Node) :
    (m.withFinalClasses mark).overloadFindings = m.overloadFindings := by
  have hnames (body : List Node) : functionNames (body.map (remarked mark)) = functionNames body := by
    rw [functionNames, functionNames, filterMap_map]
    refine congrArg (fun f => (filterMap f body).eraseDups) (funext fun n => ?_)
    cases n <;> rfl
  have hgroups (body : List Node) :
      overloadGroups none (body.map (remarked mark)) = overloadGroups none body := by
    simp only [overloadGroups, hnames, filter_isFunctionNamed_map]
  have hclasses (body : List Node) : allClassOverloads (body.map (remarked mark)) = allClassOverloads body := by
    induction body with
    | nil => rfl
    | cons n body ih =>
      have hn : (n.remarked mark).classOverloads = n.classOverloads := by cases n <;> rfl
      rw [map_cons, allClassOverloads, allClassOverloads, hn, ih]
  cases m with
  | module => rw [overloadFindings, overloadFindings, withFinalClasses, overloads, overloads, hgroups, hclasses]
  | _ => rfl

/-! ### Interfaces -/

theorem classesByName_map_remarked (body : List Node) : classesByName (body.map (remarked mark)) =
    (classesByName body).map fun e => (e.1, (e.2.1.remarked mark, e.2.2)) := by
  rw [classesByName_eq, classesByName_eq]
  induction body using reverseRecOn with
  | nil => rfl
  | append_singleton body n ih =>
    rw [map_append, map_singleton, ofNodes_append_singleton, ofNodes_append_singleton, ih]
    cases n with
    | classDecl h members =>
      exact put_map (fun c : ClassHead × List Node => (c.1.remarked mark, c.2)) h.name (h, members) _
    | _ => rfl

theorem interfaceFindings_withFinalClasses (m : Node) :
    (m.withFinalClasses mark).interfaceFindings = m.interfaceFindings := by
  have hmethods (body : List Node) : interfaceMethods (body.map (remarked mark)) = interfaceMethods body := by
    rw [interfaceMethods, interfaceMethods, foldl_map]
    refine congrArg (fun f => foldl f [] body) (funext fun methods => funext fun n => ?_)
    cases n <;> rfl
  cases m with
  | module =>
    rw [withFinalClasses, interfaceFindings, interfaceFindings, hmethods, classesByName_map_remarked, flatMap_map]
    rfl
  | _ => rfl

/-! ### Types and bounds -/

theorem checkedIn_remarked (scope : String) (n : Node) : (n.remarked mark).checkedIn scope = n.checkedIn scope := by
  cases n <;> rfl

theorem calls_withFinalClasses (m : Node) : (m.withFinalClasses mark).calls = m.calls := by
  have hn (n : Node) : (n.remarked mark).calls = n.calls := by
    cases n with
    | classDecl =>
      rw [calls_eq, calls_eq]
      rfl
    | _ => rfl
  cases m with
  | module body =>
    rw [withFinalClasses, calls_module, calls_module, flatMap_map]
    exact congrArg (flatMap · body) (funext hn)
  | _ => rfl

end Node

open Node

section

variable (mark : ClassHead → Bool)

theorem Fits.remarked (h : Fits W .top n) : Fits W .top (n.remarked mark) := by
  cases h with
  | classDecl hname hbases hinterfaces hbody hparams hannotations =>
    exact .classDecl hname hbases hinterfaces hbody hparams hannotations
  | plainTop h =>
    have hn : n.remarked mark = n := by
      cases h with
      | function => rfl
      | plainMember h => cases h <;> rfl
    rw [hn]
    exact .plainTop h
  | dataClass hname hfields hbody hparams hannotations => exact .dataClass hname hfields hbody hparams hannotations
  | enumDecl hname hmembers hbody hannotations => exact .enumDecl hname hmembers hbody hannotations
  | interface hname hmethods hbases hannotations => exact .interface hname hmethods hbases hannotations

theorem Fits.withFinalClasses (h : Fits W .program m) : Fits W .program (m.withFinalClasses mark) := by
  cases h with
  | module hbody =>
    refine .module fun n hn => ?_
    obtain ⟨k, hk, rfl⟩ := mem_map.1 hn
    exact (hbody k hk).remarked mark

theorem withKnown_map_remarked (known : List String) (ns : List Node) :
    withKnown known (ns.map (Node.remarked mark)) = (withKnown known ns).map fun i => (i.1, i.2.remarked mark) := by
  induction ns generalizing known with
  | nil => rfl
  | cons n ns ih =>
    have hname : (n.remarked mark).typeName? = n.typeName? := by cases n <;> rfl
    rw [map_cons, withKnown, withKnown, hname, ih, map_cons]

theorem items_withFinalClasses (h : Fits W .program m) :
    (m.withFinalClasses mark).items = m.items.map fun i => (i.1, i.2.remarked mark) := by
  cases h with
  | module => exact withKnown_map_remarked mark [] _

theorem Fits.alike_withFinalClasses (h : Fits W .program m) :
    SymbolTable.Alike (fun _ => true) (m.withFinalClasses mark).symbols m.symbols := by
  refine (h.withFinalClasses mark).alike_symbols h ?_
  rw [items_withFinalClasses mark h, forall₂_map_left_iff]
  refine forall₂_same.2 fun i _ => ?_
  obtain ⟨known, n⟩ := i
  cases n with
  | classDecl => exact .members rfl rfl rfl rfl (forall₂_same.2 fun k _ => .same k)
  | _ => exact .same _

theorem Fits.agree_withFinalClasses (h : Fits W .program m) (scope : String) :
    SymbolTable.Agree scope (m.withFinalClasses mark).symbols m.symbols := by
  have hrecords' := (h.withFinalClasses mark).records_symbols
  have hdeclarations : (m.withFinalClasses mark).declarations = m.declarations := by
    rw [declarations, items_withFinalClasses mark h, flatMap_map]
    refine congrArg (flatMap · _) (funext fun i => ?_)
    obtain ⟨known, n⟩ := i
    cases n <;> rfl
  have hopenings : (m.withFinalClasses mark).openings = m.openings := by
    rw [openings, blocks, items_withFinalClasses mark h, flatMap_map, map_flatMap, openings, blocks,
      map_flatMap]
    refine congrArg (flatMap · _) (funext fun i => ?_)
    obtain ⟨known, n⟩ := i
    cases n <;> rfl
  rw [hdeclarations, hopenings] at hrecords'
  exact (h.alike_withFinalClasses mark).sameOutline.agree hrecords' h.records_symbols (fun _ => rfl) fun _ _ _ => rfl

theorem Fits.checkTypes_withFinalClasses (h : Fits W .program m) (p : Node) :
    ((m.withFinalClasses mark).symbols.checkTypes (p.withFinalClasses mark) []).findings =
      (m.symbols.checkTypes p []).findings := by
  cases p with
  | module body =>
    have hexpressions : allCheckedIn "global" (body.map (Node.remarked mark)) = allCheckedIn "global" body := by
      rw [allCheckedIn_eq, allCheckedIn_eq, flatMap_map]
      exact congrArg (flatMap · body) (funext (checkedIn_remarked mark "global"))
    rw [Node.withFinalClasses, SymbolTable.checkTypes, SymbolTable.checkTypes, SymbolTable.checkNodes_eq,
      SymbolTable.checkNodes_eq, hexpressions]
    exact congrArg TypeCheck.findings
      (SymbolTable.checkEach_congr (fun e _ => h.agree_withFinalClasses mark e.1) { bindings := [] })
  | _ => rfl

end

/-! ### Finals -/

namespace FinalCheck

variable {s s' : FinalCheck}

def unmarked (s : FinalCheck) : FinalCheck :=
  { s with classes := s.classes.map fun c => (c.1, c.2.remarked fun _ => false) }

theorem inherited_unmarked (s : FinalCheck) (bases : List String) : s.unmarked.inherited bases = s.inherited bases := by
  have hfrom (n : Nat) (above : List String) (name : String) :
      s.unmarked.finalsFrom n above name = s.finalsFrom n above name := by
    induction n generalizing above name with
    | zero => rfl
    | succ n ih =>
      have hclass : get? s.unmarked.classes name =
          (get? s.classes name).map (ClassHead.remarked fun _ => false) := get?_map ..
      rw [finalsFrom, finalsFrom, hclass]
      cases get? s.classes name with
      | none => rfl
      | some h =>
        have hbases : (h.remarked fun _ => false).bases = h.bases := rfl
        simp only [Option.map_some, ih, hbases]
        rfl
  have hlength : s.unmarked.classes.length = s.classes.length := length_map _
  simp only [inherited, hfrom, hlength]

theorem assignAll_unmarked (s : FinalCheck) (names : List (String × Position)) :
    s.unmarked.assignAll names = (s.assignAll names).unmarked := by
  induction names generalizing s with
  | nil => rfl
  | cons a names ih =>
    have hassign : s.unmarked.assign a.1 a.2 = (s.assign a.1 a.2).unmarked := by
      have hmay : s.unmarked.mayAssign a.1 = s.mayAssign a.1 := rfl
      rw [assign, assign, hmay]
      split <;> rfl
    rw [assignAll, assignAll, foldl_cons, foldl_cons, hassign]
    exact ih _

theorem checkOverrides_unmarked (s : FinalCheck) (h : ClassHead) (body : List Node) :
    s.unmarked.checkOverrides h body = (s.checkOverrides h body).unmarked := by
  rw [checkOverrides, checkOverrides, inherited_unmarked]
  rfl

theorem visitAll_twice_unmarked (h : ∀ s, visitAll body s.unmarked = (visitAll body s).map unmarked) (s : FinalCheck)
    (scope : String) :
    (do visitAll body { ← visitAll body s.unmarked with scope := scope }) =
      (do visitAll body { ← visitAll body s with scope := scope }).map unmarked := by
  rw [h s]
  cases visitAll body s with
  | error => rfl
  | ok inner => exact h { inner with scope := scope }

theorem visitAll_unmarked_of (h : ∀ n ∈ ns, ∀ s : FinalCheck, visit n s.unmarked = (visit n s).map unmarked)
    (s : FinalCheck) : visitAll ns s.unmarked = (visitAll ns s).map unmarked := by
  induction ns generalizing s with
  | nil => rfl
  | cons n ns ih =>
    obtain ⟨hn, hns⟩ := forall_mem_cons.1 h
    rw [visitAll, visitAll, hn s]
    cases visit n s with
    | error => rfl
    | ok s' => exact ih hns s'

theorem visit_unmarked (n : Node) : ∀ s : FinalCheck, visit n s.unmarked = (visit n s).map unmarked := by
  induction n using body_induction with
  | h n ih =>
    intro s
    cases n with
    | finalDecl target => cases target <;> rfl
    | expression value => exact congrArg Except.ok (assignAll_unmarked s value.assignedNames)
    | assignment target => cases target <;> exact congrArg Except.ok (assignAll_unmarked s _)
    | function h _ body =>
      cases body with
      | none => rfl
      | some => exact visitAll_twice_unmarked (visitAll_unmarked_of (ih _ rfl)) (s.enter h.name) s.scope
    | classDecl h =>
      rw [visit, visit, show s.unmarked.enter h.name = (s.enter h.name).unmarked from rfl, checkOverrides_unmarked]
      exact visitAll_twice_unmarked (visitAll_unmarked_of (ih _ rfl)) _ s.scope
    | module | forLoop | whileLoop | case | dataClass | enumDecl => exact visitAll_unmarked_of (ih _ rfl) s
    | _ => rfl

theorem visitAll_unmarked (ns : List Node) (s : FinalCheck) : visitAll ns s.unmarked = (visitAll ns s).map unmarked :=
  visitAll_unmarked_of (fun n _ => visit_unmarked n) s

theorem addClass_unmarked (s : FinalCheck) (head : ClassHead) (body : List Node) :
    (s.addClass head body).unmarked = s.unmarked.addClass (head.remarked fun _ => false) body := by
  have hput := put_map (ClassHead.remarked fun _ => false) head.name head s.classes
  rw [addClass, unmarked, ← hput]
  rfl

theorem unmarked_foldl (h : s.unmarked = s'.unmarked) (classes : List (ClassHead × List Node)) :
    (classes.foldl noteClass s).unmarked = (classes.foldl noteClass s').unmarked := by
  induction classes generalizing s s' with
  | nil => exact h
  | cons c classes ih =>
    refine ih ?_
    rw [noteClass, noteClass, addClass_unmarked, addClass_unmarked, h]

theorem unmarked_collect (h : s.unmarked = s'.unmarked) (n : Node) :
    (collect n s).unmarked = (collect n s').unmarked := by
  rw [collect_eq_foldl, collect_eq_foldl]
  exact unmarked_foldl h _

theorem unmarked_collectAll (h : s.unmarked = s'.unmarked) (ns : List Node) :
    (collectAll ns s).unmarked = (collectAll ns s').unmarked := by
  rw [collectAll_eq_foldl, collectAll_eq_foldl]
  exact unmarked_foldl h _

theorem unmarked_collectAll_map_remarked (mark : ClassHead → Bool) (ns : List Node) (h : s.unmarked = s'.unmarked) :
    (collectAll (ns.map (Node.remarked mark)) s).unmarked = (collectAll ns s').unmarked := by
  induction ns generalizing s s' with
  | nil => exact h
  | cons n ns ih =>
    refine ih ?_
    cases n with
    | classDecl head body =>
      refine unmarked_collectAll ?_ body
      rw [addClass_unmarked, addClass_unmarked, h]
      rfl
    | _ => exact unmarked_collect h _

theorem run_withFinalClasses (mark : ClassHead → Bool) (p : Node) :
    (run (p.withFinalClasses mark)).map unmarked = (run p).map unmarked := by
  have hvisit (ns : List Node) : visitAll (ns.map (Node.remarked mark)) = visitAll ns := by
    funext s
    have hn : visit ∘ Node.remarked mark = visit := by
      funext n s
      cases n <;> rfl
    rw [visitAll_eq, visitAll_eq, List.map_map, hn]
  cases p with
  | module body =>
    rw [Node.withFinalClasses, run, run, hvisit, ← visitAll_unmarked, ← visitAll_unmarked,
      unmarked_collectAll_map_remarked mark body rfl]
  | _ => rfl

theorem checkFinals_withFinalClasses (mark : ClassHead → Bool) (p : Node) :
    (checkFinals (p.withFinalClasses mark)).map FinalCheck.findings = (checkFinals p).map FinalCheck.findings := by
  have hfindings (p : Node) : (checkFinals p).map FinalCheck.findings =
      (((run p).map unmarked).mapError AnalysisError.stopped).map FinalCheck.findings := by
    unfold checkFinals
    cases run p <;> rfl
  rw [hfindings, hfindings, run_withFinalClasses]

end FinalCheck

/-! ### The analysis -/

theorem Fits.analyse_withFinalClasses (h : Fits W .program m) (mark : ClassHead → Bool) (p : Node) :
    analyse (m.withFinalClasses mark).symbols (p.withFinalClasses mark) = analyse m.symbols p := by
  have halike := h.alike_withFinalClasses mark
  have hbounds : (m.withFinalClasses mark).symbols.boundFindings (p.withFinalClasses mark) =
      m.symbols.boundFindings p := by
    rw [SymbolTable.boundFindings, SymbolTable.boundFindings, calls_withFinalClasses]
    refine congrArg (flatMap · p.calls) (funext fun n => ?_)
    exact halike.sameOutline.boundFindingsAt_eq fun name _ => halike.get?_variableTypes_eq rfl
  have hfinals : (checkFinals (p.withFinalClasses mark) >>= fun s => failOn .finals s.findings) =
      (checkFinals p >>= fun s => failOn .finals s.findings) := by
    have heq := FinalCheck.checkFinals_withFinalClasses mark p
    cases hs : checkFinals (p.withFinalClasses mark) <;> cases hs' : checkFinals p <;> rw [hs, hs'] at heq <;>
      simp_all [Except.map, bind, Except.bind]
  rw [analyse, analyse, overloadFindings_withFinalClasses, h.checkTypes_withFinalClasses,
    interfaceFindings_withFinalClasses, hbounds, hfinals]

theorem Node.extendsFinal_withFinalClasses_iff (mark : ClassHead → Bool) : (m.withFinalClasses mark).ExtendsFinal ↔
      ∃ c ∈ m.classHeads, ∃ d ∈ m.classHeads, d.name ∈ c.bases ∧ mark d := by
  have hheads : (m.withFinalClasses mark).classHeads = m.classHeads.map (ClassHead.remarked mark) := by
    cases m with
    | module body =>
      change (body.map (remarked mark)).filterMap classHead? = (body.filterMap classHead?).map (ClassHead.remarked mark)
      rw [filterMap_map, map_filterMap]
      refine congrArg (filterMap · body) (funext fun n => ?_)
      cases n <;> rfl
    | _ => rfl
  rw [ExtendsFinal, hheads]
  constructor
  · rintro ⟨_, hc, _, hd, hbase, hfinal⟩
    obtain ⟨c, hmemc, rfl⟩ := mem_map.1 hc
    obtain ⟨d, hmemd, rfl⟩ := mem_map.1 hd
    exact ⟨c, hmemc, d, hmemd, hbase, hfinal⟩
  · rintro ⟨c, hc, d, hd, hbase, hfinal⟩
    exact ⟨_, mem_map_of_mem hc, _, mem_map_of_mem hd, hbase, hfinal⟩

/-- The decisive analysis of a parsed program has the same outcome whatever classes of the program are final, although
the marks decide whether the program extends a final class. -/
theorem analysisError?_withFinalClasses {u : SourceUnit} (hu : parseTokens u.tokens = .ok u.program)
    (mark : ClassHead → Bool) :
    ({ u with program := u.program.withFinalClasses mark } : SourceUnit).prepare.analysisError? true =
      u.prepare.analysisError? true ∧
    ((u.program.withFinalClasses mark).ExtendsFinal ↔
      ∃ c ∈ u.program.classHeads, ∃ d ∈ u.program.classHeads, d.name ∈ c.bases ∧ mark d) := by
  have hfits : Fits (fun _ _ => True) .program u.program := parseTokens_fits (fun _ _ => trivial) hu
  have hanalyse : analyse (u.program.withFinalClasses mark).symbols (u.program.withFinalClasses mark).decorated =
      analyse u.program.symbols u.program.decorated := by
    rw [decorated_withFinalClasses]
    exact hfits.analyse_withFinalClasses mark u.program.decorated
  refine ⟨?_, extendsFinal_withFinalClasses_iff mark⟩
  simp only [SourceUnit.analysisError?, SourceUnit.prepare, SourceUnit.resolveOverloads, SourceUnit.collectSymbols,
    SourceUnit.knownSymbols, Option.getD_some, hanalyse, if_true]

/-- A final class that two classes extend, each in one of the two ways to write it. -/
def extendedSource : String := "final class A \x7b\n\x7d\nclass B extends A \x7b\n\x7d\nclass C(A) \x7b\n\x7d\n"

theorem analysisError?_withFinalClasses_extended : ∃ tokens m, tokenize extendedSource = .ok tokens ∧
    parseTokens tokens = .ok m ∧ m.ExtendsFinal ∧ ¬ (m.withFinalClasses fun _ => false).ExtendsFinal ∧
    ({ tokens := tokens, program := m.withFinalClasses fun _ => false } : SourceUnit).prepare.analysisError? true =
      ({ tokens := tokens, program := m } : SourceUnit).prepare.analysisError? true := by
  obtain ⟨tokens, m, htokens, hm, hextends⟩ : ∃ tokens m, tokenize extendedSource = .ok tokens ∧
      parseTokens tokens = .ok m ∧ m.ExtendsFinal := exists_parsed (by decide +kernel)
  obtain ⟨houtcome, hiff⟩ :=
    analysisError?_withFinalClasses (u := { tokens := tokens, program := m }) hm fun _ => false
  exact ⟨tokens, m, htokens, hm, hextends, by simp [hiff], houtcome⟩

/-- The decisive analysis accepts a program whose classes extend a final class. -/
theorem exists_final_class_extended : ∃ tokens m, tokenize extendedSource = .ok tokens ∧ parseTokens tokens = .ok m ∧
    m.classHeads.map (fun c => (c.name, c.isFinal, c.bases)) =
      [("A", true, []), ("B", false, ["A"]), ("C", false, ["A"])] ∧
    m.ExtendsFinal ∧ ({ program := m } : SourceUnit).prepare.analysisError? true = none :=
  exists_parsed (by decide +kernel)

end BraceLang
