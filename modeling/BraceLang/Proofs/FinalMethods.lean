import BraceLang.Proofs.Reassignments
import Mathlib.Data.List.Nodup

/-!
# Final methods

The check of finals looks for the final methods of a class in the classes that can be reached by extension.
-/

namespace BraceLang

open List NameMap Node Relation

def Node.functionHead? : Node → Option FunctionHead
  | .function h .. => some h
  | _ => none

theorem Node.allHeldClasses_append (ns ms : List Node) :
    allHeldClasses (ns ++ ms) = allHeldClasses ns ++ allHeldClasses ms := by
  rw [allHeldClasses_eq, allHeldClasses_eq, allHeldClasses_eq, flatMap_append]

def Extending (classes : List (ClassHead × List Node)) (cls base : String) : Prop :=
  ∃ c ∈ classes, c.1.name = cls ∧ base ∈ c.1.bases
  deriving Decidable

def HasFinalMethod (classes : List (ClassHead × List Node)) (cls method : String) : Prop :=
  ∃ c ∈ classes, c.1.name = cls ∧ ∃ f ∈ c.2.filterMap functionHead?, f.isFinal ∧ f.name = method

instance (classes : List (ClassHead × List Node)) (cls method : String) :
    Decidable (HasFinalMethod classes cls method) := inferInstanceAs (Decidable (∃ c ∈ classes, _))

/-- The findings on the methods of a class, if `base` gives the class whose final method is overridden. -/
def overrideReports (base : String → Option String) (head : ClassHead) (body : List Node) : List Finding :=
  (body.filterMap functionHead?).filterMap fun f =>
    (base f.name).map fun b => ⟨.overridden head.name f.name b, f.position⟩

def Finding.isOverrideIn (cls : String) (f : Finding) : Bool :=
  match f.problem with
  | .overridden c _ _ => c = cls
  | _ => false

namespace FinalCheck

variable {s s' : FinalCheck} {method : String} {b base : String} {annotations params : List Node}

/-! ### The search -/

def basesOf (s : FinalCheck) (cls : String) : List String := (get? s.classes cls).elim [] ClassHead.bases

def Links (s : FinalCheck) (cls base : String) : Prop := base ∈ s.basesOf cls

def Notes (s : FinalCheck) (cls method : String) : Prop := method ∈ (get? s.finalMethods cls).getD []

theorem get?_mergeNew (m new : NameMap String) (name : String) :
    get? (mergeNew m new) name = (get? m name).or (get? new name) := by
  induction new generalizing m with
  | nil => exact (Option.or_none).symm
  | cons e new ih =>
    rw [mergeNew, foldl_cons, ← mergeNew, ih, get?_putNew, Option.or_assoc]
    congr 1
    rw [get?, get?, lookup_cons]
    by_cases h : name = e.1
    · simp [h]
    · simp [h, beq_false_of_ne h]

theorem get?_foldl_mergeNew (f : String → NameMap String) (bases : List String) (m : NameMap String) (name : String) :
    get? (bases.foldl (fun m base => mergeNew m (f base)) m) name =
      (get? m name).or (bases.findSome? fun base => get? (f base) name) := by
  induction bases generalizing m with
  | nil => exact (Option.or_none).symm
  | cons base bases ih =>
    rw [foldl_cons, ih, get?_mergeNew, Option.or_assoc, findSome?_cons]
    cases get? (f base) name <;> rfl

variable {cls : String} {above : List String} {classes : List (ClassHead × List Node)} {body : List Node}
  {c : ClassHead × List Node} {head : ClassHead} {n : Nat}

theorem get?_own {methods : List String} {name : String} :
    get? (methods.map fun m => (m, cls)) name = some b ↔ name ∈ methods ∧ b = cls := by
  induction methods with
  | nil => simp [get?]
  | cons m methods ih =>
    rw [get?] at ih ⊢
    rw [map_cons, lookup_cons]
    by_cases h : name = m
    · simp [h, eq_comm]
    · simp [h, beq_false_of_ne h, ih]

theorem get?_finalsFrom (hcls : cls ∉ above) :
    get? (s.finalsFrom (n + 1) above cls) method =
      (get? (((get? s.finalMethods cls).getD []).map fun m => (m, cls)) method).or
        ((s.basesOf cls).findSome? fun base => get? (s.finalsFrom n (cls :: above) base) method) := by
  rw [finalsFrom, if_neg hcls, basesOf]
  cases get? s.classes cls with
  | none => exact Option.or_none.symm
  | some => exact get?_foldl_mergeNew ..

theorem reaches_of_finalsFrom (h : get? (s.finalsFrom n above cls) method = some b) :
    ReflTransGen s.Links cls b ∧ s.Notes b method := by
  induction n generalizing above cls with
  | zero => cases h
  | succ n ih =>
    by_cases hcls : cls ∈ above
    · rw [finalsFrom, if_pos hcls] at h
      cases h
    · rw [get?_finalsFrom hcls, Option.or_eq_some_iff] at h
      rcases h with hown | ⟨_, hbase⟩
      · obtain ⟨hmethod, rfl⟩ := get?_own.1 hown
        exact ⟨.refl, hmethod⟩
      · obtain ⟨base, hlink, hbase⟩ := exists_of_findSome?_eq_some hbase
        obtain ⟨hpath, hnotes⟩ := ih hbase
        exact ⟨.head hlink hpath, hnotes⟩

theorem reaches_without_return {α : Type} {r : α → α → Prop} {a b : α} (h : ReflTransGen r a b) :
    ReflTransGen (fun x y => r x y ∧ y ≠ a) a b := by
  induction h with
  | refl => exact .refl
  | @tail c d _ hstep ih =>
    by_cases hd : d = a
    · rw [hd]
    · exact ih.tail ⟨hstep, hd⟩

def outside (s : FinalCheck) (above : List String) : NameMap ClassHead := s.classes.filter (·.1 ∉ above)

theorem length_outside_lt (hcls : cls ∉ above) (hlink : s.Links cls base) :
    (s.outside (cls :: above)).length < (s.outside above).length := by
  have hhas : has s.classes cls := by
    rw [Links, basesOf] at hlink
    rw [has]
    cases h : get? s.classes cls with
    | none =>
      rw [h] at hlink
      cases hlink
    | some => rfl
  obtain ⟨c, hc, rfl⟩ := mem_map.1 (has_iff_mem_map_fst.1 hhas)
  have hfilter : s.outside (c.1 :: above) = (s.outside above).filter (·.1 ≠ c.1) := by
    rw [outside, outside, filter_filter]
    simp
  rw [hfilter, length_filter_lt_length_iff_exists]
  exact ⟨c, mem_filter.2 ⟨hc, by simpa using hcls⟩, by simp⟩

-- With a class less outside for each class that is entered, there are steps enough to go any way to its end.
theorem isSome_finalsFrom (hcls : cls ∉ above)
    (hpath : ReflTransGen (fun x y => s.Links x y ∧ y ∉ above) cls b) (hb : s.Notes b method)
    (hn : (s.outside above).length < n) : (get? (s.finalsFrom n above cls) method).isSome := by
  induction n generalizing above cls with
  | zero => cases hn
  | succ n ih =>
    rw [get?_finalsFrom hcls, Option.isSome_or, Bool.or_eq_true]
    rcases ReflTransGen.cases_head (reaches_without_return hpath) with rfl | ⟨base, ⟨⟨hlink, habove⟩, hne⟩, hrest⟩
    · exact .inl (Option.isSome_iff_exists.2 ⟨cls, get?_own.2 ⟨hb, rfl⟩⟩)
    · have hlength := length_outside_lt hcls hlink
      have hbase := ih (not_mem_cons_of_ne_of_not_mem hne habove)
        (ReflTransGen.mono (fun x y h => ⟨h.1.1, not_mem_cons_of_ne_of_not_mem h.2 h.1.2⟩) _ _ hrest) (by omega)
      exact .inr (findSome?_isSome_iff.2 ⟨base, hlink, hbase⟩)

/-- The search finds a final method of a class that can be reached, and fails only if there is none. -/
theorem get?_inherited (s : FinalCheck) (bases : List String) (method : String) :
    (∀ b, get? (s.inherited bases) method = some b →
      (∃ base ∈ bases, ReflTransGen s.Links base b) ∧ s.Notes b method) ∧
    (get? (s.inherited bases) method = none →
      ∀ base ∈ bases, ∀ b, ReflTransGen s.Links base b → ¬ s.Notes b method) := by
  rw [inherited, get?_foldl_mergeNew]
  refine ⟨fun b hb => ?_, fun hnone base hbase b hpath hb => ?_⟩
  · obtain ⟨base, hbase, hfrom⟩ := exists_of_findSome?_eq_some hb
    obtain ⟨hpath, hnotes⟩ := reaches_of_finalsFrom hfrom
    exact ⟨⟨base, hbase, hpath⟩, hnotes⟩
  · have hfrom := findSome?_eq_none_iff.1 hnone base hbase
    have hlength : (s.outside []).length < s.classes.length + 2 := by
      have := length_filter_le (·.1 ∉ ([] : List String)) s.classes
      rw [outside]
      omega
    have hsome := isSome_finalsFrom not_mem_nil
      (ReflTransGen.mono (fun x y h => ⟨h, not_mem_nil⟩) _ _ hpath) hb hlength
    rw [hfrom] at hsome
    cases hsome

/-! ### The classes that are known -/

theorem mem_finalMethodNames :
    method ∈ finalMethodNames body ↔ ∃ f ∈ body.filterMap functionHead?, f.isFinal ∧ f.name = method := by
  have hnames : finalMethodNames body = ((body.filterMap functionHead?).filterMap fun f =>
      if f.isFinal then some f.name else none).eraseDups := by
    rw [filterMap_filterMap, finalMethodNames]
    refine congrArg (fun f => (body.filterMap f).eraseDups) (funext fun n => ?_)
    cases n <;> rfl
  rw [hnames, mem_eraseDups, mem_filterMap]
  simp

theorem links_noteClass (hnew : ∀ base, ¬ s.Links c.1.name base) :
    (s.noteClass c).Links cls base ↔ s.Links cls base ∨ c.1.name = cls ∧ base ∈ c.1.bases := by
  change base ∈ (get? (put c.1.name c.1 s.classes) cls).elim _ _ ↔ _
  by_cases hcls : cls = c.1.name
  · subst hcls
    rw [get?_put_self]
    exact ⟨fun h => .inr ⟨rfl, h⟩, fun h => (h.resolve_left (hnew base)).2⟩
  · rw [get?_put_of_ne hcls]
    exact ⟨.inl, fun h => h.resolve_right fun h => hcls h.1.symm⟩

theorem notes_noteClass (hnew : ∀ method, ¬ s.Notes c.1.name method) :
    (s.noteClass c).Notes cls method ↔ s.Notes cls method ∨ c.1.name = cls ∧ method ∈ finalMethodNames c.2 := by
  have hmethods : (s.noteClass c).finalMethods = if (finalMethodNames c.2).isEmpty then s.finalMethods
      else put c.1.name (finalMethodNames c.2) s.finalMethods := rfl
  rw [Notes, Notes, hmethods]
  by_cases hcls : cls = c.1.name
  · subst hcls
    split
    · next hnone =>
      rw [List.isEmpty_iff.1 hnone]
      exact ⟨.inl, fun h => h.resolve_right fun h => not_mem_nil h.2⟩
    · rw [get?_put_self]
      exact ⟨fun h => .inr ⟨rfl, h⟩, fun h => (h.resolve_left (hnew method)).2⟩
  · have hother : (get? (if (finalMethodNames c.2).isEmpty then s.finalMethods
        else put c.1.name (finalMethodNames c.2) s.finalMethods) cls) = get? s.finalMethods cls := by
      split
      · rfl
      · exact get?_put_of_ne hcls _ _
    rw [hother]
    exact ⟨.inl, fun h => h.resolve_right fun h => hcls h.1.symm⟩

/-- Once the classes are noted, the state knows what they extend and which final methods they have. -/
theorem links_and_notes (hnames : (classes.map (·.1.name)).Nodup) :
    (∀ cls base, (classes.foldl noteClass {}).Links cls base ↔ Extending classes cls base) ∧
      ∀ cls method, (classes.foldl noteClass {}).Notes cls method ↔ HasFinalMethod classes cls method := by
  induction classes using reverseRecOn with
  | nil => exact ⟨fun _ _ => ⟨nofun, fun ⟨_, h, _⟩ => nomatch h⟩, fun _ _ => ⟨nofun, fun ⟨_, h, _⟩ => nomatch h⟩⟩
  | append_singleton classes c ih =>
    rw [map_append, nodup_append] at hnames
    obtain ⟨hnames, _, hnew⟩ := hnames
    have hnew : ∀ d ∈ classes, d.1.name ≠ c.1.name := fun d hd =>
      hnew _ (mem_map_of_mem hd) _ (.head [])
    obtain ⟨hlinks, hnotes⟩ := ih hnames
    rw [foldl_append]
    refine ⟨fun cls base => ?_, fun cls method => ?_⟩
    · refine (links_noteClass fun base h => ?_).trans ?_
      · obtain ⟨d, hd, hname, _⟩ := (hlinks ..).1 h
        exact hnew d hd hname
      · rw [hlinks, Extending, Extending]
        simp [or_and_right, exists_or]
    · refine (notes_noteClass fun method h => ?_).trans ?_
      · obtain ⟨d, hd, hname, _⟩ := (hnotes ..).1 h
        exact hnew d hd hname
      · rw [hnotes, HasFinalMethod, HasFinalMethod, mem_finalMethodNames]
        simp only [mem_append, mem_singleton, or_and_right, exists_or, exists_eq_left]

/-! ### The reports -/

theorem findings_checkOverrides (s : FinalCheck) (head : ClassHead) (body : List Node) :
    (s.checkOverrides head body).findings =
      s.findings ++ overrideReports (get? (s.inherited head.bases)) head body := by
  rw [overrideReports, filterMap_filterMap, checkOverrides]
  refine congrArg (fun f => s.findings ++ body.filterMap f) (funext fun n => ?_)
  cases n <;> rfl

theorem isOverrideIn_of_mem {base : String → Option String} (h : f ∈ overrideReports base head body)
    (cls : String) : f.isOverrideIn cls = decide (head.name = cls) := by
  obtain ⟨m, _, hm⟩ := mem_filterMap.1 h
  obtain ⟨b, _, rfl⟩ := Option.map_eq_some_iff.1 hm
  rfl

/-- The second state knows the classes of the first one, and has the same reports on the overrides in a class. -/
structure Quiet (cls : String) (s s' : FinalCheck) : Prop where
  classes : s'.classes = s.classes
  finalMethods : s'.finalMethods = s.finalMethods
  findings : s'.findings.filter (·.isOverrideIn cls) = s.findings.filter (·.isOverrideIn cls)

theorem quiet_of_findings (hs : s' = { s with findings := s.findings ++ more })
    (hmore : ∀ f ∈ more, f.isOverrideIn cls = false) : s.Quiet cls s' := by
  subst hs
  refine ⟨rfl, rfl, ?_⟩
  rw [filter_append, filter_eq_nil_iff.2 fun f hf => Bool.eq_false_iff.1 (hmore f hf), append_nil]

theorem Steps.quiet (h : Steps classes s s') (hcls : ∀ c ∈ classes, c.1.name ≠ cls) : s.Quiet cls s' := by
  induction h with
  | refl => exact ⟨rfl, rfl, rfl⟩
  | @tail t u _ hstep ih =>
    have hquiet : t.Quiet cls u := by
      cases hstep with
      | register | enter | inScope => exact ⟨rfl, rfl, rfl⟩
      | assign =>
        unfold assign
        split
        · exact ⟨rfl, rfl, rfl⟩
        · exact quiet_of_findings rfl fun f hf => mem_singleton.1 hf ▸ rfl
      | @checkOverrides c hc =>
        refine quiet_of_findings (congrArg (fun fs => { t with findings := fs }) (findings_checkOverrides t c.1 c.2))
          fun f hf => ?_
        rw [isOverrideIn_of_mem hf]
        exact decide_eq_false (hcls c hc)
    exact ⟨hquiet.classes.trans ih.classes, hquiet.finalMethods.trans ih.finalMethods,
      hquiet.findings.trans ih.findings⟩

theorem Quiet.inherited_eq (h : s.Quiet cls s') (bases : List String) : s'.inherited bases = s.inherited bases := by
  have hfrom (n : Nat) (above : List String) (base : String) :
      s'.finalsFrom n above base = s.finalsFrom n above base := by
    induction n generalizing above base with
    | zero => rfl
    | succ n ih => rw [finalsFrom, finalsFrom, h.classes, h.finalMethods]; simp only [ih]
  simp only [inherited, hfrom, h.classes]

theorem findings_visit_classDecl (h : visit (.classDecl head body params annotations) s = .ok s')
    (hbody : ∀ c ∈ allHeldClasses body, c.1.name ≠ head.name) :
    s'.findings.filter (·.isOverrideIn head.name) = s.findings.filter (·.isOverrideIn head.name) ++
      overrideReports (get? (s.inherited head.bases)) head body := by
  obtain ⟨inner, hinner, hagain⟩ := exists_of_visit_classDecl h
  have hfirst := Steps.quiet (visitAll_steps body hinner).1 hbody
  have hsecond := Steps.quiet (visitAll_steps body hagain).1 hbody
  have henter : s.Quiet head.name (s.enter head.name) := ⟨rfl, rfl, rfl⟩
  rw [hsecond.findings]
  refine hfirst.findings.trans ?_
  rw [findings_checkOverrides, filter_append, henter.inherited_eq, henter.findings]
  refine congrArg _ (filter_eq_self.2 fun f hf => ?_)
  rw [isOverrideIn_of_mem hf, decide_eq_true rfl]

theorem exists_of_visitAll_append (h : visitAll (ns ++ ms) s = .ok s') :
    ∃ mid, visitAll ns s = .ok mid ∧ visitAll ms mid = .ok s' := by
  rw [visitAll_eq, map_append, foldlM_append] at h
  simp only [visitAll_eq]
  exact exists_of_bind h

theorem findings_visitAll {before after : List Node}
    (h : visitAll (before ++ .classDecl head body params annotations :: after) s = .ok s')
    (hnames : ((allHeldClasses (before ++ .classDecl head body params annotations :: after)).map (·.1.name)).Nodup) :
    s'.findings.filter (·.isOverrideIn head.name) = s.findings.filter (·.isOverrideIn head.name) ++
      overrideReports (get? (s.inherited head.bases)) head body := by
  obtain ⟨first, hfirst, hrest⟩ := exists_of_visitAll_append h
  obtain ⟨second, hclass, hlast⟩ := exists_of_bind hrest
  have hothers : ∀ c ∈ allHeldClasses before ++ (allHeldClasses body ++ allHeldClasses after),
      c.1.name ≠ head.name := by
    rw [allHeldClasses_append, allHeldClasses, heldClasses, map_append, cons_append, map_cons,
      nodup_middle, ← map_append] at hnames
    intro c hc hname
    exact (nodup_cons.1 hnames).1 (hname ▸ mem_map_of_mem hc)
  have hbefore := Steps.quiet (visitAll_steps before hfirst).1 fun c hc => hothers c (mem_append_left _ hc)
  have hafter := Steps.quiet (visitAll_steps after hlast).1 fun c hc =>
    hothers c (mem_append_right _ (mem_append_right _ hc))
  have hreports := findings_visit_classDecl hclass fun c hc =>
    hothers c (mem_append_right _ (mem_append_left _ hc))
  rw [hafter.findings, hreports, hbefore.findings, hbefore.inherited_eq]

end FinalCheck

/-! ### Programs -/

def Node.lacksBody : Node → Bool
  | .function _ _ none _ _ => true
  | _ => false

theorem Node.Everywhere.of_mem_body {n : Node} (h : n.Everywhere P) (hbody : n.body? = some body) :
    ∀ m ∈ body, m.Everywhere P := by
  cases n with
  | module => cases hbody; exact h.nodes 0
  | classDecl | forLoop | whileLoop | case => cases hbody; exact h.nodes 1
  | function | dataClass | enumDecl => cases hbody; exact h.nodes 2
  | _ => cases hbody

namespace FinalCheck

theorem passes_of_bodies (n : Node) : (n.Everywhere fun m => m.lacksBody = false) → Passes n := by
  induction n using body_induction with
  | h n ih =>
    intro hn
    have hbody (body : List Node) (h : n.body? = some body) : ∀ m ∈ body, Passes m := fun m hm =>
      ih body h m hm (hn.of_mem_body h m hm)
    cases n with
    | finalDecl target | assignment target =>
      intro s
      cases target <;> exact ⟨_, rfl⟩
    | function head params body =>
      cases body with
      | none => cases hn.here
      | some => exact fun s => exists_visitAll_twice (hbody _ rfl) _ s.scope
    | classDecl => exact fun s => exists_visitAll_twice (hbody _ rfl) _ s.scope
    | module | forLoop | whileLoop | case | dataClass | enumDecl => exact exists_visitAll (hbody _ rfl)
    | _ => exact fun s => ⟨_, rfl⟩

/-- If all functions have a body and no two classes one name, the check ends.  It reports the methods of a class at the
top level in their order, and each of them once if a class above has a final method of its name: it then names such a
class. -/
theorem run_reports_overrides {program : List Node}
    (hbodies : (Node.module program).Everywhere fun n => n.lacksBody = false)
    (hnames : ((allHeldClasses program).map (·.1.name)).Nodup) :
    ∃ s, run (.module program) = .ok s ∧
      ∀ head body params annotations, .classDecl head body params annotations ∈ program →
        ∃ base : String → Option String,
          s.findings.filter (·.isOverrideIn head.name) = overrideReports base head body ∧
          ∀ method,
            (∀ b, base method = some b →
              TransGen (Extending (allHeldClasses program)) head.name b ∧
                HasFinalMethod (allHeldClasses program) b method) ∧
            (base method = none → ∀ b, TransGen (Extending (allHeldClasses program)) head.name b →
              ¬ HasFinalMethod (allHeldClasses program) b method) := by
  obtain ⟨s, hs⟩ := exists_visitAll (fun n hn => passes_of_bodies n (hbodies.of_mem_body rfl n hn))
    (collectAll program {})
  refine ⟨s, hs, fun head body params annotations hmem => ?_⟩
  obtain ⟨before, after, hprogram⟩ := List.append_of_mem hmem
  have hclass : (head, body) ∈ allHeldClasses program := by
    rw [hprogram, allHeldClasses_append, allHeldClasses, heldClasses]
    simp
  have hreports := findings_visitAll (hprogram ▸ hs) (hprogram ▸ hnames)
  rw [(collectAll_keeps _ _).2.1, ← hprogram] at hreports
  refine ⟨_, hreports, fun method => ?_⟩
  -- what the search goes by is what the classes say
  obtain ⟨hlinks, hnotes⟩ := links_and_notes hnames
  rw [collectAll_eq_foldl]
  have hrelation : Links ((allHeldClasses program).foldl noteClass {}) = Extending (allHeldClasses program) :=
    funext₂ fun cls base => propext (hlinks cls base)
  obtain ⟨hfound, hnone⟩ := get?_inherited ((allHeldClasses program).foldl noteClass {}) head.bases method
  rw [hrelation] at hfound hnone
  have hbases (base : String) : Extending (allHeldClasses program) head.name base ↔ base ∈ head.bases := by
    refine ⟨fun hlink => ?_, fun hbase => ⟨_, hclass, rfl, hbase⟩⟩
    obtain ⟨c, hc, hname, hbase⟩ := hlink
    obtain rfl : c = (head, body) := List.inj_on_of_nodup_map hnames hc hclass hname
    exact hbase
  refine ⟨fun b hb => ?_, fun hb b hpath hmethod => ?_⟩
  · obtain ⟨⟨base, hbase, hpath⟩, hmethod⟩ := hfound b hb
    exact ⟨TransGen.head' ((hbases base).2 hbase) hpath, (hnotes b method).1 hmethod⟩
  · obtain ⟨base, hbase, hrest⟩ := TransGen.head'_iff.1 hpath
    exact hnone hb base ((hbases base).1 hbase) b hrest ((hnotes b method).2 hmethod)

/-- Three classes that extend each other in a circle, with two ways from the last to the first. -/
def circle : List Node :=
  [.classDecl { name := "A", bases := ["C"] } [.function { name := "m", isFinal := true } [] (some []) [] []] [] [],
    .classDecl { name := "B", bases := ["A"] } [] [] [],
    .classDecl { name := "C", bases := ["B", "A"] } [.function { name := "m" } [] (some []) [] []] [] []]

theorem run_reports_overrides_circle :
    ((Node.module circle).Everywhere fun n => n.lacksBody = false) ∧
      ((allHeldClasses circle).map (·.1.name)).Nodup ∧
      ∃ s b, run (.module circle) = .ok s ∧
        s.findings.filter (·.isOverrideIn "C") = [⟨.overridden "C" "m" b, {}⟩] ∧
        TransGen (Extending (allHeldClasses circle)) "C" b ∧ HasFinalMethod (allHeldClasses circle) b "m" := by
  have hbodies : (Node.module circle).Everywhere fun n => n.lacksBody = false := by decide +kernel
  have hnames : ((allHeldClasses circle).map (·.1.name)).Nodup := by decide
  obtain ⟨s, hs, hclasses⟩ := run_reports_overrides hbodies hnames
  obtain ⟨base, hreports, hbase⟩ := hclasses _ _ _ _ (.tail _ (.tail _ (.head _)))
  have hlink : Extending (allHeldClasses circle) "C" "A" := by decide
  have hmethod : HasFinalMethod (allHeldClasses circle) "A" "m" := by decide
  cases hm : base "m" with
  | none => exact absurd hmethod ((hbase "m").2 hm "A" (.single hlink))
  | some b =>
    refine ⟨hbodies, hnames, s, b, hs, ?_, (hbase "m").1 b hm⟩
    rw [hreports]
    simp [overrideReports, functionHead?, hm]

end FinalCheck

/-- A class overrides the final method of a data class that it extends, and nothing is reported. -/
theorem exists_final_method_overridden :
    ∃ (source : String) (tokens : List Token) (m : Node) (s : FinalCheck),
      tokenize source = .ok tokens ∧ parseTokens tokens = .ok m ∧
      m.statements.map declaredClass? = [some "P", some "C"] ∧
      (∃ n ∈ m.statements, n.declaredClass? = some "P" ∧
        ∃ f ∈ (n.body?.getD []).filterMap functionHead?, f.isFinal ∧ f.name = "m") ∧
      (∃ c ∈ allHeldClasses m.statements, c.1.name = "C" ∧ "P" ∈ c.1.bases ∧
        ∃ f ∈ c.2.filterMap functionHead?, f.name = "m") ∧
      FinalCheck.run m = .ok s ∧ s.findings = [] := by
  obtain ⟨tokens, m, htokens, hm, hclasses, hfinal, hmethod, hfound⟩ :
      ∃ tokens m, tokenize ("data class P(x: int) \x7b\n    final def m() \x7b\n        pass;\n    \x7d\n\x7d\n" ++
          "class C extends P \x7b\n    def m() \x7b\n        pass;\n    \x7d\n\x7d\n") = .ok tokens ∧
        parseTokens tokens = .ok m ∧ m.statements.map declaredClass? = [some "P", some "C"] ∧
        (∃ n ∈ m.statements, n.declaredClass? = some "P" ∧
          ∃ f ∈ (n.body?.getD []).filterMap functionHead?, f.isFinal ∧ f.name = "m") ∧
        (∃ c ∈ allHeldClasses m.statements, c.1.name = "C" ∧ "P" ∈ c.1.bases ∧
          ∃ f ∈ c.2.filterMap functionHead?, f.name = "m") ∧
        ((FinalCheck.run m).toOption.any fun s => s.findings = []) := exists_parsed (by decide +kernel)
  obtain ⟨s, hs, hnone⟩ := exists_of_found hfound
  exact ⟨_, tokens, m, s, htokens, hm, hclasses, hfinal, hmethod, hs, hnone⟩

end BraceLang
