import BraceLang.Proofs.Edits
import BraceLang.SourceUnit

/-!
# Using up annotations

Each annotation for the compiler is used up by itself: it puts one line in front of the body of its function, or it is
rejected and leaves a finding.
-/

namespace BraceLang

open List Node

variable {registry : Registry} {n m a v : Node} {l l' : Lowering}

namespace Node

theorem everywhere_annotations {n : Node} (h : n.Everywhere P) : ∀ a ∈ n.annotations, a.Everywhere P := by
  cases n with
  | interface | signature | parameter | enumDecl => exact h.nodes 3
  | typeParameter | enumMember => exact h.nodes 2
  | classDecl => exact h.nodes 8
  | function => exact h.nodes 10
  | dataClass => exact h.nodes 5
  | _ => exact forall_mem_nil _

theorem filterAnnotations_eq_self {n : Node} (h : ∀ a ∈ n.annotations, keep a) :
    n.filterAnnotations keep = n := by
  rw [filterAnnotations, filter_eq_self.2 h]
  cases n <;> rfl

end Node

namespace Lowering

/-! ### Trees without annotations for the compiler -/

theorem applyAll_of_stays {annotations : List Node} (h : ∀ a ∈ annotations, stays a) (front : List Node)
    (l : Lowering) : applyAll registry n annotations front l = (front, l) := by
  induction annotations with
  | nil => rfl
  | cons a rest ih =>
    obtain ⟨ha, hrest⟩ := forall_mem_cons.1 h
    cases a with
    | annotationUse head =>
      have hretention : head.retention ≠ .compileTime := of_decide_eq_true ha
      rw [applyAll, if_neg hretention, ih hrest]
    | _ => exact ih hrest

theorem visit_run (registry : Registry) (n : Node) (l : Lowering) : (visit registry n).run l =
    if l.stopped.isSome || n.annotations.isEmpty then (id, l)
    else
      let applied := applyAll registry n n.annotations [] l
      (fun m => putFront applied.1 (if applied.2.stopped.isSome then m else m.filterAnnotations stays), applied.2) := by
  rw [visit, StateT.run_bind]
  change ((if l.stopped.isSome || n.annotations.isEmpty then _ else _ : StateM Lowering _).run l) = _
  split <;> rfl

theorem exists_visit (hl : l.stopped = none) (happly : applyAll registry n n.annotations [] l = (front, l'))
    (hl' : l'.stopped = none) (f : Node → Node) :
    ∃ edit : Node → Node, (visit registry n).run l = (edit, l') ∧
      edit (n.mapParts f) = putFront front ((n.mapParts f).filterAnnotations stays) := by
  rw [visit_run, happly]
  by_cases hnil : n.annotations = []
  · rw [hnil] at happly
    cases happly
    have hparts : (n.mapParts f).annotations = [] := by rw [annotations_mapParts, hnil, map_nil]
    exact ⟨id, if_pos (by simp [hnil]), (filterAnnotations_eq_self (by simp [hparts])).symm⟩
  · refine ⟨_, if_neg (by simp [hl, hnil]), ?_⟩
    simp only [hl', Option.isSome_none, Bool.false_eq_true, if_false]

/-- Where no annotation is to be used up, nothing changes. -/
theorem run_eq_self (h : n.Everywhere fun m => ∀ a ∈ m.annotations, stays a) (l : Lowering) :
    run registry n l = (n, { l with findings := [], stopped := none }) := by
  let start : Lowering := { l with findings := [], stopped := none }
  have hvisited : n.Everywhere (Visited (visit registry) (fun s _ => s) (· = start) id) := by
    rintro m hm hpresent s rfl
    have hstays := h m hm hpresent
    obtain ⟨edit, hvisit, hedit⟩ := exists_visit rfl (applyAll_of_stays hstays [] start) rfl id
    refine ⟨edit, ⟨hvisit, rfl⟩, hedit.trans ?_⟩
    rw [mapParts_id]
    exact filterAnnotations_eq_self hstays
  have hrun := (rewalk_gives rfl hvisited rfl).1
  have hstate (us : List Node) : us.foldl (fun s _ => s) start = start := by induction us <;> simp_all
  rw [hstate] at hrun
  exact hrun

end Lowering

/-! ### Accepted annotations -/

namespace Node

/-- The annotation can be used up on the node: its name is known, the node is a function, the arguments are literals,
and they can be bound. -/
def accepts (m : Node) : Node → Bool
  | annotationUse h args keys values => h.retention = .compileTime && h.name = "print_on_call" &&
    m.className = "FunctionDeclaration" && (args ++ values).all (·.className = "LiteralExpression") && args.isEmpty &&
    (keys.zip values).all (·.1 = "time_format")
  | _ => false

/-- Literals among the arguments have a value, as they do unless a number cannot be read or has too many digits. -/
def readable : Node → Bool
  | annotationUse h args _ values => h.retention = .compileTime →
    ∀ v ∈ args ++ values, v.className = "LiteralExpression" → v.argumentValue.isOk
  | _ => true

def writtenValue (v : Node) : ArgumentValue := v.argumentValue.toOption.getD .absent

def timeFormat : Node → ArgumentValue
  | annotationUse _ _ keys values => (((keys.zip values).lookup "time_format").map writtenValue).getD (.text "%H:%M:%S")
  | _ => .absent

/-- The lines that annotations put in front of the body of a function, that of the last one first. -/
def logLines (m : Node) (annotations : List Node) : List Node :=
  (annotations.filter m.accepts).reverse.map fun a => .rawCode (Lowering.logLine a.timeFormat m.name) {}

theorem argumentValue_of_ne (h : v.className ≠ "LiteralExpression") :
    v.argumentValue = .error (.notLiteral v.className) := by
  cases v with
  | literal | collection => exact absurd rfl h
  | _ => rfl

end Node

namespace Lowering

theorem argumentValues_of_literals {vs : List Node} (h : ∀ v ∈ vs, v.argumentValue.isOk) :
    argumentValues vs = .ok (vs.map writtenValue) := by
  induction vs with
  | nil => rfl
  | cons v vs ih =>
    obtain ⟨hv, hvs⟩ := forall_mem_cons.1 h
    have hmap := ih hvs
    rw [argumentValues] at hmap ⊢
    rw [mapM_cons, hmap]
    cases hvalue : v.argumentValue with
    | ok x => simp [writtenValue, hvalue, Except.toOption, bind, Except.bind, pure, Except.pure]
    | error e => simp [hvalue, Except.isOk, Except.toBool] at hv

theorem argumentValues_of_notLiteral {vs : List Node}
    (hread : ∀ v ∈ vs, v.className = "LiteralExpression" → v.argumentValue.isOk)
    (h : ∃ v ∈ vs, v.className ≠ "LiteralExpression") : ∃ kind, argumentValues vs = .error (.notLiteral kind) := by
  induction vs with
  | nil => simp at h
  | cons v vs ih =>
    obtain ⟨hv, hvs⟩ := forall_mem_cons.1 hread
    rw [argumentValues, mapM_cons]
    by_cases hliteral : v.className = "LiteralExpression"
    · obtain ⟨kind, hkind⟩ := ih hvs (by simpa [hliteral] using h)
      cases hvalue : v.argumentValue with
      | ok x =>
        rw [argumentValues] at hkind
        exact ⟨kind, by rw [hkind]; rfl⟩
      | error e => simp [hvalue, hliteral, Except.isOk, Except.toBool] at hv
    · rw [argumentValue_of_ne hliteral]
      exact ⟨_, rfl⟩

theorem bind_ok {named : NameMap ArgumentValue} (h : ∀ e ∈ named, e.1 = "time_format") :
    ∃ bound, Binding.bind Registry.logCalls.parameters [.absent, .absent] named [] = .ok bound ∧
      NameMap.get? bound "time_format" = NameMap.get? named "time_format" := by
  have hno {name : String} (hname : name ≠ "time_format") : NameMap.has named name = false := by
    have hlookup : named.lookup name = none := lookup_eq_none_iff.2 fun e he => by simp [h e he, hname]
    rw [NameMap.has, NameMap.get?, hlookup]
    rfl
  simp only [Registry.logCalls, Binding.bind, hno (show "node" ≠ "time_format" by decide),
    hno (show "file" ≠ "time_format" by decide), Bool.false_eq_true, if_false, Binding.byName]
  cases hformat : NameMap.get? named "time_format" with
  | none =>
    cases named with
    | nil => exact ⟨_, rfl, rfl⟩
    | cons e named => simp [NameMap.get?, h e mem_cons_self] at hformat
  | some format =>
    have herase : NameMap.erase "time_format" named = [] := filter_eq_nil_iff.2 fun e he => by simp [h e he]
    simp only [herase]
    exact ⟨_, rfl, NameMap.get?_put_self ..⟩

theorem bind_error {plain : List ArgumentValue} {named : NameMap ArgumentValue}
    (h : ¬ (plain = [] ∧ ∀ e ∈ named, e.1 = "time_format")) :
    ∃ e, Binding.bind Registry.logCalls.parameters (.absent :: .absent :: plain) named [] = .error e := by
  simp only [Registry.logCalls, Binding.bind, Bool.false_eq_true, if_false]
  by_cases hnode : NameMap.has named "node"
  · exact ⟨_, if_pos hnode⟩
  by_cases hfile : NameMap.has named "file"
  · exact ⟨_, by rw [if_neg hnode, if_pos hfile]⟩
  rw [if_neg hnode, if_neg hfile]
  cases plain with
  | cons v plain => exact ⟨_, rfl⟩
  | nil =>
    obtain ⟨e, he, hne⟩ : ∃ e ∈ named, e.1 ≠ "time_format" := by
      by_contra! hall
      exact h ⟨rfl, hall⟩
    have herase : e ∈ NameMap.erase "time_format" named := mem_filter.2 ⟨he, by simpa using hne⟩
    simp only [Binding.bind, Binding.byName]
    cases NameMap.get? named "time_format" with
    | none =>
      cases named with
      | nil => cases he
      | cons e named => exact ⟨_, rfl⟩
    | some format =>
      dsimp only
      cases hrest : NameMap.erase "time_format" named with
      | nil => rw [hrest] at herase; cases herase
      | cons e rest => exact ⟨_, rfl⟩

theorem lookup_zip_map {keys : List String} {vs : List Node} (f : Node → ArgumentValue) (name : String) :
    (keys.zip (vs.map f)).lookup name = ((keys.zip vs).lookup name).map f := by
  induction keys generalizing vs with
  | nil => rfl
  | cons key keys ih =>
    cases vs with
    | nil => rfl
    | cons v vs =>
      rw [map_cons, zip_cons_cons, zip_cons_cons, lookup_cons, lookup_cons, ih]
      split <;> rfl

variable {h : AnnotationHead} {args values front : List Node} {keys : List String}

theorem evaluated_eq (keys : List String) (hread : ∀ v ∈ args ++ values,
      v.className = "LiteralExpression" → v.argumentValue.isOk) :
    let evaluated := do
      let plain ← argumentValues args
      return (plain, keys.zip (← argumentValues values))
    ((∀ v ∈ args ++ values, v.className = "LiteralExpression") →
      evaluated = .ok (args.map writtenValue, keys.zip (values.map writtenValue))) ∧
    ((∃ v ∈ args ++ values, v.className ≠ "LiteralExpression") → ∃ kind, evaluated = .error (.notLiteral kind)) := by
  obtain ⟨hargs, hvalues⟩ := forall_mem_append.1 hread
  refine ⟨fun hall => ?_, fun hsome => ?_⟩
  · have hok := fun v hv => hread v hv (hall v hv)
    rw [argumentValues_of_literals fun v hv => hok v (mem_append_left _ hv),
      argumentValues_of_literals fun v hv => hok v (mem_append_right _ hv)]
    rfl
  · by_cases hplain : ∀ v ∈ args, v.className = "LiteralExpression"
    · obtain ⟨v, hv, hne⟩ := hsome
      have hv : v ∈ values := (mem_append.1 hv).resolve_left fun hv => hne (hplain v hv)
      obtain ⟨kind, hkind⟩ := argumentValues_of_notLiteral hvalues ⟨v, hv, hne⟩
      rw [argumentValues_of_literals fun v hv => hargs v hv (hplain v hv), hkind]
      exact ⟨kind, rfl⟩
    · obtain ⟨kind, hkind⟩ := argumentValues_of_notLiteral hargs (by simpa using hplain)
      rw [hkind]
      exact ⟨kind, rfl⟩

theorem accepts_iff (hretention : h.retention = .compileTime) : n.accepts (.annotationUse h args keys values) ↔
    h.name = "print_on_call" ∧ n.className = "FunctionDeclaration" ∧
      (∀ v ∈ args ++ values, v.className = "LiteralExpression") ∧ args = [] ∧
      ∀ e ∈ keys.zip values, e.1 = "time_format" := by
  simp only [accepts, hretention, decide_true, Bool.true_and, Bool.and_eq_true, decide_eq_true_eq, all_eq_true,
    List.isEmpty_iff, and_assoc]

/-- An annotation for the compiler puts its line in front and adds the import, or only leaves a finding. -/
theorem apply_builtin (hretention : h.retention = .compileTime)
    (hread : (annotationUse h args keys values).readable)
    (front : List Node) (l : Lowering) :
    n.accepts (.annotationUse h args keys values) ∧ apply Registry.builtin h args keys values n front l =
        (.rawCode (logLine (annotationUse h args keys values).timeFormat n.name) {} :: front,
          { l with imports := addImport (importLine "datetime" []) l.imports }) ∨
      ¬ n.accepts (.annotationUse h args keys values) ∧
        ∃ problem, apply Registry.builtin h args keys values n front l = (front, l.note problem h.position.line) := by
  rw [accepts_iff hretention]
  by_cases hname : h.name = "print_on_call"
  swap
  · have hlookup : NameMap.get? Registry.builtin h.name = none :=
      lookup_eq_none_iff.2 (by simpa [Registry.builtin, Registry.logCalls] using hname)
    exact .inr ⟨fun ha => hname ha.1, .unknown h.name, by rw [apply, hlookup]⟩
  have hlookup : NameMap.get? Registry.builtin h.name = some Registry.logCalls := by
    rw [hname]
    rfl
  have htargets : (!Registry.logCalls.targets.isEmpty && !Registry.logCalls.targets.any n.isInstance) =
      !decide (n.className = "FunctionDeclaration") := by
    simp only [Registry.logCalls, isInstance, any_cons, any_nil]
    by_cases hclass : n.className = "FunctionDeclaration" <;> simp [hclass]
  simp only [apply, hlookup, htargets]
  by_cases htarget : n.className = "FunctionDeclaration"
  swap
  · exact .inr ⟨fun ha => htarget ha.2.1, _, if_pos (by simpa using htarget)⟩
  rw [if_neg (by simpa using htarget)]
  obtain ⟨hok, herror⟩ := evaluated_eq keys (of_decide_eq_true hread hretention)
  by_cases hliterals : ∀ v ∈ args ++ values, v.className = "LiteralExpression"
  swap
  · obtain ⟨kind, hkind⟩ := herror (by simpa using hliterals)
    rw [hkind]
    exact .inr ⟨fun ha => hliterals ha.2.2.1, _, rfl⟩
  rw [hok hliterals]
  have hnamed : (∀ e ∈ keys.zip (values.map writtenValue), e.1 = "time_format") ↔
      ∀ e ∈ keys.zip values, e.1 = "time_format" := by
    rw [zip_map_right]
    exact forall_mem_map
  by_cases hbinds : args = [] ∧ ∀ e ∈ keys.zip values, e.1 = "time_format"
  · obtain ⟨rfl, hkeys⟩ := hbinds
    obtain ⟨bound, hbound, hformat⟩ := bind_ok (hnamed.2 hkeys)
    have hprocess : Registry.logCalls.process bound n front l =
        (.rawCode (logLine (annotationUse h [] keys values).timeFormat n.name) {} :: front,
          { l with imports := addImport (importLine "datetime" []) l.imports }) := by
      rw [NameMap.get?, NameMap.get?, lookup_zip_map] at hformat
      simp only [Registry.logCalls, NameMap.get?, hformat, timeFormat]
    refine .inl ⟨⟨hname, htarget, hliterals, rfl, hkeys⟩, ?_⟩
    simp only [map_nil, hbound, hprocess]
  · rw [← hnamed, ← map_eq_nil_iff (f := writtenValue)] at hbinds
    obtain ⟨e, he⟩ := bind_error hbinds
    refine .inr ⟨fun ha => hbinds ⟨map_eq_nil_iff.2 ha.2.2.2.1, hnamed.2 ha.2.2.2.2⟩, .binding h.name e, ?_⟩
    simp only [he]

/-! ### Runs -/

/-- What the uses of annotations leave behind, besides the tree. -/
structure After (uses : List (Node × Node)) (l l' : Lowering) : Prop where
  stopped : l'.stopped = l.stopped
  diagnostics : l'.diagnostics = l.diagnostics
  warnings : l'.warnings = l.warnings
  imports : l'.imports = if ∃ u ∈ uses, u.1.accepts u.2 then addImport (importLine "datetime" []) l.imports
    else l.imports
  findings : l'.findings = [] ↔ l.findings = [] ∧ ∀ u ∈ uses, stays u.2 = false → u.1.accepts u.2

theorem After.nil : After [] l l := ⟨rfl, rfl, rfl, (if_neg (by simp)).symm, by simp⟩

theorem addImport_addImport (line : String) (imports : List String) :
    addImport line (addImport line imports) = addImport line imports := by
  have hmem : line ∈ addImport line imports := by
    rw [addImport]
    split <;> simp_all
  rw [addImport, if_pos hmem]

theorem After.append {us vs : List (Node × Node)} {k : Lowering} (h : After us l k) (h' : After vs k l') :
    After (us ++ vs) l l' where
  stopped := h'.stopped.trans h.stopped
  diagnostics := h'.diagnostics.trans h.diagnostics
  warnings := h'.warnings.trans h.warnings
  imports := by
    rw [h'.imports, h.imports]
    simp only [mem_append, or_and_right, exists_or]
    by_cases hu : ∃ u ∈ us, u.1.accepts u.2 <;> by_cases hv : ∃ u ∈ vs, u.1.accepts u.2 <;>
      simp only [hu, hv, or_true, or_false, if_true, if_false, addImport_addImport]
  findings := by
    rw [h'.findings, h.findings, forall_mem_append, and_assoc]

theorem applyAll_cons (rest : List Node) (hread : a.readable) (hl : l.stopped = none) (front : List Node) :
    ∃ k, applyAll Registry.builtin n (a :: rest) front l =
      applyAll Registry.builtin n rest (n.logLines [a] ++ front) k ∧
      After [(n, a)] l k := by
  have hkept (hno : n.accepts a = false) (hstays : stays a) : n.logLines [a] = [] ∧ After [(n, a)] l l :=
    ⟨by simp [logLines, hno], rfl, rfl, rfl, by simp [hno], by simp [hstays]⟩
  cases a with
  | annotationUse h args keys values =>
    by_cases hretention : h.retention = .compileTime
    · rw [applyAll, if_pos hretention]
      have hstays : stays (annotationUse h args keys values) = false := by simp [stays, hretention]
      obtain ⟨ha, happly⟩ | ⟨hno, problem, happly⟩ := apply_builtin (n := n) hretention hread front l
      · simp only [happly, hl, Option.isSome_none, Bool.false_eq_true, if_false]
        refine ⟨{ l with imports := addImport (importLine "datetime" []) l.imports }, ?_, ?_⟩
        · simp [logLines, ha, hl]
        · exact ⟨rfl, rfl, rfl, by simp [ha], by simp [ha]⟩
      · simp only [happly, note, hl, Option.isSome_none, Bool.false_eq_true, if_false]
        refine ⟨l.note problem h.position.line, ?_, ?_⟩
        · simp [logLines, hno, note, hl]
        · exact ⟨rfl, rfl, rfl, by simp [hno, note], by simp [hno, hstays, note]⟩
    · obtain ⟨hlines, hafter⟩ := hkept (by simp [accepts, hretention]) (by simp [stays, hretention])
      exact ⟨l, by rw [applyAll, if_neg hretention, hlines, nil_append], hafter⟩
  | _ =>
    obtain ⟨hlines, hafter⟩ := hkept rfl rfl
    refine ⟨l, ?_, hafter⟩
    rw [applyAll, hlines, nil_append]
    simp

theorem applyAll_builtin {annotations : List Node} (hread : ∀ a ∈ annotations, a.readable)
    (hl : l.stopped = none)
    (front : List Node) : ∃ l', applyAll Registry.builtin n annotations front l =
      (n.logLines annotations ++ front, l') ∧
      After (annotations.map (n, ·)) l l' := by
  induction annotations generalizing front l with
  | nil => exact ⟨l, rfl, .nil⟩
  | cons a annotations ih =>
    obtain ⟨ha, hannotations⟩ := forall_mem_cons.1 hread
    obtain ⟨k, hfirst, hafter⟩ := applyAll_cons (n := n) annotations ha hl front
    obtain ⟨l', hrest, hafter'⟩ := ih hannotations (hafter.stopped.trans hl) (n.logLines [a] ++ front)
    have hlines : n.logLines (a :: annotations) = n.logLines annotations ++ n.logLines [a] := by
      cases ha : n.accepts a <;> simp [logLines, ha]
    exact ⟨l', by rw [hfirst, hrest, hlines, append_assoc], hafter.append hafter'⟩

end Lowering

namespace Node

/-- The tree with its annotations for the compiler used up. -/
def lowered : Node → Node :=
  edited fun m edited => Lowering.putFront (m.logLines m.annotations) (edited.filterAnnotations Lowering.stays)

/-- What becomes of a field, if these lines are put in front of the body. -/
def loweredField (lines : List Node) : String × Field → String × Field
  | ("annotations", .nodes (some annotations)) =>
    ("annotations", .nodes (some ((annotations.filter Lowering.stays).map lowered)))
  | ("body", .nodes body) =>
    ("body", .nodes (if lines.isEmpty then body.map (List.map lowered) else some (lines ++ (body.getD []).map lowered)))
  | (name, f) => (name, f.map lowered)

theorem lowered_eq (hn : n.isPresent) : n.lowered =
    Lowering.putFront (n.logLines n.annotations) ((n.mapParts lowered).filterAnnotations Lowering.stays) :=
  edited_eq _ hn

theorem logLines_eq_nil (hn : n.className ≠ "FunctionDeclaration") (annotations : List Node) :
    n.logLines annotations = [] := by
  have hno (a : Node) : n.accepts a = false := by cases a <;> simp [accepts, hn]
  simp [logLines, hno]

theorem className_lowered (n : Node) : n.lowered.className = n.className := by
  cases hn : n.isPresent with
  | false =>
    cases n with
    | missing => rfl
    | _ => cases hn
  | true =>
    have hfront (front : List Node) (x : Node) : (Lowering.putFront front x).className = x.className := by
      rw [Lowering.putFront]
      split
      · rfl
      · cases x <;> rfl
    rw [lowered_eq hn, hfront]
    cases n <;> rfl

theorem stays_lowered (a : Node) : Lowering.stays a.lowered = Lowering.stays a := by
  by_cases hclass : a.className = "Annotation"
  · cases a with
    | annotationUse h args keys values =>
      rw [lowered_eq rfl]
      rfl
    | _ => simp [className] at hclass
  · have hstays {x : Node} (hx : x.className ≠ "Annotation") : Lowering.stays x := by
      cases x with
      | annotationUse => exact absurd rfl hx
      | _ => rfl
    rw [hstays hclass, hstays (className_lowered a ▸ hclass)]

theorem fields_lowered (n : Node) : n.lowered.fields = n.fields.map (loweredField (n.logLines n.annotations)) := by
  have hstays (annotations : List Node) :
      (annotations.map lowered).filter Lowering.stays = (annotations.filter Lowering.stays).map lowered := by
    rw [filter_map]
    exact congrArg (map lowered) (filter_congr fun a _ => stays_lowered a)
  cases n with
  | missing => rfl
  | function h params body typeParams annotations =>
    rw [lowered_eq rfl]
    generalize (function h params body typeParams annotations).logLines _ = lines
    cases lines with
    | nil =>
      simp only [mapParts, filterAnnotations, withAnnotations?, Node.annotations, hstays]
      rfl
    | cons line lines =>
      simp only [mapParts, filterAnnotations, withAnnotations?, Node.annotations, hstays]
      cases body <;> rfl
  | interface | signature | parameter | typeParameter | classDecl | dataClass | enumMember | enumDecl =>
    rw [lowered_eq rfl, logLines_eq_nil (by simp [className])]
    simp only [mapParts, filterAnnotations, withAnnotations?, Node.annotations, hstays]
    rfl
  | _ =>
    rw [lowered_eq rfl, logLines_eq_nil (by simp [className])]
    rfl

theorem stays_of_mem_annotations (ha : a ∈ n.lowered.annotations) : Lowering.stays a := by
  have hfront (front : List Node) (x : Node) : (Lowering.putFront front x).annotations = x.annotations := by
    rw [Lowering.putFront]
    split
    · rfl
    · cases x <;> rfl
  have hfilter (x : Node) : (x.filterAnnotations Lowering.stays).annotations = x.annotations.filter Lowering.stays := by
    cases x <;> rfl
  cases hn : n.isPresent with
  | false =>
    cases n with
    | missing => cases ha
    | _ => cases hn
  | true =>
    rw [lowered_eq hn, hfront, hfilter] at ha
    exact (mem_filter.1 ha).2

theorem mem_members_loweredField {lines : List Node} {f : String × Field}
    (hm : m ∈ (loweredField lines f).2.members) : m ∈ lines ∨ ∃ c ∈ f.2.members, m = c.lowered := by
  unfold loweredField at hm
  split at hm
  · obtain ⟨c, hc, rfl⟩ := mem_map.1 hm
    exact .inr ⟨c, (mem_filter.1 hc).1, rfl⟩
  · next body =>
    split at hm
    · cases body with
      | none => cases hm
      | some body =>
        obtain ⟨c, hc, rfl⟩ := mem_map.1 hm
        exact .inr ⟨c, hc, rfl⟩
    · refine (mem_append.1 hm).imp_right fun hm => ?_
      obtain ⟨c, hc, rfl⟩ := mem_map.1 hm
      cases body with
      | none => cases hc
      | some body => exact ⟨c, hc, rfl⟩
  · next f _ _ =>
    right
    cases f with
    | node n => exact ⟨n, mem_singleton_self n, mem_singleton.1 hm⟩
    | nodes ns =>
      cases ns with
      | none => cases hm
      | some ns =>
        obtain ⟨c, hc, rfl⟩ := mem_map.1 hm
        exact ⟨c, hc, rfl⟩
    | keyed keys ns =>
      obtain ⟨c, hc, rfl⟩ := mem_map.1 hm
      exact ⟨c, hc, rfl⟩
    | _ => cases hm

theorem stays_of_mem_walk_lowered (hm : m ∈ n.lowered.walk) : ∀ a ∈ m.annotations, Lowering.stays a := by
  induction n using walk.induct with
  | case1 n ih =>
    rcases mem_walk_iff.1 hm with rfl | ⟨c, hc, hm⟩
    · exact fun a => stays_of_mem_annotations
    · obtain ⟨f, hf, hmem⟩ := mem_flatMap.1 hc
      rw [fields_lowered] at hf
      obtain ⟨f', hf', rfl⟩ := mem_map.1 hf
      obtain ⟨hmem, hpresent⟩ := mem_filter.1 hmem
      rcases mem_members_loweredField hmem with hline | ⟨p, hp, rfl⟩
      · obtain ⟨a, -, rfl⟩ := mem_map.1 hline
        rcases mem_walk_iff.1 hm with rfl | ⟨c, hc, -⟩
        · exact forall_mem_nil _
        · cases hc
      · have hp' : p.isPresent := by
          cases p with
          | missing => cases hpresent
          | _ => rfl
        exact ih ⟨p, mem_reverse.2 (mem_children hf' hp hp')⟩ hm

end Node

namespace Lowering

theorem foldl_visit {ms : List Node} (hread : ∀ m ∈ ms, ∀ a ∈ m.annotations, a.readable)
    (hl : l.stopped = none) :
    After (ms.flatMap fun m => m.annotations.map (m, ·)) l
      (ms.foldl (fun l m => ((visit Registry.builtin m).run l).2) l) := by
  induction ms generalizing l with
  | nil => exact .nil
  | cons m ms ih =>
    obtain ⟨hm, hms⟩ := forall_mem_cons.1 hread
    obtain ⟨k, happly, hafter⟩ := applyAll_builtin (n := m) hm hl []
    have hk := hafter.stopped.trans hl
    obtain ⟨edit, hvisit, -⟩ := exists_visit hl happly hk id
    rw [foldl_cons, flatMap_cons, hvisit]
    exact hafter.append (ih hms hk)

theorem run_builtin (hn : n.isPresent) (hread : n.Everywhere fun m => m.readable = true) (l : Lowering) :
    (run Registry.builtin n l).1 = n.lowered ∧
      After (n.walk.flatMap fun m => m.annotations.map (m, ·)) { l with findings := [], stopped := none }
        (run Registry.builtin n l).2 := by
  have hannotations {m : Node} (hm : m ∈ n.walk) : ∀ a ∈ m.annotations, a.readable := by
    intro a ha
    cases a with
    | missing => rfl
    | _ => exact (everywhere_annotations (hread.of_mem_walk hm) _ ha).here rfl
  have hvisited : n.Everywhere (Visited (visit Registry.builtin) (fun l m => ((visit Registry.builtin m).run l).2)
      (fun l => l.stopped = none) lowered) := by
    intro m hm hpresent s hs
    obtain ⟨k, happly, hafter⟩ := applyAll_builtin (n := m) (hannotations hm) hs []
    have hk := hafter.stopped.trans hs
    obtain ⟨edit, hvisit, hedit⟩ := exists_visit hs happly hk lowered
    refine ⟨edit, ⟨?_, ?_⟩, ?_⟩
    · rw [foldl_cons, foldl_nil, hvisit]
    · rw [foldl_cons, foldl_nil, hvisit]
      exact hk
    · rw [hedit, append_nil, lowered_eq hpresent]
  have hrun := (rewalk_gives rfl hvisited
    (rfl : ({ l with findings := [], stopped := none } : Lowering).stopped = none)).1
  rw [trace, if_pos hn] at hrun
  rw [run, hrun]
  exact ⟨rfl, foldl_visit (fun m hm => hannotations hm) rfl⟩

end Lowering

namespace SourceUnit

variable {u : SourceUnit}

/-- Where no annotation is to be used up and no error has been reported, nothing changes. -/
theorem lowered_eq_self (hplain : u.program.Everywhere fun m => ∀ a ∈ m.annotations, Lowering.stays a)
    (hdiagnostics : u.diagnostics = []) : u.lowered registry = .ok u := by
  have herrors (l : Lowering) (hl : l.diagnostics = []) (hfindings : l.findings = []) : l.errors.isEmpty := by
    simp [Lowering.errors, hl, hfindings]
  rw [lowered, lower, Lowering.run_eq_self hplain]
  exact if_pos (herrors _ hdiagnostics rfl)

theorem mem_uses_iff {ns : List Node} {use : Node × Node} :
    (use ∈ ns.flatMap fun m => m.annotations.map (m, ·)) ↔ use.1 ∈ ns ∧ use.2 ∈ use.1.annotations := by
  obtain ⟨m, a⟩ := use
  simp only [mem_flatMap, mem_map, Prod.mk.injEq]
  constructor
  · rintro ⟨m, hm, a, ha, rfl, rfl⟩
    exact ⟨hm, ha⟩
  · rintro ⟨hm, ha⟩
    exact ⟨m, hm, a, ha, rfl, rfl⟩

/-- The annotations of a unit are used up one by one.  Each node keeps its other annotations in order, and a function
has the lines of its accepted annotations in front of its body, the last one first.  Nothing else of the tree changes.
There are errors just if an annotation was rejected, and the import is added just if one was accepted.  A second run
changes nothing. -/
theorem lower_usesUp (u : SourceUnit) (hpresent : u.program.isPresent)
    (hread : u.program.Everywhere fun m => m.readable = true) (hdiagnostics : u.diagnostics = []) :
    let lowered := (u.lower Registry.builtin).1
    (∀ m ∈ u.program.walk, m.lowered.className = m.className ∧
      m.lowered.fields = m.fields.map (loweredField (m.logLines m.annotations))) ∧
    (∀ m ∈ lowered.program.walk, ∀ a ∈ m.annotations, Lowering.stays a) ∧
    lowered = { u with
      program := u.program.lowered
      imports := if ∃ m ∈ u.program.walk, ∃ a ∈ m.annotations, m.accepts a then
          Lowering.addImport "import datetime" u.imports
        else u.imports } ∧
    (u.lower Registry.builtin).2.stopped = none ∧
    ((u.lower Registry.builtin).2.errors = [] ↔
      ∀ m ∈ u.program.walk, ∀ a ∈ m.annotations, Lowering.stays a = false → m.accepts a) ∧
    lowered.lowered Registry.builtin = .ok lowered := by
  obtain ⟨hprogram, hafter⟩ := Lowering.run_builtin hpresent hread
    { diagnostics := u.diagnostics, warnings := u.warnings, imports := u.imports }
  rw [lower]
  generalize Lowering.run Registry.builtin u.program _ = after at hprogram hafter ⊢
  obtain ⟨program, l⟩ := after
  obtain rfl : program = u.program.lowered := hprogram
  have hstays : ∀ m ∈ u.program.lowered.walk, ∀ a ∈ m.annotations, Lowering.stays a :=
    fun m hm => stays_of_mem_walk_lowered hm
  have himports := hafter.imports
  have hfindings := hafter.findings
  simp only [mem_uses_iff, Prod.exists, Prod.forall, and_assoc, and_imp, exists_and_left,
    true_and] at himports hfindings
  refine ⟨fun m _ => ⟨className_lowered m, fields_lowered m⟩, hstays, ?_, hafter.stopped, ?_, ?_⟩
  · have hdiag : l.diagnostics = u.diagnostics := hafter.diagnostics
    have hwarn : l.warnings = u.warnings := hafter.warnings
    simp only [hdiag, hwarn, himports]
    rfl
  · have hdiag : l.diagnostics = [] := hafter.diagnostics.trans hdiagnostics
    simp only [Lowering.errors, hdiag, append_nil, map_eq_nil_iff, hfindings]
    exact ⟨fun h m hm a ha => h m a hm ha, fun h m a hm ha => h m hm a ha⟩
  · exact lowered_eq_self (fun m hm _ => hstays m hm) (hafter.diagnostics.trans hdiagnostics)

def annotated (annotations : List Node) : SourceUnit where
  program := module [function { name := "f" } [] (some []) [] annotations]

theorem lower_usesUp_rejected :
    let u := annotated [
      annotationUse ⟨"print_on_call", .compileTime, true, {}⟩ [] ["time_format"] [literal (.text "'%H'") .string],
      annotationUse ⟨"trace", .runtime, false, {}⟩ [] [] [], annotationUse ⟨"audit", .compileTime, false, {}⟩ [] [] [],
      annotationUse ⟨"print_on_call", .compileTime, false, {}⟩ [] [] []]
    u.program.Everywhere (fun m => m.readable = true) ∧ (u.lower Registry.builtin).2.errors ≠ [] ∧
      (u.lower Registry.builtin).1.imports = ["import datetime"] ∧
      (u.lower Registry.builtin).1.lowered Registry.builtin = .ok (u.lower Registry.builtin).1 := by
  intro u
  have hread : u.program.Everywhere fun m => m.readable = true := by decide +kernel
  obtain ⟨-, -, -, -, herrors, hsecond⟩ := lower_usesUp u rfl hread rfl
  refine ⟨hread, fun h => ?_, rfl, hsecond⟩
  have hrejected : ∃ m ∈ u.program.walk, ∃ a ∈ m.annotations, Lowering.stays a = false ∧ m.accepts a = false := by
    decide +kernel
  obtain ⟨m, hm, a, ha, hstays, hno⟩ := hrejected
  rw [herrors.1 h m hm a ha hstays] at hno
  cases hno

/-! ### Numbers with too many digits -/

theorem digits?_replicate (n : Nat) : Numeral.digits? (replicate (n + 1) '1') = some (replicate (n + 1) '1') := by
  have hdigit : isDecimalDigit '1' := by decide
  induction n with
  | zero => rfl
  | succ n ih =>
    rw [replicate_succ, replicate_succ, Numeral.digits?, if_pos hdigit, ← replicate_succ, ih]
    · rfl
    · simp
    · simp

theorem leadingDigits_replicate (n : Nat) :
    Numeral.leadingDigits (String.ofList (replicate (n + 1) '1')) = replicate (n + 1) '1' := by
  have hmargin : Numeral.isMargin '1' = false := by decide
  have hbody : Numeral.body (String.ofList (replicate (n + 1) '1')) = replicate (n + 1) '1' := by
    simp [Numeral.body, dropStart, dropEnd, hmargin]
  have hsign : (Numeral.sign (replicate (n + 1) '1')).2 = replicate (n + 1) '1' := rfl
  have hrun : (isDecimalDigit '1' || '1' = '_') := by decide
  rw [Numeral.leadingDigits, hbody, hsign, takeWhile_replicate, if_pos hrun, digits?_replicate, Option.getD_some]

theorem numberValue_replicate {n : Nat} (h : Numeral.maxDigits < n) :
    numberValue (String.ofList (replicate n '1')) = .error (.longInteger n) := by
  obtain ⟨k, rfl⟩ : ∃ k, n = k + 1 := ⟨n - 1, by omega⟩
  rw [numberValue, if_neg (by simp), leadingDigits_replicate]
  simp only [length_replicate, if_pos h]

def numbered (text : String) : Node :=
  annotationUse ⟨"print_on_call", .compileTime, true, {}⟩ [literal (.text text) .number] [] []

def stoppedAt (digits : Nat) : Lowering := { stopped := some (.badNumber (.longInteger digits)) }

section

variable {text : String} {k : Nat}

theorem visit_numbered (h : numberValue text = .error (.longInteger k)) :
    (Lowering.visit Registry.builtin (function { name := "f" } [] (some []) [] [numbered text])).run {} =
      (fun m => m, stoppedAt k) := by
  have hlookup : NameMap.get? Registry.builtin "print_on_call" = some Registry.logCalls := rfl
  have hvalues : Lowering.argumentValues [literal (.text text) .number] = .error (.longInteger k) := by
    rw [Lowering.argumentValues, mapM_cons, argumentValue, literalValue, Scalar.display, h]
    rfl
  rw [Lowering.visit_run]
  simp only [numbered, Node.annotations, Lowering.applyAll, Lowering.apply, hlookup, hvalues]
  rfl

theorem lower_numbered (h : numberValue text = .error (.longInteger k)) :
    (annotated [numbered text]).lower Registry.builtin = (annotated [numbered text], stoppedAt k) := by
  let visit := Lowering.visit Registry.builtin
  let f := function { name := "f" } [] (some []) [] [numbered text]
  -- what is visited after the function finds the run stopped
  have hf : (rewalk visit f).run {} = (f, stoppedAt k) := by
    change (visit f >>= _).run {} = _
    rw [StateT.run_bind, visit_numbered h]
    rfl
  have hmodule : (visit (module [f])).run {} = (id, {}) := rfl
  have hrun : Lowering.run Registry.builtin (module [f]) {} = (module [f], stoppedAt k) := by
    change (visit (module [f]) >>= _).run {} = _
    rw [StateT.run_bind, hmodule]
    change StateT.run ((rewalk visit f >>= fun n => pure [n]) >>= _) ({} : Lowering) = _
    rw [StateT.run_bind, StateT.run_bind, hf]
    rfl
  have hlower : ∀ r, Lowering.run Registry.builtin (module [f]) {} = r →
      (annotated [numbered text]).lower Registry.builtin =
      ({ program := r.1, diagnostics := r.2.diagnostics, warnings := r.2.warnings, imports := r.2.imports }, r.2) := by
    rintro r rfl
    rfl
  exact hlower _ hrun

end

/-- A number with too many digits stops the run: there is no error, and the annotation stays. -/
theorem exists_lower_stopped : ∃ text : String, (∀ c ∈ text.toList, c = '1') ∧
    let u := annotated [numbered text]
    (u.lower Registry.builtin).2.stopped = some (.badNumber (.longInteger text.length)) ∧
      (u.lower Registry.builtin).2.errors = [] ∧ (u.lower Registry.builtin).1 = u := by
  obtain ⟨n, hn⟩ : ∃ n, Numeral.maxDigits < n := ⟨_, Nat.lt_succ_self _⟩
  refine ⟨String.ofList (replicate n '1'), fun c hc => ?_, ?_⟩
  · rw [String.toList_ofList] at hc
    exact eq_of_mem_replicate hc
  · intro u
    rw [lower_numbered (numberValue_replicate hn), String.length_ofList, length_replicate]
    exact ⟨rfl, rfl, rfl⟩

end SourceUnit

end BraceLang
