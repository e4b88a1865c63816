import BraceLang.Proofs.LineParts

/-!
# The text of a statement lies on its outline

The main result is `Fits.lays`: `k` blocks deep, the text of a statement of a parsed tree consists of lines, which
have the marks of the outline of the statement at that depth, as long as no line starts with a literal that is written
without its quotes.
-/

namespace BraceLang

open List Node Render LineMark

variable {k : Nat} {n value : Node} {ns params : List Node} {keyword : String}

/-- Whether the lines of a statement do not start with a literal that is written without its quotes.  The text of a
final may start a line wherever its name does. -/
def Node.isReadable : Node → Bool
  | expression value _ => value.startsLine
  | finalDecl place value _ => place.startsLine && value.startsLine
  | _ => true

/-! ### Lists of statements -/

section

variable {annotations : List Node} {name t : String} {result type : Option String} {p : Position} {bases : List String}
  {head : FunctionHead}

theorem lays_all (h : ∀ n ∈ ns, Lays k (n.render .python) (n.outline k)) :
    Lays k (renderAll .python ns) (outlineAll k ns) := by
  induction ns with
  | nil => exact lays_empty
  | cons n ns ih =>
    obtain ⟨hn, hns⟩ := forall_mem_cons.1 h
    exact hn.append (ih hns)

theorem lays_following (h : ∀ n ∈ ns, Lays k (n.render .python) (n.outline k)) :
    Lays k (renderFollowing .python "\n" ns) (outlineFollowing k ns) := by
  induction ns with
  | nil => exact lays_empty
  | cons n ns ih =>
    obtain ⟨hn, hns⟩ := forall_mem_cons.1 h
    exact lays_blank.append (hn.append (ih hns))

theorem lays_noMembers (bare : Bool) :
    Lays k (if bare then line "pass\n" else pure "") (outlineMembers k bare []) := by
  cases bare with
  | true => exact lays_line isFullLine_pass
  | false => exact lays_empty

theorem lays_members (bare : Bool) (h : ∀ m ∈ n :: ns, Lays k (m.render .python) (m.outline k)) :
    Lays k ((if bare then pure "" else pure "\n") ++ (n.render .python ++ renderFollowing .python "\n" ns))
      (outlineMembers k bare (n :: ns)) := by
  obtain ⟨hn, hns⟩ := forall_mem_cons.1 h
  have hrest := hn.append (lays_following hns)
  cases bare with
  | true => exact lays_empty.append hrest
  | false => exact lays_blank.append hrest

theorem lays_signatures (h : ∀ m ∈ n :: ns, Fits TidyText .signature m) :
    Lays k (signatures .python ((n :: ns).filterMap methodShape?))
      (signatureMarks k ++ ns.flatMap fun _ => blank :: signatureMarks k) := by
  have hmore (ms : List Node) (hms : ∀ m ∈ ms, Fits TidyText .signature m) (i : Nat) :
      Lays k (each (fun p => if p.2 = 0 then Render.signature .python p.1 else
          pure "\n" ++ Render.signature .python p.1)
        ((ms.filterMap methodShape?).zipIdx (i + 1))) (ms.flatMap fun _ => blank :: signatureMarks k) := by
    induction ms generalizing i with
    | nil => exact lays_empty
    | cons m ms ih =>
      obtain ⟨hm, hrest⟩ := forall_mem_cons.1 hms
      cases hm with
      | signature hname hparams hresult =>
        exact (lays_blank.append (lays_signature hname.oneLine hparams hresult)).append (ih hrest (i + 1))
  obtain ⟨hn, hns⟩ := forall_mem_cons.1 h
  cases hn with
  | signature hname hparams hresult => exact (lays_signature hname.oneLine hparams hresult).append (hmore ns hns 0)

theorem lays_noBody (isAbstract : Bool) :
    Lays k (if isAbstract then line "\"\"\"Abstract method.\"\"\"\n" ++ line "pass\n" else line "pass\n")
      (plain k :: if isAbstract then [plain k] else []) := by
  cases isAbstract with
  | true => exact (lays_line ⟨"\"\"\"Abstract method.\"\"\"", by decide, by decide⟩).append (lays_line isFullLine_pass)
  | false => exact lays_line isFullLine_pass

theorem lays_body {isAbstract : Bool} (ht : IsFullLine none t)
    (h : ∀ m ∈ n :: ns, Lays k (m.render .python) (m.outline k)) :
    Lays k (if isAbstract then line "\"\"\"Abstract method.\"\"\"\n" ++ line "pass\n"
      else line t ++ (n.render .python ++ renderAll .python ns))
      (plain k :: if isAbstract then [plain k] else outlineAll k (n :: ns)) := by
  cases isAbstract with
  | true => exact lays_noBody true
  | false => exact (lays_line ht).append (lays_all h)

/-! ### Statements by kind -/

theorem lays_optional (hkeyword : IsHead none keyword) (hbare : IsFullLine none bare)
    (h : Tells k (n.render .python) OneLine) :
    Lays k (if n.isPresent then (do line (keyword ++ (← n.render .python) ++ "\n")) else line bare) [plain k] :=
  .ite (fun _ => h.bind fun _ ht => lays_line ((hkeyword.append ht).full (by decide))) fun _ => lays_line hbare

theorem lays_finalDecl (hplace : Tells k (place.render .python) (IsLine none))
    (hvalue : Tells k (value.render .python) (IsLine none)) (htype : OneLine (type.getD "")) :
    Lays k ((Node.finalDecl place value type).render .python) [plain k, plain k] := by
  have hnotice : IsFullLine none finalNotice := IsHead.full (by decide) (by decide)
  refine hplace.bind fun t ht => hvalue.bind fun u hu => ?_
  have hhead : IsHead none (t ++ (if isGiven type then ": " ++ type.getD "" else "") ++ " = ") := by
    split
    · exact (ht.marked htype (by decide) (by decide)).append (by decide)
    · rw [String.append_empty]
      exact ht.mark (by decide) (by decide)
  refine (lays_line ((hhead.append hu.oneLine).full (by decide))).append ((lays_line hnotice).append ?_)
  cases place with
  | identifier => exact lays_setFinal hu
  | _ => exact lays_empty

theorem lays_forLoop (hclause : Fits TidyText .expression clause) (hs : clause.SliceFree)
    (hbody : Lays (k + 1) (renderAll .python ns) ms) :
    Lays k ((Node.forLoop clause ns).render .python) (opening k "for" :: ms) := by
  have hfor : IsHead (some "for") "for " := by decide
  have hwhole : Tells k (do return (← clause.render .python) ++ ":\n") EndsLine :=
    (hclause.tells_oneLine rfl hs k).bind fun _ ht => tells_pure (EndsLine.append ht (by decide))
  cases clause with
  | binary =>
    cases hclause with
    | binary _ hitem hsource =>
      refine lays_loop hfor (.ite (fun _ => ?_) fun _ => hwhole) hbody
      refine (hitem.tells_oneLine rfl (hs.node 1) k).bind fun t ht => ?_
      refine (hsource.tells_oneLine rfl (hs.node 2) k).bind fun u hu => ?_
      have hitems : OneLine (t ++ " in " ++ u) := oneLine_append.2 ⟨oneLine_append.2 ⟨ht, by decide⟩, hu⟩
      exact tells_pure (EndsLine.append hitems (by decide))
  | _ => exact lays_loop hfor hwhole hbody

theorem lays_function (hname : OneLine head.name)
    (hresult : ∀ s ∈ head.returnType, ∃ kind, TidyText kind s) (hdecorators : head.decorators = [])
    (hparams : ∀ n ∈ params, Fits TidyText .parameter n)
    (hannotations : Tells k (renderDecorators .python annotations) fun ds =>
      ds.length = annotations.countP isRuntime ∧ ∀ d ∈ ds, IsLine none d)
    (hbody : ∀ n ∈ ns, Lays (k + 1) (n.render .python) (n.outline (k + 1))) :
    Lays k ((Node.function head params (some ns) [] annotations).render .python)
      ((Node.function head params (some ns) [] annotations).outline k) := by
  -- a method named like its class is a constructor
  have hname (c : Context) : OneLine (if !head.name.isEmpty && c.classStack.head? = some head.name then "__init__"
      else head.name) := by
    split
    · decide
    · exact hname
  have hhead (c : Context) := isFullLine_functionHead c.typeParams (hname c)
    (oneLine_parameterList hparams c.typeParams (c.inClass && !head.isStatic)) hresult
  have hkind (c : Context) : OneLine (if c.inClass then "method" else "function") := by split <;> decide
  have hdoc (c : Context) := (((isHead_docstring.append (hname c)).append (u := " ") (by decide)).append (hkind c)).full
    (u := ".\"\"\"\n") (by decide)
  have hlines {r : Context → Render String} {ms : List LineMark} (h : ∀ c, Lays (k + 1) (r c) ms) :=
    tells_get.bind fun c _ => Tells.withFinals (hannotations.bind fun ds hds =>
      (lays_decorators hds.1 hds.2 hdecorators).append (lays_block (hhead c) (h c)))
  cases ns with
  | nil => exact hlines fun _ => lays_noBody head.isAbstract
  | cons => exact hlines fun c => lays_body (hdoc c) hbody

theorem lays_classDecl {head : ClassHead} (hname : OneLine head.name)
    (hbases : ∀ t ∈ classBaseNames .python head params, OneLine t)
    (hbody : ∀ n ∈ ns, Lays 1 (n.render .python) (n.outline 1)) :
    Lays 0 ((Node.classDecl head ns params annotations).render .python)
      ((Node.classDecl head ns params annotations).outline 0) := by
  have hfinal : Lays 0 (if head.isFinal && !Target.isCompiled .python then pure "@final\n" else pure "")
      (replicate head.isFinal.toNat (plain 0)) := by
    cases head.isFinal with
    | true => exact lays_margin ⟨"@final", by decide, by decide⟩
    | false => exact lays_empty
  have hhead := ((isHead_class.append hname).append (oneLine_basesText hbases)).full (u := ":\n") (by decide)
  have hlines {r : Render String} {ms : List LineMark} (h : Lays 1 r ms) :=
    Tells.withinClass head.name (some (params.map Node.name))
      (Tells.withFinals (hfinal.append ((lays_margin (k := 0) hhead).append h.deeper)))
  cases ns with
  | nil => exact hlines (lays_line isFullLine_pass)
  | cons n =>
    have hdoc : Lays 1 (line ("\"\"\"" ++ head.name ++ " class.\"\"\"\n\n")) [plain 1, blank] :=
      lays_spaced (u := " class.\"\"\"\n") (isHead_docstring.append hname) (by decide)
    obtain ⟨hn, hns⟩ := forall_mem_cons.1 hbody
    exact hlines (hdoc.append (lays_empty.append (hn.append (lays_following hns))))

theorem lays_dataClass {fields : List Node} (hname : OneLine name)
    (hfields : ∀ n ∈ fields, Fits TidyText .parameter n) (hparams : ∀ n ∈ params, Fits TidyText .typeParameter n)
    (hbody : ∀ n ∈ ns, Lays 1 (n.render .python) (n.outline 1)) :
    Lays 0 ((Node.dataClass name fields ns params [] annotations p).render .python)
      ((Node.dataClass name fields ns params [] annotations p).outline 0) := by
  have hdecorator : IsFullLine none "@dataclass\n" := ⟨"@dataclass", by decide, by decide⟩
  have hbases : ∀ t ∈ genericBase params ++ [], OneLine t := by
    rw [append_nil]
    exact oneLine_genericBase hparams
  have hhead := ((isHead_class.append hname).append (oneLine_basesText hbases)).full (u := ":\n") (by decide)
  have hdoc := (isHead_docstring.append hname).full (u := " data class.\"\"\"\n") (by decide)
  have hfieldLines : Lays 1 (each (fun f => line (f.parameterText .python [] ++ "\n")) fields)
      (replicate fields.length (plain 1)) :=
    lays_each fun f hf => lays_line (isLine_parameterText (hfields f hf) []).full
  have hlines {r : Render String} {ms : List LineMark} (h : Lays 1 r ms) :=
    Tells.withinClass name (some (params.map Node.name)) ((lays_margin hdecorator).append
      ((lays_margin (k := 0) hhead).append ((lays_line hdoc).append (hfieldLines.append h)).deeper))
  cases ns with
  | nil => exact hlines (lays_noMembers _)
  | cons => exact hlines (lays_members _ hbody)

theorem lays_enumDecl {members : List Node} (hname : OneLine name)
    (hmembers : Lays 1 (renderMembers .python members) (replicate members.length (plain 1)))
    (hbody : ∀ n ∈ ns, Lays 1 (n.render .python) (n.outline 1)) :
    Lays 0 ((Node.enumDecl name members ns annotations p).render .python)
      ((Node.enumDecl name members ns annotations p).outline 0) := by
  have hhead := (isHead_class.append hname).full (u := "(Enum):\n") (by decide)
  have hdoc := (isHead_docstring.append hname).full (u := " enum.\"\"\"\n") (by decide)
  have hlines {r : Render String} {ms : List LineMark} (h : Lays 1 r ms) :=
    Tells.withinClass name none ((lays_margin (k := 0) hhead).append
      ((lays_line hdoc).append (hmembers.append h)).deeper)
  cases ns with
  | nil => exact hlines (lays_noMembers _)
  | cons => exact hlines (lays_members _ hbody)

theorem lays_interface (hname : OneLine name) (hbases : ∀ t ∈ bases, OneLine t)
    (hmethods : ∀ n ∈ ns, Fits TidyText .signature n) :
    Lays 0 ((Node.interface name (some ns) bases annotations p).render .python)
      ((Node.interface name (some ns) bases annotations p).outline 0) := by
  have hprotocols : OneLine (String.intercalate ", " (bases ++ ["Protocol"])) :=
    oneLine_intercalate (by decide) (forall_mem_append.2 ⟨hbases, by decide⟩)
  have hhead := (((isHead_class.append hname).append (u := "(") (by decide)).append hprotocols).full (u := "):\n")
    (by decide)
  have hdoc := (IsHead.append (o := none) (t := "\"\"\"Interface for ") (by decide) hname).full (u := ".\"\"\"\n")
    (by decide)
  have hlines {r : Render String} {ms : List LineMark} (h : Lays 1 r ms) :=
    (lays_margin (k := 0) hhead).append (((lays_line hdoc).append h).deeper.append lays_blank)
  cases ns with
  | nil => exact hlines (lays_line isFullLine_pass)
  | cons => exact hlines (lays_blank.append (lays_signatures hmethods))

end

/-! ### All statements -/

def Role.Laid : Role → Node → Prop
  | statement, n | member, n =>
    ∀ k, Lays k (n.render .python) (n.outline k) ∧ Lays k (renderElse .python [n]) (outlineElse k [n])
  | top, n => Lays 0 (n.render .python) (n.outline 0)
  | case, .case value body =>
    ∀ k, Tells k (value.render .python) OneLine ∧ Lays k (renderAll .python body) (outlineAll k body)
  | program, .module body => ∀ n ∈ body, Lays 0 (n.render .python) (n.outline 0)
  | _, _ => True

section

theorem laid_of_lays (h : ∀ k, Lays k (n.render .python) (n.outline k))
    (hrender : renderElse .python [n] = Render.block "else:\n" (n.render .python ++ pure ""))
    (houtline : ∀ k, outlineElse k [n] = opening k "else" :: (n.outline (k + 1) ++ [])) : Role.Laid .statement n := by
  refine fun k => ⟨h k, ?_⟩
  rw [hrender, houtline]
  exact lays_block isFullLine_else ((h (k + 1)).append lays_empty)

theorem lays_else (h : ∀ n ∈ ns, Role.Laid .statement n) :
    Lays k (renderElse .python ns) (outlineElse k ns) := by
  match ns, h with
  | [], _ => exact lays_empty
  | [n], h => exact (h n mem_cons_self k).2
  | n :: m :: ns, h =>
    have hblock : Lays k (Render.block "else:\n" (renderAll .python (n :: m :: ns)))
        (opening k "else" :: outlineAll (k + 1) (n :: m :: ns)) :=
      lays_block isFullLine_else (lays_all fun n hn => (h n hn _).1)
    rw [renderElse, outlineElse]
    · exact hblock
    · simp
    · simp

theorem lays_cases (h : ∀ n ∈ ns, Role.Laid .case n)
    (hsubject : OneLine subject) (hkeyword : IsHead (some word) keyword) :
    Lays k (renderCases .python subject keyword ns) (outlineCases k word ns) := by
  induction ns generalizing keyword word with
  | nil => exact lays_empty
  | cons n ns ih =>
    obtain ⟨hn, hns⟩ := forall_mem_cons.1 h
    cases n with
    | case value =>
      have hrest := ih hns (show IsHead (some "elif") "elif " by decide)
      have htest : Tells k (do return subject ++ " == " ++ (← value.render .python) ++ ":") OneLine := by
        refine (hn k).1.bind fun t ht => tells_pure ?_
        simp only [oneLine_append, hsubject, ht]
        decide
      have hend : Tells k ((do return subject ++ " == " ++ (← value.render .python) ++ ":") ++ pure "\n") EndsLine :=
        htest.append (tells_pure (P := EndsLine) (by decide)) fun _ _ => EndsLine.append
      have hcase := (lays_loop hkeyword hend (hn (k + 1)).2).append hrest
      rw [Render.append_assoc, Render.append_assoc, Render.append_assoc] at hcase
      exact hcase
    | _ => exact ih hns hkeyword

end

/-- The text of a statement lies on its outline. -/
theorem Fits.lays (h : Fits TidyText role n)
    (hs : n.SliceFree) (hr : n.Everywhere fun m => m.isReadable = true) : role.Laid n := by
  induction h with
  | pass => exact laid_of_lays (fun k => lays_line isFullLine_pass) rfl fun _ => rfl
  | expressionStatement h =>
    exact laid_of_lays (fun k => lays_expression h (.inl rfl) (hs.node 0) (hr.here)) rfl fun _ => rfl
  | declaration h =>
    exact laid_of_lays (fun k => lays_expression h (.inr rfl) (hs.node 0) (hr.here)) rfl fun _ => rfl
  | returns h =>
    have hreturn : IsHead none "return " := by decide
    exact laid_of_lays (fun k => lays_optional hreturn ⟨"return", by decide, by decide⟩
      (h.tells_oneLine rfl (hs.node 0) k)) rfl fun _ => rfl
  | raises h =>
    have hraise : IsHead none "raise " := by decide
    exact laid_of_lays (fun k => lays_optional hraise ⟨"raise", by decide, by decide⟩
      (h.tells_oneLine rfl (hs.node 0) k)) rfl fun _ => rfl
  | imports hsource hnames haliases =>
    exact laid_of_lays (fun k => lays_margin (isFullLine_import hsource hnames haliases)) rfl fun _ => rfl
  | plainMember _ ih => exact ih hs hr
  | plainTop _ ih => exact (ih hs hr 0).1
  | @finalDecl place value _ hplace hvalue htype =>
    have hstarts : (place.startsLine && value.startsLine) := hr.here
    obtain ⟨hplaceStarts, hvalueStarts⟩ := Bool.and_eq_true_iff.1 hstarts
    have htype := oneLine_getD fun s hs => oneLine_of_isTypeText (htype s hs)
    exact laid_of_lays (fun k => lays_finalDecl
      ((hplace.tells rfl (hs.node 0) k).mono fun _ ht => ht.isLine hplaceStarts)
      ((hvalue.tells rfl (hs.node 1) k).mono fun _ ht => ht.isLine hvalueStarts) htype) rfl fun _ => rfl
  | conditional hcondition _ _ _ ihthen ihelse =>
    have hthen (k : Nat) := lays_all (k := k) fun n hn => (ihthen n hn (hs.nodes 1 rfl n hn) (hr.nodes 1 rfl n hn) k).1
    have helse (k : Nat) := lays_else (k := k) fun n hn => ihelse n hn (hs.nodes 2 rfl n hn) (hr.nodes 2 rfl n hn)
    have hif : IsHead (some "if") "if " := by decide
    have helif : IsHead (some "elif") "elif " := by decide
    -- the two ways to write a conditional differ in their first word
    have hchain {word keyword : String} (hkeyword : IsHead (some word) keyword) (k : Nat) :=
      (hcondition.tells_oneLine rfl (hs.node 0) k).bind fun _ ht =>
        (lays_block ((hkeyword.append ht).full (u := ":\n") (by decide)) (hthen (k + 1))).append (helse k)
    exact fun k => ⟨hchain hif k, hchain helif k⟩
  | forLoop hclause _ _ ih =>
    exact laid_of_lays (fun k => lays_forLoop hclause (hs.node 0)
      (lays_all fun n hn => (ih n hn (hs.nodes 1 rfl n hn) (hr.nodes 1 rfl n hn) (k + 1)).1)) rfl fun _ => rfl
  | whileLoop hcondition _ _ ih =>
    have hwhile : IsHead (some "while") "while " := by decide
    refine laid_of_lays (fun k => ?_) rfl fun _ => rfl
    refine lays_loop hwhile ?_ (lays_all fun n hn => (ih n hn (hs.nodes 1 rfl n hn) (hr.nodes 1 rfl n hn) (k + 1)).1)
    exact (hcondition.tells_oneLine rfl (hs.node 0) k).bind fun _ ht => tells_pure (EndsLine.append ht (by decide))
  | case hvalue _ _ ih =>
    exact fun k => ⟨hvalue.tells_oneLine rfl (hs.node 0) k,
      lays_all fun n hn => (ih n hn (hs.nodes 1 rfl n hn) (hr.nodes 1 rfl n hn) k).1⟩
  | @switch _ _ default hsubject _ _ _ ihcases ihdefault =>
    have hif : IsHead (some "if") "if " := by decide
    have hcases {k : Nat} {t : String} (ht : OneLine t) :=
      lays_cases (k := k) (fun n hn => ihcases n hn (hs.nodes 1 rfl n hn) (hr.nodes 1 rfl n hn)) ht hif
    have hdefault (k : Nat) := lays_all (k := k)
      fun n hn => (ihdefault n hn (hs.nodes 2 rfl n hn) (hr.nodes 2 rfl n hn) k).1
    refine laid_of_lays (fun k => ?_) rfl fun _ => rfl
    have hsubject := hsubject.tells_oneLine rfl (hs.node 0) k
    cases default with
    | nil => exact hsubject.bind fun _ ht => (hcases ht).append lays_empty
    | cons =>
      exact hsubject.bind fun _ ht => (hcases ht).append (lays_block isFullLine_else (hdefault (k + 1)))
  | function hname hresult hdecorators hparams _ hannotations _ ihbody =>
    exact laid_of_lays (fun k => lays_function hname.oneLine hresult hdecorators hparams
      (tells_decorators hannotations (hs.nodes 10))
      fun n hn => (ihbody n hn (hs.nodes 2 rfl n hn) (hr.nodes 2 rfl n hn) (k + 1)).1) rfl fun _ => rfl
  | classDecl hname hbases hinterfaces _ hparams _ ihbody =>
    have hbases := oneLine_classBaseNames hparams (fun t ht => (hbases t ht).oneLine)
      fun t ht => (hinterfaces t ht).oneLine
    exact lays_classDecl hname.oneLine hbases fun n hn => (ihbody n hn (hs.nodes 1 rfl n hn) (hr.nodes 1 rfl n hn) 1).1
  | dataClass hname hfields _ hparams _ _ ihbody =>
    exact lays_dataClass hname.oneLine hfields hparams
      fun n hn => (ihbody n hn (hs.nodes 2 rfl n hn) (hr.nodes 2 rfl n hn) 1).1
  | enumDecl hname hmembers _ _ _ ihbody =>
    exact lays_enumDecl hname.oneLine (lays_enumMembers hmembers (hs.nodes 1))
      fun n hn => (ihbody n hn (hs.nodes 2 rfl n hn) (hr.nodes 2 rfl n hn) 1).1
  | interface hname hmethods hbases =>
    exact lays_interface hname.oneLine (fun t ht => (hbases t ht).oneLine) hmethods
  | module _ ih => exact fun n hn => ih n hn (hs.nodes 0 rfl n hn) (hr.nodes 0 rfl n hn)
  | _ => trivial

end BraceLang
