import BraceLang.Proofs.Layout

/-!
# Parts of statements

Each part of the head of a statement (names, types, parameters, bases, decorators) stays on its line.
-/

namespace BraceLang

open List Node Render LineMark

variable {k : Nat} {n value : Node} {ns params : List Node} {keyword : String}

theorem isFullLine_pass : IsFullLine none "pass\n" := ⟨"pass", by decide, by decide⟩

theorem isFullLine_else : IsFullLine (some "else") "else:\n" := ⟨"else:", by decide, by decide⟩

theorem isHead_docstring : IsHead none "\"\"\"" := by decide

theorem isHead_class : IsHead (some "class") "class " := by decide

variable {annotations : List Node} {name t : String} {result type : Option String} {p : Position} {bases : List String}
  {head : FunctionHead}

theorem oneLine_dotted (h : Dotted TidyText t) : OneLine t := by
  induction h with
  | name h => exact h.oneLine
  | dot _ ht ih => exact oneLine_append.2 ⟨oneLine_append.2 ⟨ih, by decide⟩, ht.oneLine⟩

theorem oneLine_optional {c : Prop} [Decidable c] (h : c → OneLine t) : OneLine (if c then t else "") := by
  split
  · next hc => exact h hc
  · decide

theorem oneLine_getD {t : Option String} (h : ∀ s ∈ t, OneLine s) : OneLine (t.getD "") := by
  cases t with
  | none => decide
  | some s => exact h s rfl

theorem isLine_parameterText (h : Fits TidyText .parameter n) (types : List String) :
    IsLine none (n.parameterText .python types) := by
  cases h with
  | @parameter name type default hname htype hdefault =>
    have htype : OneLine (type.getD "") := oneLine_getD fun s hs => (htype s hs).elim fun _ h => h.oneLine
    have hdefault : OneLine default.display := by
      rcases hdefault with rfl | ⟨s, rfl, _, h⟩
      · decide
      · exact h.oneLine
    have hvalued : OneLine (" = " ++ default.display) := oneLine_append.2 ⟨by decide, hdefault⟩
    show IsLine none (name ++ (if isGiven type then ": " ++ type.getD "" else "") ++
      (if default.isTrue then " = " ++ default.display else ""))
    split
    · exact ((hname.isLine.marked htype (by decide) (by decide)).append (oneLine_optional fun _ => hvalued)).toIsLine
    · rw [String.append_empty]
      split
      · exact (hname.isLine.marked hdefault (by decide) (by decide)).toIsLine
      · rw [String.append_empty]
        exact hname.isLine

theorem oneLine_parameterList (h : ∀ n ∈ ns, Fits TidyText .parameter n) (types : List String)
    (receiver : Bool) : OneLine (parameterList .python types receiver ns) := by
  have hlisted : OneLine (String.intercalate ", " (ns.map (Node.parameterText .python types))) := by
    refine oneLine_intercalate (by decide) fun t ht => ?_
    obtain ⟨n, hn, rfl⟩ := mem_map.1 ht
    exact (isLine_parameterText (h n hn) types).oneLine
  unfold parameterList
  dsimp only
  split
  · split
    · decide
    · exact oneLine_append.2 ⟨by decide, hlisted⟩
  · exact hlisted

theorem oneLine_resultText (h : ∀ s ∈ type, ∃ kind, TidyText kind s) : OneLine (resultText type) :=
  oneLine_optional fun _ => oneLine_append.2 ⟨by decide, oneLine_getD fun s hs => (h s hs).elim fun _ h => h.oneLine⟩

theorem isHead_def {params : String} (hname : OneLine name) (hparams : OneLine params)
    (hresult : ∀ s ∈ result, ∃ kind, TidyText kind s) :
    IsHead (some "def") ("def " ++ name ++ "(" ++ params ++ ")" ++ resultText result) := by
  have hdef : IsHead (some "def") "def " := by decide
  have hopened := (hdef.append hname).append (u := "(") (by decide)
  have hclosed := (hopened.append hparams).append (u := ")") (by decide)
  exact hclosed.append (oneLine_resultText hresult)

theorem isFullLine_functionHead {params : String} (types : List String) (hname : OneLine name)
    (hparams : OneLine params) (hresult : ∀ s ∈ result, ∃ kind, TidyText kind s) :
    IsFullLine (some "def") (functionHeadText .python types name params result) :=
  (isHead_def hname hparams hresult).full (by decide)

theorem lays_signature (hname : OneLine name) (hparams : ∀ n ∈ ns, Fits TidyText .parameter n)
    (hresult : ∀ t ∈ result, ∃ kind, TidyText kind t) :
    Lays k (Render.signature .python ⟨name, ns, result⟩) (signatureMarks k) := by
  refine tells_get.bind fun c _ => ?_
  rw [← Render.append_assoc]
  have hhead := isHead_def hname (oneLine_parameterList hparams c.typeParams true) hresult
  have hbody : Lays (k + 1) (line "\"\"\"Interface method.\"\"\"\n" ++ line "...\n") [plain (k + 1), plain (k + 1)] :=
    (lays_line ⟨"\"\"\"Interface method.\"\"\"", by decide, by decide⟩).append
      (lays_line ⟨"...", by decide, by decide⟩)
  exact (lays_closed (hhead.append (by decide)).toIsLine).append hbody.deeper

theorem oneLine_basesText (h : ∀ t ∈ bases, OneLine t) : OneLine (basesText bases) := by
  unfold basesText
  split
  · decide
  · exact oneLine_append.2 ⟨oneLine_append.2 ⟨by decide, oneLine_intercalate (by decide) h⟩, by decide⟩

theorem oneLine_genericBase (h : ∀ n ∈ ns, Fits TidyText .typeParameter n) :
    ∀ t ∈ genericBase ns, OneLine t := by
  unfold genericBase
  split
  · exact forall_mem_nil _
  · refine forall_mem_singleton.2 ?_
    have hnames : OneLine (String.intercalate ", " (ns.map Node.name)) := by
      refine oneLine_intercalate (by decide) fun t ht => ?_
      obtain ⟨n, hn, rfl⟩ := mem_map.1 ht
      cases h n hn with
      | typeParameter hname => exact hname.oneLine
    exact oneLine_append.2 ⟨oneLine_append.2 ⟨by decide, hnames⟩, by decide⟩

theorem oneLine_classBaseNames {head : ClassHead} (h : ∀ n ∈ ns, Fits TidyText .typeParameter n)
    (hbases : ∀ t ∈ head.bases, OneLine t) (hinterfaces : ∀ t ∈ head.interfaces, OneLine t) :
    ∀ t ∈ classBaseNames .python head ns, OneLine t := by
  have hall : ∀ t ∈ genericBase ns ++ head.bases ++ head.interfaces, OneLine t :=
    forall_mem_append.2 ⟨forall_mem_append.2 ⟨oneLine_genericBase h, hbases⟩, hinterfaces⟩
  have habstract : ∀ t ∈ ["ABC"], OneLine t := by decide
  show ∀ t ∈ (if head.isAbstract && (genericBase ns ++ head.bases ++ head.interfaces).isEmpty &&
    !Target.isCompiled .python then ["ABC"] else genericBase ns ++ head.bases ++ head.interfaces), OneLine t
  split
  · exact habstract
  · exact hall

theorem isFullLine_import {head : ImportHead} (hsource : Dotted TidyText head.source)
    (hnames : ∀ s ∈ head.names, TidyText .identifier s)
    (haliases : ∀ s, some s ∈ head.aliases → TidyText .identifier s) : IsFullLine none head.line := by
  have hrenamed {name : String} {newName : Option String} (hname : OneLine name) (hnew : ∀ s ∈ newName, OneLine s) :
      OneLine (if isGiven newName then name ++ " as " ++ newName.getD "" else name) := by
    split
    · exact oneLine_append.2 ⟨oneLine_append.2 ⟨hname, by decide⟩, oneLine_getD hnew⟩
    · exact hname
  have hfrom : IsHead none "from " := by decide
  have himport : IsHead none "import " := by decide
  have hsource := oneLine_dotted hsource
  unfold ImportHead.line
  split
  · refine (((hfrom.append hsource).append (by decide)).append ?_).full (by decide)
    refine oneLine_intercalate (by decide) fun t ht => ?_
    obtain ⟨⟨name, i⟩, hmem, rfl⟩ := mem_map.1 ht
    refine hrenamed (hnames name (fst_mem_of_mem_zipIdx hmem)).oneLine fun s hs => ?_
    exact (haliases s (mem_of_getElem? (Option.join_eq_some_iff.1 hs))).oneLine
  · refine (himport.append (hrenamed hsource fun s hs => ?_)).full (by decide)
    exact (haliases s (mem_of_head? (Option.join_eq_some_iff.1 hs))).oneLine

theorem oneLine_revealedType (h : Fits TidyText .operand n) : OneLine ((n.revealedType classes).getD "") := by
  have hempty : OneLine "" := by decide
  have hliteral (kind : LiteralKind) : OneLine ((literalType kind).getD "") := by
    cases kind with
    | string | number | boolean => decide
    | _ => exact hempty
  unfold revealedType
  split
  · exact hliteral _
  · exact hliteral _
  · split
    · cases h with
      | present h =>
        cases h with
        | call hcallee =>
          cases hcallee with
          | identifier hname => exact hname.oneLine
    · exact hempty
  · exact hempty

theorem lays_expression (h : Fits TidyText role value)
    (hrole : role = .expression ∨ role = .declared) (hs : value.SliceFree) (hstarts : value.startsLine) :
    Lays k ((Node.expression value semicolon).render .python) [plain k] := by
  have hline : Tells k (value.render .python) (IsLine none) :=
    (h.tells (by rcases hrole with rfl | rfl <;> rfl) hs k).mono fun _ ht => ht.isLine hstarts
  have hplain : Lays k (do line (← value.render .python) ++ pure "\n") [plain k] :=
    hline.bind fun _ ht => lays_closed ht
  cases value with
  | missing => rcases hrole with rfl | rfl <;> cases h
  | assignment place assigned =>
    cases place with
    | identifier name =>
      obtain ⟨hname, hfits⟩ : TidyText .identifier name ∧ Fits TidyText .operand assigned := by
        rcases hrole with rfl | rfl
        · cases h with
          | assignment hplace hassigned =>
            cases hplace with
            | identifier hname => exact ⟨hname, .present hassigned⟩
        · cases h with
          | declared hplace hassigned =>
            cases hplace with
            | identifier hname => exact ⟨hname, hassigned⟩
      refine tells_get.bind fun c _ => .ite (fun _ => hplain) fun _ => ?_
      refine (hfits.tells_oneLine rfl (hs.node 1) k).bind fun t ht => lays_closed ?_
      have htype := @oneLine_revealedType _ c.classNames hfits
      have htyped := (hname.isLine.mark (u := ": ") (by decide) (by decide)).append htype
      exact ((htyped.append (by decide)).append ht).toIsLine
    | _ => exact tells_get.bind fun _ _ => hplain
  | _ => exact tells_get.bind fun _ _ => hplain

theorem lays_enumMembers (h : ∀ n ∈ ns, Fits TidyText .enumMember n) (hs : ∀ n ∈ ns, n.SliceFree) :
    Lays k (renderMembers .python ns) (replicate ns.length (plain k)) := by
  induction ns with
  | nil => exact lays_empty
  | cons n ns ih =>
    obtain ⟨hn, hns⟩ := forall_mem_cons.1 h
    obtain ⟨hsn, hsns⟩ := forall_mem_cons.1 hs
    have hrest := ih hns hsns
    cases hn with
    | @enumMember name args p hname hargs =>
      cases args with
      | nil =>
        have hline : IsFullLine none (name ++ " = auto()\n") := by
          refine ⟨name ++ " = auto()", ?_, (hname.isLine.mark (by decide) (by decide)).toIsLine⟩
          rw [String.append_assoc]
          rfl
        exact (lays_line hline).append hrest
      | cons arg args =>
        have hline : Lays k (do line (name ++ " = (" ++
            String.intercalate ", " (← renderList .python (arg :: args)) ++ ")\n")) [plain k] := by
          have hargs := tells_commas fun n hn => (hargs n hn).tells_oneLine rfl (hsn.nodes 1 rfl n hn) k
          exact hargs.bind fun us hus =>
            lays_line (((hname.isLine.mark (by decide) (by decide)).append hus).full (by decide))
        exact hline.append hrest

theorem tells_decorator (h : Fits TidyText .annotationUse n) (hs : n.SliceFree) :
    Tells k (renderDecorator .python n) (IsLine none) := by
  cases h with
  | @annotationUse head args values keys hname hargs hkeys hvalues =>
    have hat : IsHead none ("@" ++ head.name) := (by decide : IsHead none "@").append (oneLine_dotted hname)
    refine .ite (fun _ => ?_) fun _ => tells_pure hat.toIsLine
    refine (tells_list fun n hn => (hargs n hn).tells_oneLine rfl (hs.nodes 1 rfl n hn) k).bind fun us hus => ?_
    refine (tells_list fun n hn => (hvalues n hn).tells_oneLine rfl (hs.keyed 2 rfl n hn) k).bind fun vs hvs => ?_
    have hnamed : ∀ t ∈ zipWith (fun k v => k ++ "=" ++ v) keys vs, OneLine t := by
      rw [show zipWith (fun k v => k ++ "=" ++ v) keys vs = _ from
        (map_zip_eq_zipWith (f := fun p => p.1 ++ "=" ++ p.2)).symm, forall_mem_map]
      rintro ⟨key, value⟩ hmem
      obtain ⟨hkey, hvalue⟩ := of_mem_zip hmem
      exact oneLine_append.2 ⟨oneLine_append.2 ⟨(hkeys key hkey).oneLine, by decide⟩, hvs value hvalue⟩
    have hlist := oneLine_intercalate (show OneLine ", " by decide)
      (forall_mem_append.2 ⟨hus, hnamed⟩)
    exact tells_pure (((hat.append (by decide)).append hlist).append (by decide)).toIsLine

theorem tells_decorators (h : ∀ n ∈ ns, Fits TidyText .annotationUse n) (hs : ∀ n ∈ ns, n.SliceFree) :
    Tells k (renderDecorators .python ns) fun ds => ds.length = ns.countP isRuntime ∧ ∀ d ∈ ds, IsLine none d := by
  induction ns with
  | nil => exact tells_pure ⟨rfl, forall_mem_nil _⟩
  | cons n ns ih =>
    obtain ⟨hn, hns⟩ := forall_mem_cons.1 h
    obtain ⟨hsn, hsns⟩ := forall_mem_cons.1 hs
    have hrest := ih hns hsns
    rw [countP_cons]
    refine .ite (fun hruntime => ?_) fun hruntime => ?_
    · refine (tells_decorator hn hsn).bind fun d hd => hrest.bind fun ds hds => tells_pure ⟨?_, ?_⟩
      · rw [length_cons, hds.1, if_pos hruntime]
      · exact forall_mem_cons.2 ⟨hd, hds.2⟩
    · rw [if_neg hruntime]
      exact hrest

theorem lays_decorators (hlength : ds.length = ns.countP isRuntime)
    (hds : ∀ d ∈ ds, IsLine none d) (hnone : head.decorators = []) :
    Lays k (each (fun d => line (d ++ "\n")) (ds ++ ((if head.isStatic then ["@staticmethod"] else []) ++
        (if head.isAbstract then ["@abstractmethod"] else []) ++ (if head.isFinal then ["@final"] else [])) ++
        head.decorators))
      (replicate (decoratorCount head ns) (plain k)) := by
  have hmodifiers (b c d : Bool) : ∀ t ∈ (if b then ["@staticmethod"] else []) ++
      (if c then ["@abstractmethod"] else []) ++ (if d then ["@final"] else []), IsLine none t := by
    revert b c d
    decide
  have hcount : (ds ++ ((if head.isStatic then ["@staticmethod"] else []) ++
      (if head.isAbstract then ["@abstractmethod"] else []) ++ (if head.isFinal then ["@final"] else [])) ++
      head.decorators).length = decoratorCount head ns := by
    have hif (b : Bool) (t : String) : (if b then [t] else []).length = b.toNat := by cases b <;> rfl
    simp only [length_append, hif, hlength, decoratorCount, Nat.add_assoc]
  rw [← hcount]
  refine lays_each fun d hd => lays_line (IsLine.full ?_)
  rw [hnone, append_nil] at hd
  exact (mem_append.1 hd).elim (hds d) (hmodifiers _ _ _ d)

end BraceLang
