import BraceLang.Proofs.StatementOutcome
import BraceLang.Token.Scan

/-!
# Outcomes of programs

Every rule for declarations has an outcome on a list with an end mark, and so has the rule for programs: its loops
end, its cursor stays in front of the first end mark, and a program that is read ends there.
-/

namespace BraceLang

open List

section

variable {W : TokenKind → String → Prop} {n m : Node} {found : List Node}

theorem Fits.annotated_member (h : Fits W .member n) (hfound : ∀ a ∈ found, Fits W .annotationUse a)
    (hm : n.withAnnotations? found = some m) : Fits W .member m := by
  cases h with
  | function hname hresult hdecorators hparams hbody =>
    cases hm
    exact .function hname hresult hdecorators hparams hbody hfound
  | plainMember h => cases h <;> cases hm

theorem Fits.annotated_top (h : Fits W .top n) (hfound : ∀ a ∈ found, Fits W .annotationUse a)
    (hm : n.withAnnotations? found = some m) : Fits W .top m := by
  cases h with
  | plainTop h => exact .plainTop (h.annotated_member hfound hm)
  | classDecl hname hbases hinterfaces hbody hparams =>
    cases hm
    exact .classDecl hname hbases hinterfaces hbody hparams hfound
  | dataClass hname hfields hbody hparams =>
    cases hm
    exact .dataClass hname hfields hbody hparams hfound
  | enumDecl hname hmembers hbody =>
    cases hm
    exact .enumDecl hname hmembers hbody hfound
  | interface hname hmethods hbases =>
    cases hm
    exact .interface hname hmethods hbases hfound

end

theorem NameMap.mem_put {α : Type} {value : α} {m : NameMap α} {e : String × α}
    (h : e ∈ NameMap.put name value m) : e = (name, value) ∨ e ∈ m := by
  induction m with
  | nil => exact .inl (mem_singleton.1 h)
  | cons first m ih =>
    unfold NameMap.put at h
    split at h
    · next hkey =>
      subst hkey
      rcases mem_cons.1 h with h | h
      · exact .inl h
      · exact .inr (mem_cons_of_mem _ h)
    · rcases mem_cons.1 h with h | h
      · exact .inr (h ▸ mem_cons_self)
      · exact (ih h).imp_right (mem_cons_of_mem _)

namespace Parse

section

variable {W : TokenKind → String → Prop} {S : Tape W} {i : Nat}

/-! ### Annotations and flags -/

theorem gives_annotationName (n : Node) (h : Fits W .expression n) : Gives S i (annotationName n) (Dotted W) := by
  cases n with
  | identifier =>
    cases h with
    | identifier h => exact gives_pure (.name h)
  | member object =>
    cases h with
    | member hobject hname =>
      exact leads_bind (gives_annotationName object hobject) fun _ h => gives_pure (.dot h hname)
  | _ => exact leads_reject

theorem splitArguments_fits (hargs : ∀ n ∈ args, Fits W .argument n) :
    (∀ n ∈ (splitArguments args).1, Fits W .argument n) ∧
      ∀ e ∈ (splitArguments args).2, W .identifier e.1 ∧ Fits W .expression e.2 := by
  refine foldlRecOn (motive := fun found : List Node × List (String × Node) =>
    (∀ n ∈ found.1, Fits W .argument n) ∧ ∀ e ∈ found.2, W .identifier e.1 ∧ Fits W .expression e.2)
    args _ ⟨by simp, by simp⟩ ?_
  rintro ⟨plain, keyed⟩ ⟨hplain, hkeyed⟩ arg harg
  have harg := hargs arg harg
  cases harg with
  | plainArgument h =>
    have hmore := forall_mem_append.2 ⟨hplain, forall_mem_singleton.2 (Fits.plainArgument h)⟩
    cases h <;> exact ⟨hmore, hkeyed⟩
  | namedArgument hname hvalue =>
    refine ⟨hplain, fun e he => ?_⟩
    rcases NameMap.mem_put he with rfl | he
    · exact ⟨hname, hvalue⟩
    · exact hkeyed e he

variable {position : Position} {flags : List String} {tokens : List Token} {complaint : String} {P : Node → Prop}

theorem gives_annotationOf (h : Fits W .expression payload) :
    Gives S i (annotationOf payload retention position) (Fits W .annotationUse) := by
  have hdone {callee : Node} {arguments : List Node} (isCall : Bool) (hcallee : Fits W .expression callee)
      (harguments : ∀ n ∈ arguments, Fits W .argument n) : Gives S i (do
        let name ← annotationName callee
        if retention = .compileTime ∧ name.toList.contains '.' then
          reject ("Compile-time annotation '@!" ++ name ++ "' cannot be dotted; expected a registered name")
        return .annotationUse ⟨name, retention, isCall, position⟩ (splitArguments arguments).1
          ((splitArguments arguments).2.map Prod.fst) ((splitArguments arguments).2.map Prod.snd))
        (Fits W .annotationUse) := by
    refine leads_bind (gives_annotationName callee hcallee) fun name hname => ?_
    refine leads_ite (fun _ => leads_reject_bind) fun _ => gives_pure ?_
    obtain ⟨hargs, hkeyed⟩ := splitArguments_fits harguments
    refine .annotationUse hname hargs ?_ ?_
    · exact forall_mem_map.2 fun e he => (hkeyed e he).1
    · exact forall_mem_map.2 fun e he => (hkeyed e he).2
  cases payload with
  | call =>
    cases h with
    | call hcallee harguments => exact hdone true hcallee harguments
  | _ => exact hdone false h (forall_mem_nil _)

theorem gives_annotations : Gives S i annotations fun found => ∀ n ∈ found, Fits W .annotationUse n := by
  refine gives_iterate (∀ n ∈ ·, Fits W .annotationUse n) (forall_mem_nil _) fun found hfound => ?_
  refine leads_checkAdvance rfl (fun mark _ _ => ?_) (leads_pure id (forall_mem_found hfound))
  refine leads_bind (takes_read fun j => runs_payload j _) fun payload hpayload => ?_
  refine leads_bind (gives_annotationOf hpayload) fun a ha => leads_after (gives_skipNewlines rfl) fun _ => ?_
  exact gives_pure (forall_mem_cons.2 ⟨ha, hfound⟩)

theorem gives_annotate (hn : P n) (hP : ∀ m, n.withAnnotations? found = some m → P m) :
    Gives S i (annotate found n) P := by
  refine leads_ite (fun _ => gives_pure hn) fun _ => ?_
  split
  · next m hm => exact gives_pure (hP m hm)
  · exact leads_reject

theorem gives_flagValues : Gives S i flagValues fun _ => True := by
  have hvalue : Gives S i (do
      if ← check [.identifier, .string] then return optionalText (← advance).value
      reject "Expected compiler flag identifier or string") fun _ => True :=
    leads_checkAdvance rfl (fun _ _ _ => gives_pure trivial) leads_reject
  exact leads_ifTest gives_check (gives_pure trivial) ((gives_commaSeparated rfl hvalue).imp fun _ _ => trivial)

theorem gives_compilerFlags : Gives S i (compilerFlags allowed) fun _ => True := by
  refine leads_cursor fun j _ hold => runs_bind (gives_iterate (g := .covers .statements) (Q := fun _ => True)
    (fun _ => True) trivial (fun flags _ => ?_) j (Nat.le_refl j)) ?_
  · refine leads_checkOpened (.shuts .square) rfl ?_ (leads_pure id trivial)
    refine leads_after gives_flagValues fun _ => leads_shut (leads_after (gives_skipNewlines rfl) fun _ => ?_)
    refine leads_loop (fun _ => True) (fun _ => True) trivial (fun _ _ => ?_) fun _ _ => gives_pure trivial
    refine leads_checkAdvance rfl (fun _ _ _ => ?_) (leads_pure id trivial)
    exact leads_after (gives_skipNewlines rfl) fun _ => gives_pure trivial
  · rintro flags k ⟨hjk, _⟩
    split
    · exact runs_pure ⟨hjk, trivial⟩
    · split
      · exact runs_pure ⟨hjk, trivial⟩
      · refine runs_of_holds fun hk => runs_bind (P := fun _ l => k = l) ?_ ?_
        · refine runs_bind runs_cursor ?_
          rintro _ _ ⟨rfl, rfl⟩
          exact runs_nextKindFrom fun _ _ => Int.natCast_nonneg k
        · rintro kind _ rfl
          split
          · exact runs_pure ⟨hjk, trivial⟩
          · exact runs_seek hold (runs_pure ⟨.stay id j, trivial⟩)

/-! ### Parameters -/

theorem gives_simpleType {region : Region} : Goes S (.ground (.covers region)) i (simpleType allowQuoted complaint)
    fun type => ∀ s ∈ type, ∃ k, W k s :=
  leads_checkAdvance (by cases allowQuoted <;> rfl)
    (fun t ht _ => gives_pure fun s hs => ⟨t.kind, Tape.known_value ht rfl s hs⟩)
    (leads_after gives_peek fun _ => leads_reject)

theorem gives_parameter : Goes S (.ground (.covers .parameters)) i parameter (Fits W .parameter) := by
  refine leads_bind (takes_name rfl) fun name hname => leads_ifBind rfl gives_simpleType (by simp) fun type htype => ?_
  refine fun j _ => runs_ifTaken (fun t ht hassign => runs_bind runs_advance ?_)
    (runs_pure ⟨.stay id j, .parameter hname htype (.inl rfl)⟩)
  rintro u m ⟨hu, v, hv, hstep, hend⟩
  refine runs_pure ⟨?_, .parameter hname htype ?_⟩
  · by_cases hne : v.kind = .eof
    · obtain rfl := hend hne
      exact .step ht (hassign ▸ rfl)
    · obtain ⟨rfl, rfl⟩ := hstep hne
      exact ⟨by omega, False.elim, by rw [restAt_eq_cons ht, restAt_eq_cons hv]; exact .default hassign⟩
  · cases hvalue : u.value with
    | none => exact .inl rfl
    | some s => exact .inr ⟨s, rfl, u.kind, Tape.known_value hu rfl s hvalue⟩

theorem gives_parenthesized {g : Ground} (hnewline : [.newline].all g.passes)
    (hcomma : [.comma].all g.passes)
    (hrule : Goes S (.ground g) i rule P) :
    Goes S (.ground g) i (parenthesized rule) fun items => ∀ n ∈ items, P n := by
  refine leads_after (gives_skipNewlines hnewline) fun _ => leads_after gives_check fun _ => ?_
  extract_lets rest
  have hrest (items : List Node) (hitems : ∀ n ∈ items, P n) :
      Goes S (.ground g) i (rest items) fun items => ∀ n ∈ items, P n :=
    leads_after (gives_skipNewlines hnewline) fun _ => gives_pure hitems
  refine leads_ite (fun _ => hrest [] (by simp)) fun _ => leads_bind hrule fun first hfirst => ?_
  refine leads_loop (∀ n ∈ ·, P n) _ (by simpa using hfirst) (fun items hitems => ?_) hrest
  refine leads_ifAccept hcomma (leads_after (gives_skipNewlines hnewline) fun _ => ?_)
    (leads_pure id (forall_mem_found hitems))
  exact leads_bind (hrule.later (by omega)) fun item hitem => gives_pure (forall_mem_cons.2 ⟨hitem, hitems⟩)

theorem gives_typeParameters :
    Goes S (.ground (.skips headKinds)) i optionalTypeParameters fun params =>
      ∀ n ∈ params, Fits W .typeParameter n := by
  have hparam {i : Nat} : Goes S (.ground (.skips headKinds)) i typeParameter (Fits W .typeParameter) := by
    refine leads_after gives_peek fun _ => leads_bind (takes_name rfl) fun name hname => ?_
    refine leads_after (gives_accept rfl) fun _ => ?_
    extract_lets done rest
    have hdone (bound : Option String) : Goes S (.ground (.skips headKinds)) i (done bound) (Fits W .typeParameter) :=
      gives_pure (.typeParameter hname)
    have hrest (bounded : Bool) : Goes S (.ground (.skips headKinds)) i (rest bounded) (Fits W .typeParameter) :=
      leads_ite (fun _ => leads_after (takes_expect rfl) fun _ => hdone _) fun _ => hdone _
    exact leads_ite (fun _ => hrest true) fun _ => leads_after (gives_accept rfl) hrest
  refine leads_ifAccept rfl ?_ (gives_pure (by simp))
  exact leads_bind (gives_commaSeparated rfl hparam) fun params hparams =>
    leads_after (takes_expect rfl) fun _ => gives_pure hparams

/-! ### Functions -/

theorem leads_parameters {f : List Node → Parse α} {Q : α → Prop}
    (hf : ∀ params, (∀ n ∈ params, Fits W .parameter n) → Gives S i (f params) Q) :
    Goes S .parameters i (expect .lparen opening >>= fun _ => parameters >>= fun params =>
      expect .rparen closing >>= fun _ => f params) Q := by
  refine fun j hj => runs_expect_bind fun u hu huk => ?_
  refine runs_bind (gives_parenthesized rfl rfl gives_parameter (j + 1) (Nat.le_refl _)) ?_
  rintro params k ⟨hjk, hparams⟩
  have hle := hjk.le
  refine runs_expect_bind fun v hv hvk => runs_mono (hf params hparams (k + 1) (by omega)) ?_
  rintro a m ⟨hkm, ha⟩
  have hle' := hkm.le
  have hinside := hjk.trail
  rw [restAt_eq_cons hv] at hinside
  exact ⟨⟨by omega, False.elim, u, _, v, _, restAt_eq_cons hu ▸ .refl _ _, huk, hinside, hvk, hkm.trail⟩, ha⟩

/-- The name and the parameters behind the keyword of a function. -/
theorem leads_functionHead {f : Token → List Node → Parse α} {Q : α → Prop}
    (hf : ∀ name params, W .identifier name.text → (∀ n ∈ params, Fits W .parameter n) → Gives S i (f name params) Q) :
    Goes S .parameters i (expect .identifier complaint >>= fun name => parameterList opening >>= f name) Q :=
  leads_bind (takes_name rfl) fun name hname =>
    leads_then rfl (leads_parameters fun _ h => gives_pure h) fun params hparams => hf name params hname hparams

theorem gives_bracedBody : Gives S i (bracedBody opening closing) fun body => ∀ n ∈ body, Fits W .statement n :=
  leads_opened (.shuts .curly) rfl <| leads_bind (gives_functionBody takes_simpleStatement) fun _ h =>
    leads_shut (gives_pure h)

theorem gives_functionRest : Goes S .parameters i (functionRest flags position) (Fits W .member) := by
  refine leads_functionHead fun name params hname hparams => leads_after (gives_accept rfl) fun _ => ?_
  extract_lets rest
  have hrest (type : Option String) (htype : ∀ s ∈ type, ∃ k, W k s) : Gives S i (rest type) (Fits W .member) :=
    leads_bind gives_bracedBody fun body hbody =>
      gives_pure (.function hname htype rfl hparams hbody (forall_mem_nil _))
  exact leads_ite (fun _ => leads_bind gives_simpleType hrest) fun _ =>
    leads_ifBind rfl gives_simpleType (by simp) hrest

theorem gives_signature : Goes S .parameters i (signature position) (Fits W .signature) := by
  refine leads_functionHead fun name params hname hparams =>
    leads_ifBind rfl gives_simpleType (by simp) fun type htype => ?_
  exact leads_after (gives_accept rfl) fun _ => gives_pure (.signature hname hparams htype)

theorem takes_memberRest :
    Takes S i (memberRest signatureOnly flags position isStatic isAbstract isFinal) (Fits W .member) := by
  refine leads_ifOpened .parameters rfl ?_ (takes_simpleStatement.imp fun _ => .plainMember)
  refine leads_functionHead fun name params hname hparams =>
    leads_ifBind rfl gives_simpleType (by simp) fun type htype => ?_
  have hdone (body : List Node) (hbody : ∀ n ∈ body, Fits W .statement n) : Gives S (i + 1)
      (pure (.function ⟨name.text, type, isStatic, isAbstract, isFinal, [], flags, position⟩ params (some body)
        [] [])) (Fits W .member) :=
    gives_pure (.function hname htype rfl hparams hbody (forall_mem_nil _))
  refine leads_ite (fun _ => leads_after (gives_accept rfl) fun _ => hdone _ ?_) fun _ =>
    leads_bind gives_bracedBody hdone
  exact forall_mem_singleton.2 (.pass _)

theorem takes_classMember : Takes S i (classMember signatureOnly flags) (Fits W .member) := by
  refine leads_after gives_peek fun start => leads_after (gives_accept rfl) fun isStatic => ?_
  extract_lets rest
  have hrest (isAbstract : Bool) : Takes S i (rest isAbstract) (Fits W .member) :=
    leads_ite (fun _ => takes_memberRest) fun _ => leads_after (gives_accept rfl) fun _ => takes_memberRest
  exact leads_ite (fun _ => hrest false) fun _ => leads_after (gives_accept rfl) hrest

/-! ### Classes and their kin -/

theorem gives_classBody : Gives S i classBody fun body => ∀ n ∈ body, Fits W .member n := by
  refine gives_body rfl (Leads.imp ?_ fun _ h _ => h)
  refine leads_bind gives_annotations fun found hfound => leads_after gives_compilerFlags fun flags => ?_
  refine takes_bind takes_classMember fun n hn => ?_
  have hdone : Gives S (i + 1) (annotate found n) (Fits W .member) :=
    gives_annotate hn fun m hm => hn.annotated_member hfound hm
  split
  · exact hdone
  · exact leads_ite (fun _ => leads_reject_bind) fun _ => hdone

theorem gives_nameSequence : Gives S i (nameSequence complaint) fun names => ∀ s ∈ names, W .identifier s := by
  have hname : Gives S i (do return (← expect .identifier complaint).text) (W .identifier) :=
    leads_bind (takes_name rfl) fun _ h => gives_pure h
  exact gives_commaSeparated rfl hname

theorem gives_classBases : Gives S i classBases fun names => ∀ s ∈ names, W .identifier s := by
  have hclosing {i : Nat} (names : List String) (hnames : ∀ s ∈ names, W .identifier s) : Goes S (.shuts .round) i
      (expect .rparen "Expected ')' after base classes" >>= fun _ => pure names) fun names =>
        ∀ s ∈ names, W .identifier s :=
    leads_shut (gives_pure hnames)
  refine leads_ifOpened (.shuts .round) rfl (leads_ifTest gives_check ?_ (leads_bind gives_nameSequence hclosing))
    (leads_ifAccept rfl ?_ (gives_pure (forall_mem_nil _)))
  · exact hclosing [] (forall_mem_nil _)
  · exact leads_bind (takes_name rfl) fun _ h => gives_pure (forall_mem_singleton.2 h)

theorem takes_classDeclaration : Takes S i (classDeclaration flags) (Fits W .top) := by
  refine leads_after gives_peek fun start => leads_after (gives_accept rfl) fun isAbstract => ?_
  extract_lets rest
  have hrest (isFinal : Bool) : Takes S i (rest isFinal) (Fits W .top) := by
    refine takes_bind (takes_expect rfl) fun _ _ => leads_bind (takes_name rfl) fun name hname => ?_
    refine leads_bind (gives_typeParameters.covers (by decide)) fun params hparams => ?_
    refine leads_bind gives_classBases fun bases hbases => ?_
    refine leads_ifBind rfl gives_nameSequence (forall_mem_nil _) fun interfaces hinterfaces => ?_
    refine leads_opened (.shuts .curly) rfl (leads_bind gives_classBody fun body hbody => leads_shut ?_)
    exact gives_pure (.classDecl hname hbases hinterfaces hbody hparams (forall_mem_nil _))
  exact leads_ite (fun _ => hrest false) fun _ => leads_after (gives_accept rfl) hrest

theorem gives_interfaceBody :
    Goes S (.shuts .curly) i interfaceBody fun methods => ∀ n ∈ methods, Fits W .signature n := by
  have hmethod : Takes S i (do
      let start ← peek
      if ← check [.defKw] then
        let _ ← advance
        signature start.position
      else reject ("Expected method signature, got " ++ start.describe)) fun n =>
      n.isPresent = true → Fits W .signature n :=
    leads_after gives_peek fun start =>
      leads_checkOpened .parameters rfl (gives_signature.imp fun _ h _ => h) leads_reject
  exact leads_bind (gives_body rfl hmethod) fun methods hmethods => leads_shut (gives_pure hmethods)

theorem gives_interfaceRest : Gives S i (interfaceRest position) (Fits W .top) := by
  refine leads_bind (takes_name rfl) fun name hname => ?_
  refine leads_ifBind rfl gives_nameSequence (forall_mem_nil _) fun bases hbases => ?_
  refine leads_opened (.shuts .curly) rfl (leads_then rfl gives_interfaceBody fun methods hmethods => ?_)
  exact gives_pure (.interface hname hmethods hbases (forall_mem_nil _))

theorem takes_dataClassDeclaration : Takes S i dataClassDeclaration (Fits W .top) := by
  refine leads_after gives_peek fun start => leads_opened .parameters rfl (leads_after (takes_expect rfl) fun _ => ?_)
  refine leads_bind (takes_name rfl) fun name hname => leads_bind gives_typeParameters fun params hparams => ?_
  refine leads_parameters fun fields hfields => ?_
  have hdone (body : List Node) (hbody : ∀ n ∈ body, Fits W .member n) :
      Fits W .top (.dataClass name.text fields body params [] [] start.position) :=
    .dataClass hname hfields hbody hparams (forall_mem_nil _)
  refine leads_ifOpened (.shuts .curly) rfl ?_ (leads_after (gives_accept rfl) fun _ => ?_)
  · exact leads_bind gives_classBody fun body hbody => leads_shut (gives_pure (hdone body hbody))
  · exact gives_pure (hdone [] (forall_mem_nil _))

theorem gives_enumMembers : Gives S i enumMembers fun members => ∀ n ∈ members, Fits W .enumMember n := by
  refine gives_iterate (∀ n ∈ ·, Fits W .enumMember n) (forall_mem_nil _) fun members hmembers => ?_
  have hstop := forall_mem_found hmembers
  refine leads_ifTest gives_check (leads_pure id hstop) (leads_ifTest gives_isAtEnd (leads_pure id hstop) ?_)
  refine leads_ifAccept rfl (gives_pure hmembers) (leads_after gives_peek fun start => ?_)
  refine takes_bind (takes_name rfl) fun name hname => ?_
  have hmore {i : Nat} (args : List Node) (hargs : ∀ n ∈ args, Fits W .expression n) : Gives S i
      (accept [.comma] >>= fun b => if b then
        pure (.inl (.enumMember name.text args [] start.position :: members))
        else pure (.inr (.enumMember name.text args [] start.position :: members).reverse))
      (Sum.elim (∀ n ∈ ·, Fits W .enumMember n) (∀ n ∈ ·, Fits W .enumMember n)) := by
    have hmore := forall_mem_cons.2 ⟨Fits.enumMember (p := start.position) hname hargs, hmembers⟩
    exact leads_ifAccept rfl (gives_pure hmore) (gives_pure (forall_mem_found hmore))
  refine leads_ifOpened (.shuts .round) rfl ?_ (hmore [] (forall_mem_nil _))
  exact leads_bind (gives_parenthesized rfl rfl takes_expression.gives) fun args hargs => leads_shut (hmore args hargs)

theorem takes_enumDeclaration : Takes S i enumDeclaration (Fits W .top) := by
  refine leads_after gives_peek fun start => takes_bind (takes_expect rfl) fun _ _ => ?_
  refine leads_bind (takes_name rfl) fun name hname => leads_opened (.shuts .curly) rfl ?_
  refine leads_bind gives_enumMembers fun members hmembers => leads_after (gives_skipNewlines rfl) fun _ => ?_
  refine leads_ifBind rfl gives_classBody (forall_mem_nil _) fun body hbody => leads_shut ?_
  exact gives_pure (.enumDecl hname hmembers hbody (forall_mem_nil _))

/-! ### Programs -/

theorem takes_statementCore : Takes S i statementCore fun n => n.isPresent = true → Fits W .top n := by
  have htop {T : Trail} {i : Nat} {p : Parse Node} {needs : Node → Prop} (hp : Leads S T i p needs (Fits W .top)) :
      Leads S T i p needs fun n => n.isPresent = true → Fits W .top n := hp.imp fun _ h _ => h
  have hplain {i : Nat} {p : Parse Node} {needs : Node → Prop}
      (hp : Leads S (.ground (.covers .statements)) i p needs (Fits W .statement)) :
      Leads S (.ground (.covers .statements)) i p needs fun n => n.isPresent = true → Fits W .top n :=
    hp.imp fun _ h _ => .plainTop (.plainMember h)
  refine leads_after gives_peek fun _ =>
    leads_checkAdvance rfl (fun _ _ _ => gives_pure (absurd · Bool.false_ne_true)) ?_
  refine leads_after gives_compilerFlags fun flags => leads_after gives_peek fun start => ?_
  refine leads_ifAccept rfl (htop gives_interfaceRest) ?_
  refine leads_ifTest gives_check (htop takes_dataClassDeclaration) ?_
  refine leads_ifTest gives_check (htop takes_enumDeclaration) (leads_after gives_check fun _ => ?_)
  extract_lets simple core
  have hsimple : Takes S i (simple ()) fun n => n.isPresent = true → Fits W .top n := by
    refine leads_ifAccept rfl (hplain gives_finalDeclaration) (leads_ifAccept rfl (hplain gives_returnRest) ?_)
    refine leads_ifAccept rfl (hplain gives_raiseRest) (leads_ifTest gives_check (hplain takes_importStatement) ?_)
    exact leads_ifTest gives_looksTyped (hplain takes_typedDeclaration) (hplain takes_expressionStatement)
  have hcore (finalClass : Bool) : Takes S i (core finalClass) fun n => n.isPresent = true → Fits W .top n := by
    refine leads_after gives_check fun _ => leads_ite (fun _ => htop takes_classDeclaration) fun _ => ?_
    refine leads_ifOpened .parameters rfl (gives_functionRest.imp fun _ h _ => .plainTop h) ?_
    exact leads_ite (fun _ => leads_reject_bind) fun _ => hsimple
  refine leads_ite (fun _ => leads_cursor fun j hj hold => ?_) fun _ => hcore _
  refine runs_bind (runs_nextKindFrom fun _ _ => by omega) ?_
  rintro kind _ rfl
  exact hcore _ j hj

theorem takes_statement : Takes S i statement fun n => n.isPresent = true → Fits W .top n := by
  refine leads_bind gives_annotations fun found hfound => takes_bind takes_statementCore fun n hn => ?_
  refine gives_annotate hn fun m hm _ => ?_
  have hp : n.isPresent := by
    cases n with
    | missing => cases hm
    | _ => rfl
  exact (hn hp).annotated_top hfound hm

/-- A program is read up to an end mark. -/
theorem runs_program (S : Tape W) : Runs S program 0 fun n k => S.Passage (.ground (.covers .statements)) False 0 k ∧
    Fits W .program n ∧ ∃ t, S.tokens[k]? = some t ∧ t.kind = .eof := by
  refine runs_bind (runs_statementsUntil (fun j => runs_mono runs_isAtEnd ?_) rfl takes_statement (Nat.le_refl 0))
    fun _ _ h => runs_pure ⟨h.1, .module h.2.1, h.2.2⟩
  rintro b _ ⟨rfl, t, ht, hb⟩
  exact ⟨rfl, fun hyes => ⟨t, ht, hb.1 hyes⟩⟩

end

end Parse

/-- Every tree that the parser returns fits, with the texts of the tokens it was read from. -/
theorem parseTokens_fits (hW : ∀ t ∈ tokens, W t.kind t.text) (h : parseTokens tokens = .ok m) : Fits W .program m := by
  unfold parseTokens at h
  cases hr : Parse.program tokens.toArray 0 with
  | ok =>
    rw [hr] at h
    cases h
    let S : Tape W := ⟨tokens.toArray, none, by simp, by simpa using hW, 0⟩
    obtain ⟨_, -, -, hfits, -⟩ := (Parse.runs_program S).value rfl hr
    exact hfits
  | fail =>
    rw [hr] at h
    cases h

/-! ### Token lists with an end mark -/

/-- A token list as the scanner makes it: there is an end mark, and every other token carries its text. -/
structure Delimited (tokens : List Token) : Prop where
  hasEnd : ∃ t ∈ tokens, t.kind = .eof
  hasText : ∀ t ∈ tokens, t.kind ≠ .eof → t.value.isSome

def firstEnd (tokens : List Token) : Nat := tokens.findIdx fun t => t.kind == .eof

theorem Delimited.endsAt (h : Delimited tokens) : EndsAt tokens.toArray (firstEnd tokens) := by
  obtain ⟨t, ht, hk⟩ := h.hasEnd
  have hlt : firstEnd tokens < tokens.length := findIdx_lt_length_of_exists ⟨t, ht, by simpa using hk⟩
  refine ⟨⟨tokens[firstEnd tokens], ?_, ?_⟩, ?_⟩
  · rw [getElem?_toArray, getElem?_eq_getElem hlt]
  · exact beq_iff_eq.1 (findIdx_getElem (w := hlt))
  · intro i hi
    refine ⟨tokens[i], ?_, ?_⟩
    · rw [getElem?_toArray, getElem?_eq_getElem (by omega)]
    · simpa using not_of_lt_findIdx hi

theorem scanLines_delimited (lines : List (List Char)) : ∀ (line : Nat) (last : LastKinds),
    (scanLines line last lines).error = none → Delimited (scanLines line last lines).tokens := by
  induction lines with
  | nil =>
    intro line last _
    exact ⟨⟨_, mem_singleton.2 rfl, rfl⟩, by simp [scanLines]⟩
  | cons l ls ih =>
    intro line last h
    unfold scanLines at h ⊢
    cases hstuck : (scanLine 0 l).stuck with
    | some => simp only [hstuck] at h; cases h
    | none =>
      simp only [hstuck] at h ⊢
      obtain ⟨⟨t, ht, hk⟩, hrest⟩ := ih _ _ h
      refine ⟨⟨t, mem_append_right _ ht, hk⟩, ?_⟩
      intro u hu hne
      rcases mem_append.1 hu with hline | htail
      · unfold lineTokens at hline
        rcases mem_append.1 hline with hlex | hend
        · obtain ⟨x, _, rfl⟩ := mem_map.1 hlex
          rfl
        · rw [mem_singleton.1 hend]
          rfl
      · exact hrest u htail hne

theorem tokenize_delimited (h : tokenize source = .ok tokens) : Delimited tokens := by
  unfold tokenize at h
  cases herr : (scan source).error with
  | some => simp only [herr] at h; cases h
  | none =>
    simp only [herr] at h
    cases h
    exact scanLines_delimited _ _ _ herr

open Parse in
/-- What a run of the parser on a token list can do.  `Meets` excludes a cursor outside the list and a loop that does
not end, and keeps the cursor in front of the first end mark. -/
structure RunsSafely (tokens : List Token) : Prop where
  /-- A run ends with a module and rests on the first end mark, or it ends with a rejection, or behind a reserved
  word in the place of an expression. -/
  outcome : (∃ body, program tokens.toArray 0 = .ok (.module body) (firstEnd tokens)) ∨
    (∃ r j, program tokens.toArray 0 = .fail (.rejected r) j ∧ 0 ≤ j ∧ j ≤ firstEnd tokens) ∨
    (∃ j t, program tokens.toArray 0 = .fail .lambdaReserved j ∧ 0 < j ∧ j ≤ firstEnd tokens ∧
      tokenAt? tokens.toArray (j - 1) = some t ∧ t.kind = .lambdaKw)
  statement : ∀ i, Meets tokens.toArray (firstEnd tokens) statement i (Moves i)
  simple : ∀ i, Meets tokens.toArray (firstEnd tokens) simpleStatement i (Moves i)
  /-- So does a statement inside another, with the part of the budget that is left to it. -/
  nested : ∀ i (n : Nat), (firstEnd tokens : Int) - i < n →
    Meets tokens.toArray (firstEnd tokens) (simpleWithin n) i (Moves i)
  member : ∀ i signatureOnly flags,
    Meets tokens.toArray (firstEnd tokens) (classMember signatureOnly flags) i (Moves i)
  loops : ∀ i, Meets tokens.toArray (firstEnd tokens) (block simpleStatement) i (Stays i) ∧
    Meets tokens.toArray (firstEnd tokens) (functionBody simpleStatement) i (Stays i) ∧
    Meets tokens.toArray (firstEnd tokens) (switchRest simpleStatement) i (Stays i) ∧
    Meets tokens.toArray (firstEnd tokens) classBody i (Stays i) ∧
    Meets tokens.toArray (firstEnd tokens) interfaceBody i (Stays i) ∧
    Meets tokens.toArray (firstEnd tokens) enumDeclaration i (Stays i)

theorem Reply.Within.cases {α : Type} {P : α → Int → Prop} {r : Reply α}
    (h : r.Within tokens e P) : (∃ a j, r = .ok a j ∧ (0 ≤ j ∧ j ≤ e) ∧ P a j) ∨
      (∃ rejection j, r = .fail (.rejected rejection) j ∧ 0 ≤ j ∧ j ≤ e) ∨
      (∃ j t, r = .fail .lambdaReserved j ∧ 0 < j ∧ j ≤ e ∧ tokenAt? tokens (j - 1) = some t ∧ t.kind = .lambdaKw) := by
  cases r with
  | ok a j => exact .inl ⟨a, j, rfl, ⟨h.1, h.2.1⟩, h.2.2⟩
  | fail err j =>
    cases err with
    | rejected rejection => exact .inr (.inl ⟨rejection, j, rfl, h.1, h.2⟩)
    | lambdaReserved =>
      obtain ⟨h0, h1, t, ht, hk⟩ := h
      exact .inr (.inr ⟨j, t, rfl, h0, h1, ht, hk⟩)
    | outOfRange | lambdaMissing | exhausted => exact h.elim

/-- The tokens of a source are delimited, and on every delimited list the parser runs safely. -/
theorem delimited_runsSafely :
    (∀ source tokens, tokenize source = .ok tokens → Delimited tokens) ∧
      ∀ tokens, Delimited tokens → RunsSafely tokens := by
  refine ⟨fun _ _ h => tokenize_delimited h, fun tokens h => ?_⟩
  let S : Tape fun _ _ => True :=
    ⟨tokens.toArray, some (firstEnd tokens), fun e he => Option.mem_some.1 he ▸ h.endsAt, fun _ _ => trivial, 0⟩
  have hstays {α : Type} {T : Trail} {p : Parse α} {P : α → Prop} (hp : ∀ i, Parse.Goes S T i p P) (i : Int) :
      Parse.Meets tokens.toArray (firstEnd tokens) p i (Parse.Stays i) := by
    refine Parse.Runs.meets (S := S) rfl rfl ?_
    rintro m rfl
    exact Parse.runs_mono (hp m m (Nat.le_refl m)) fun _ _ h => Int.ofNat_le.2 h.1.le
  have hmoves {p : Parse Node} {P : Node → Prop} {i : Int} (hp : ∀ m : Nat, i = m → Parse.Takes S m p P) :
      Parse.Meets tokens.toArray (firstEnd tokens) p i (Parse.Moves i) := by
    refine Parse.Runs.meets (S := S) rfl rfl ?_
    rintro m rfl
    exact Parse.runs_mono (hp m rfl m (Nat.le_refl m)) fun _ _ h => Int.ofNat_lt.2 (h.1.lt trivial)
  refine ⟨?_, fun _ => hmoves fun _ _ => Parse.takes_statement, fun _ => hmoves fun _ _ => Parse.takes_simpleStatement,
    fun _ n hn => hmoves fun m hm => Parse.takes_simpleWithin n fun e he => ?_,
    fun _ _ _ => hmoves fun _ _ => Parse.takes_classMember, fun i => ⟨?_, ?_, ?_, ?_, ?_, ?_⟩⟩
  · have hw : (Parse.program tokens.toArray 0).Within tokens.toArray (firstEnd tokens) fun n j =>
        Fits (fun _ _ => True) .program n ∧ ∃ t, tokenAt? tokens.toArray j = some t ∧ t.kind = .eof := by
      refine Parse.Runs.meets (S := S) (i := 0) rfl rfl ?_ (Int.le_refl 0) (Int.natCast_nonneg _)
      intro m hm
      obtain rfl : m = 0 := by omega
      refine Parse.runs_mono (Parse.runs_program S) ?_
      rintro n k ⟨-, hn, t, ht, hk⟩
      exact ⟨hn, t, by rw [Parse.tokenAt?_natCast, ht], hk⟩
    rcases hw.cases with ⟨n, j, hr, hj, hn, t, ht, hk⟩ | hfail
    · have hend : ¬ j < firstEnd tokens := by
        intro hlt
        obtain ⟨u, hu, hne⟩ := h.endsAt.before j.toNat (by omega)
        rw [← Parse.tokenAt?_natCast, Int.toNat_of_nonneg hj.1, ht] at hu
        cases hu
        exact hne hk
      obtain rfl : j = firstEnd tokens := by omega
      cases hn with
      | module => exact .inl ⟨_, hr⟩
    · exact .inr hfail
  · cases Option.mem_some.1 he
    omega
  · exact hstays (fun _ => Parse.gives_block Parse.takes_simpleStatement) i
  · exact hstays (fun _ => Parse.gives_functionBody Parse.takes_simpleStatement) i
  · exact hstays (fun _ => Parse.gives_switchRest Parse.takes_simpleStatement) i
  · exact hstays (fun _ => Parse.gives_classBody) i
  · exact hstays (fun _ => Parse.gives_interfaceBody) i
  · exact hstays (fun _ => Parse.takes_enumDeclaration.gives) i

/-- A list with two end marks and a token between them. -/
theorem delimited_runsSafely_two_ends :
    Delimited [⟨.lambdaKw, some "lambda", 1, 0, none⟩, ⟨.eof, none, 1, 6, none⟩, ⟨.rbrace, some "\x7d", 2, 0, none⟩,
      ⟨.eof, none, 2, 1, none⟩] ∧
    RunsSafely [⟨.lambdaKw, some "lambda", 1, 0, none⟩, ⟨.eof, none, 1, 6, none⟩, ⟨.rbrace, some "\x7d", 2, 0, none⟩,
      ⟨.eof, none, 2, 1, none⟩] := by
  have h : Delimited [⟨.lambdaKw, some "lambda", 1, 0, none⟩, ⟨.eof, none, 1, 6, none⟩,
      ⟨.rbrace, some "\x7d", 2, 0, none⟩, ⟨.eof, none, 2, 1, none⟩] := 
    ⟨⟨⟨.eof, none, 1, 6, none⟩, by simp, rfl⟩, by simp⟩
  exact ⟨h, delimited_runsSafely.2 _ h⟩

end BraceLang
