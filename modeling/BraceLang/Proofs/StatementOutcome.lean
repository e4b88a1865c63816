import BraceLang.Proofs.ExpressionOutcome

/-!
# Outcomes of the rules for statements

A statement that is read takes at least one token (`takes_simpleStatement`), so no loop over statements stands still,
and its brackets are matched.
-/

namespace BraceLang

open List

namespace Parse

section

variable {W : TokenKind → String → Prop} {S : Tape W} {i j : Nat} {α β : Type} {P : α → Prop} {Q : β → Prop}

/-! ### Types and declarations of variables -/

theorem gives_typeText : Goes S (.ground (.skips typeKinds)) i typeText (IsTypeText W) := by
  refine leads_loop (fun s => ∀ p ∈ s.1, p ∈ ["[", "]", ", ", ".", "None"] ∨ W .identifier p)
    (fun parts => ∀ p ∈ parts, p ∈ ["[", "]", ", ", ".", "None"] ∨ W .identifier p) (by simp) ?_
    fun parts hparts => gives_pure ⟨parts, rfl, hparts⟩
  rintro ⟨parts, depth⟩ hparts
  have hmore {part : String} (hpart : part ∈ ["[", "]", ", ", ".", "None"] ∨ W .identifier part) :
      ∀ p ∈ part :: parts, p ∈ ["[", "]", ", ", ".", "None"] ∨ W .identifier p := forall_mem_cons.2 ⟨hpart, hparts⟩
  have hstop := forall_mem_found hparts
  refine leads_ifTest gives_check (leads_pure id hstop)
    (leads_checkAdvance rfl (fun t ht hk => gives_pure (hmore ?_)) ?_)
  · cases hvalue : t.value with
    | none => exact .inl (by simp [optionalText])
    | some s => exact .inr (Tape.known_value ht (mem_singleton.1 hk) s hvalue)
  refine leads_ifAccept rfl (gives_pure (hmore (.inl (by simp)))) ?_
  refine leads_ifAccept rfl (leads_ite (fun _ => gives_pure hstop) fun _ => gives_pure (hmore (.inl (by simp)))) ?_
  refine leads_ifAccept rfl (gives_pure (hmore (.inl (by simp)))) ?_
  exact leads_ifAccept rfl (gives_pure (hmore (.inl (by simp)))) (leads_pure id hstop)

theorem gives_looksTyped : Gives S i looksTyped fun _ => True := by
  refine leads_ifTest gives_check (leads_cursor fun j _ hold => ?_) (gives_pure trivial)
  refine runs_bind (runs_nextKindFrom fun e he => by have := hold e he; omega) ?_
  rintro _ _ rfl
  exact runs_pure ⟨.stay id j, trivial⟩

theorem gives_typedRest (htarget : Fits W .expression target) :
    Goes S .typed i (typedRest target) (Fits W .statement) := by
  refine leads_bind gives_typeText fun type htype => leads_typed (leads_ite (fun _ => leads_reject_bind) fun _ => ?_)
  refine leads_after (gives_accept rfl) fun assigns => ?_
  extract_lets rest
  have hrest (value : Node) (hvalue : Fits W .operand value) : Gives S i (rest value) (Fits W .statement) :=
    leads_after (gives_accept rfl) fun _ => gives_pure (.declaration (.declared htarget hvalue htype))
  exact leads_ite (fun _ => leads_bind takes_expression fun value hvalue => hrest value (.present hvalue))
    fun _ => hrest _ .missing

theorem takes_typedDeclaration : Takes S i typedDeclaration (Fits W .statement) :=
  leads_bind (takes_name rfl) fun _ hname => leads_opened .typed rfl (gives_typedRest (.identifier hname))

theorem gives_optionalType {f : Option String → Parse β}
    (hf : ∀ type, (∀ s ∈ type, IsTypeText W s) → Gives S i (f type) Q) :
    Gives S i (accept [.colon] >>= fun b => if b then (some <$> typeText) >>= f else pure none >>= f) Q := by
  have hsome : Goes S (.ground (.skips typeKinds)) i (some <$> typeText) fun type => ∀ s ∈ type, IsTypeText W s :=
    leads_bind gives_typeText fun type htype => gives_pure fun s hs => Option.mem_some.1 hs ▸ htype
  exact leads_ifOpened .typed rfl ((leads_bind hsome fun type htype => leads_typed (hf type htype)).later (by omega))
    (hf none (by simp))

theorem gives_finalDeclaration : Gives S i finalDeclaration (Fits W .statement) := by
  refine leads_after gives_check fun _ => leads_ite (fun _ => leads_reject_bind) fun _ => ?_
  refine leads_bind takes_expression fun target htarget => gives_optionalType fun type htype => ?_
  refine leads_after (gives_accept rfl) fun _ => leads_ite (fun _ => leads_reject_bind) fun _ => ?_
  refine leads_bind takes_expression fun value hvalue => ?_
  exact leads_after (gives_accept rfl) fun _ => gives_pure (.finalDecl htarget hvalue htype)

/-! ### Statements without a block -/

theorem gives_optionalValue : Gives S i optionalValue (Fits W .operand) :=
  leads_ifTest gives_check (gives_pure .missing) (takes_expression.imp fun _ => .present).gives

theorem gives_returnRest : Gives S i returnRest (Fits W .statement) :=
  leads_bind gives_optionalValue fun _ h => leads_after (gives_accept rfl) fun _ => gives_pure (.returns h)

theorem gives_raiseRest : Gives S i raiseRest (Fits W .statement) :=
  leads_bind gives_optionalValue fun _ h => leads_after (gives_accept rfl) fun _ => gives_pure (.raises h)

variable {blanks kinds : List TokenKind} {complaint : String} {done : Parse Bool}

theorem gives_dottedName : Gives S i (dottedName complaint) (Dotted W) := by
  refine leads_bind (takes_name rfl) fun first hfirst => gives_iterate (Dotted W) (.name hfirst) fun name hname => ?_
  refine leads_ifAccept rfl ?_ (leads_pure id hname)
  exact leads_bind (takes_name rfl) fun part hpart => gives_pure (.dot hname hpart)

theorem gives_aliasName : Gives S i aliasName fun newName => ∀ s ∈ newName, W .identifier s := by
  refine leads_ifAccept rfl (leads_bind (takes_name rfl) fun t ht => gives_pure ?_) (gives_pure (by simp))
  rintro s ⟨⟩
  exact ht

theorem gives_commaSeparated {g : Ground} {rule : Parse α} (hcomma : [.comma].all g.passes)
    (hrule : Goes S (.ground g) i rule P) :
    Goes S (.ground g) i (commaSeparated rule) fun items => ∀ a ∈ items, P a := by
  refine leads_bind hrule fun first hfirst => ?_
  refine gives_iterate (∀ a ∈ ·, P a) (by simpa using hfirst) fun items hitems => ?_
  refine leads_ifAccept hcomma ?_ (leads_pure id (forall_mem_found hitems))
  exact leads_bind (hrule.later (by omega)) fun item hitem => gives_pure (forall_mem_cons.2 ⟨hitem, hitems⟩)

theorem takes_importStatement : Takes S i importStatement (Fits W .statement) := by
  have hnamed {i : Nat} : Gives S i importedName fun item => W .identifier item.1 ∧ ∀ s ∈ item.2, W .identifier s :=
    leads_bind (takes_name rfl) fun name hname => leads_bind gives_aliasName fun newName h => gives_pure ⟨hname, h⟩
  refine leads_ifAccept rfl ?_ (leads_ifAccept rfl ?_ leads_reject)
  · refine leads_bind gives_dottedName fun source hsource => leads_after (takes_expect rfl) fun _ => ?_
    refine leads_bind (gives_commaSeparated rfl hnamed) fun items hitems => leads_after (gives_accept rfl) fun _ => ?_
    refine gives_pure (.imports hsource ?_ ?_)
    · intro s hs
      obtain ⟨item, hitem, rfl⟩ := mem_map.1 hs
      exact (hitems item hitem).1
    · intro s hs
      obtain ⟨item, hitem, h⟩ := mem_map.1 hs
      exact (hitems item hitem).2 s h
  · refine leads_bind gives_dottedName fun source hsource => leads_bind gives_aliasName fun newName hnewName => ?_
    refine leads_after (gives_accept rfl) fun _ => gives_pure (.imports hsource (by simp) ?_)
    intro s hs
    have hs : s ∈ newName.filter (!·.isEmpty) := by simpa using hs
    exact hnewName s (Option.mem_filter_iff.1 hs).1

theorem takes_expressionStatement : Takes S i expressionStatement (Fits W .statement) :=
  takes_bind takes_expression fun _ h => leads_after (gives_accept rfl) fun _ => gives_pure (.expressionStatement h)

theorem takes_expressionOrTyped : Takes S i expressionOrTyped (Fits W .statement) := by
  refine takes_bind takes_expression fun target htarget => leads_ifOpened .typed rfl (gives_typedRest htarget) ?_
  exact leads_after (gives_accept rfl) fun _ => gives_pure (.expressionStatement htarget)

/-! ### Statements with blocks -/

/-- The statements end where the test for their end says so. -/
theorem runs_statementsUntil {statement : Parse Node} {P : Node → Prop} {D : Nat → Prop}
    (hdone : ∀ j, Runs S done j fun b k => j = k ∧ (b = true → D j))
    (hblanks : blanks.all (Ground.covers .statements).passes)
    (hs : Takes S i statement fun n => n.isPresent = true → P n) (hij : i ≤ j) :
    Runs S (statementsUntil done blanks statement) j fun body k =>
      S.Passage (.ground (.covers .statements)) False j k ∧ (∀ n ∈ body, P n) ∧ D k := by
  refine runs_iterate (fun stmts m => S.Passage (.ground (.covers .statements)) False j m ∧ ∀ n ∈ stmts, P n)
    ⟨.stay id j, by simp⟩ ?_
  rintro stmts m ⟨hjm, hstmts⟩
  refine runs_bind (hdone m) ?_
  rintro b _ ⟨rfl, hb⟩
  split
  · next hyes => exact runs_pure ⟨hjm, forall_mem_found hstmts, hb hyes⟩
  have hround : Turns S (.covers .statements) i (accept blanks >>= fun b => if b then pure (.inl stmts) else
      statement >>= fun n => pure (.inl (if n.isPresent then n :: stmts else stmts))) (∀ n ∈ ·, P n)
      fun _ : List Node => False := by
    refine leads_ifAccept hblanks (gives_pure hstmts) (takes_bind hs fun n hn => gives_pure ?_)
    by_cases hp : n.isPresent
    · rw [if_pos hp]
      exact forall_mem_cons.2 ⟨hn hp, hstmts⟩
    · rw [if_neg hp]
      exact hstmts
  refine runs_mono (hround m (Nat.le_trans hij hjm.le)) ?_
  rintro (_ | _) k ⟨hmk, hr⟩
  · exact ⟨fun _ _ => hmk.lt trivial, (hjm.trans hmk).idle, hr⟩
  · exact hr.elim

/-- A block ends at its closing brace or at the end mark; if it does not end, there is a token to step over. -/
theorem runs_atBlockEnd : Runs S atBlockEnd i fun b j =>
    i = j ∧ (b = false → ∃ t, S.tokens[i]? = some t ∧ t.kind ≠ .rbrace ∧ t.kind ≠ .eof) := by
  refine runs_ifCheck (fun _ _ _ _ => runs_pure ⟨rfl, by simp⟩) fun hbrace => runs_mono runs_isAtEnd ?_
  rintro b _ ⟨rfl, t, ht, hb⟩
  refine ⟨rfl, fun hf => ?_⟩
  have hne : t.kind ≠ .eof := fun hk => by simp [hb.2 hk] at hf
  exact ⟨t, ht, fun hk => hne (hbrace t ht (by simp [hk])), hne⟩

theorem gives_body {statement : Parse Node} {P : Node → Prop}
    (hblanks : blanks.all (Ground.covers .statements).passes)
    (hs : Takes S i statement fun n => n.isPresent = true → P n) :
    Gives S i (statementsUntil atBlockEnd blanks statement) fun body => ∀ n ∈ body, P n := by
  have hdone (j : Nat) : Runs S atBlockEnd j fun b k => j = k ∧ (b = true → True) :=
    runs_mono runs_atBlockEnd fun _ _ h => ⟨h.1, fun _ => trivial⟩
  exact fun j hj => runs_mono (runs_statementsUntil hdone hblanks hs hj) fun _ _ h => ⟨h.1, h.2.1⟩

section

variable {statement : Parse Node}

theorem gives_functionBody (hs : Takes S i statement (Fits W .statement)) :
    Gives S i (functionBody statement) fun body => ∀ n ∈ body, Fits W .statement n :=
  gives_body rfl (hs.imp fun _ h _ => h)

theorem gives_block (hs : Takes S i statement (Fits W .statement)) :
    Goes S (.shuts .curly) i (block statement) fun body => ∀ n ∈ body, Fits W .statement n :=
  leads_bind (gives_functionBody hs) fun _ h => leads_shut (gives_pure h)

theorem leads_block {needs₂ : β → Prop} {f : List Node → Parse β} (hs : Takes S i statement (Fits W .statement))
    (hf : ∀ body, (∀ n ∈ body, Fits W .statement n) → Gives S i (f body) Q) :
    Leads S (.ground (.covers .statements)) i (expect .lbrace complaint >>= fun _ => block statement >>= f) needs₂ Q :=
  leads_opened (.shuts .curly) rfl (leads_then rfl (gives_block hs) hf)

theorem gives_rejectAssignment : Gives S i (rejectAssignment condition complaint) fun _ => True := by
  unfold rejectAssignment
  split
  · exact leads_reject
  · exact gives_pure trivial

theorem gives_conditionalRest (n : Nat) : ∀ {i : Nat}, S.Allows i n → Takes S i statement (Fits W .statement) →
    Gives S i (conditionalRest statement n) (Fits W .statement) := by
  induction n with
  | zero => exact fun hn _ => leads_exhausted hn
  | succ n ih =>
    intro i hn hs
    have hs' := hs.later (j := i + 1) (by omega)
    refine leads_bind takes_expression fun condition hcondition => leads_after gives_rejectAssignment fun _ => ?_
    refine leads_block hs fun thenBody hthen => ?_
    -- the chain goes on behind its keyword, with a budget that is smaller by one
    refine leads_checkAdvance rfl (fun _ _ _ => leads_bind (ih (hn.next (by omega)) hs') fun m hm => ?_)
      (leads_ifAccept rfl (leads_ifTest gives_check (leads_bind hs' fun m hm => ?_) ?_) ?_)
    · exact gives_pure (.conditional hcondition hthen (by simpa using hm))
    · exact gives_pure (.conditional hcondition hthen (by simpa using hm))
    · exact leads_block hs' fun _ helse => gives_pure (.conditional hcondition hthen helse)
    · exact gives_pure (.conditional hcondition hthen (by simp))

theorem gives_optionalParens {f : Node → Parse β} {closing : String}
    (hf : ∀ n, Fits W .expression n → Gives S i (f n) Q) :
    Gives S i (accept [.lparen] >>= fun parens => expression >>= fun n =>
      if parens then expect .rparen closing >>= fun _ => f n else f n) Q := by
  refine fun j hj => runs_bind (runs_accept _) ?_
  rintro parens _ (⟨rfl, t, ht, -, hk, rfl⟩ | ⟨rfl, -, rfl⟩)
  · have hparens : Goes S (.shuts .round) i (expression >>= fun n => expect .rparen closing >>= fun _ => f n) Q :=
      leads_bind takes_expression fun n hn => leads_shut (hf n hn)
    exact hparens.runs_opened (by omega) ht (mem_singleton.1 hk ▸ rfl)
  · exact leads_bind takes_expression hf j hj

theorem gives_whileRest (hs : Takes S i statement (Fits W .statement)) :
    Gives S i (whileRest statement) (Fits W .statement) := by
  refine gives_optionalParens fun condition hcondition => leads_after gives_rejectAssignment fun _ => ?_
  exact leads_block hs fun _ hbody => gives_pure (.whileLoop hcondition hbody)

theorem gives_forRest (hs : Takes S i statement (Fits W .statement)) :
    Gives S i (forRest statement) (Fits W .statement) :=
  gives_optionalParens fun _ hclause => leads_block hs fun _ hbody => gives_pure (.forLoop hclause hbody)

theorem runs_caseBody (hkinds : ∀ k ∈ kinds, k ∈ switchKinds) (hs : Takes S i statement (Fits W .statement))
    (hij : i ≤ j) : Runs S (statementsUntil (check kinds) [.newline] statement) j fun body k =>
      S.Passage (.ground (.covers .statements)) False j k ∧ (∀ n ∈ body, Fits W .statement n) ∧
        ∃ t ∈ (restAt S.tokens k).head?, t.kind ∈ switchKinds := by
  refine runs_statementsUntil (fun j => runs_mono (runs_check kinds) ?_) rfl (hs.imp fun _ h _ => h) hij
  rintro b _ ⟨rfl, t, ht, hb⟩
  exact ⟨rfl, fun hyes => ⟨t, by rw [restAt_eq_cons ht]; rfl, hkinds _ (hb.1 hyes).2⟩⟩

theorem runs_caseRest (hs : Takes S i statement (Fits W .statement)) (hij : i ≤ j) :
    Runs S (caseRest statement) j fun n k => S.Passage (.ground (.covers .statements)) False j k ∧ Fits W .case n ∧
      ∃ t ∈ (restAt S.tokens k).head?, t.kind ∈ switchKinds := by
  refine runs_bind (takes_expression j (Nat.le_refl j)) fun value k hvalue => runs_expect_bind fun t ht hk => ?_
  have hcolon : S.Passage (.ground (.covers .statements)) False k (k + 1) := .step ht (hk ▸ rfl)
  refine runs_bind (runs_caseBody (by decide) hs (Nat.le_trans hij (hvalue.1.trans hcolon).le)) fun body l hbody => ?_
  exact runs_pure ⟨(hvalue.1.trans hcolon).trans hbody.1, .case hvalue.2 hbody.2.1, hbody.2.2⟩

/-- What a switch has read from `k` to `m`. -/
def SwitchRead (S : Tape W) (k : Nat) (found : List Node × List Node) (m : Nat) : Prop :=
  k ≤ m ∧ SwitchInside (restAt S.tokens k) (restAt S.tokens m) ∧ (∀ n ∈ found.1, Fits W .case n) ∧
    ∀ n ∈ found.2, Fits W .statement n

theorem gives_switchRest (hs : Takes S i statement (Fits W .statement)) :
    Goes S .switch i (switchRest statement) (Fits W .statement) := by
  refine fun j hj => runs_expect_bind fun l hl hlk => runs_bind (runs_expression _) ?_
  rintro subject k ⟨_, hsubject⟩
  have hlt := hsubject.lt rfl
  refine runs_expect_bind fun r hr hrk => runs_expect_bind fun u hu huk => ?_
  have hparens : Spans (restAt S.tokens j) (restAt S.tokens (k + 1)) :=
    .enclosed (b := .round) (restAt_eq_cons hl) hlk hsubject.spans (restAt_eq_cons hr) hrk
  rw [restAt_eq_cons hu] at hparens
  refine runs_bind (P := SwitchRead S (k + 1 + 1)) ?_ ?_
  · refine runs_iterate (SwitchRead S (k + 1 + 1)) ⟨Nat.le_refl _, .refl _, by simp, by simp⟩ ?_
    rintro ⟨cases, default⟩ m ⟨hkm, hm, hcases, hdefault⟩
    refine runs_bind runs_atBlockEnd ?_
    rintro b _ ⟨rfl, hb⟩
    split
    · exact runs_pure ⟨hkm, hm, forall_mem_found hcases, hdefault⟩
    next hend =>
    refine runs_ifAccept (fun w hw _ hk => ?_) fun hcase => runs_ifAccept (fun w hw _ hk => ?_) fun hother => ?_
    · rw [restAt_eq_cons hw] at hm
      refine runs_bind (runs_caseRest hs (by omega : i ≤ m + 1)) ?_
      rintro n o ⟨hread, hn, hnext⟩
      have hmo := hread.le
      refine runs_pure ⟨fun _ _ => by omega, by omega, hm.case (.inl (mem_singleton.1 hk)) hread.trail hnext, ?_⟩
      exact ⟨forall_mem_cons.2 ⟨hn, hcases⟩, hdefault⟩
    · rw [restAt_eq_cons hw] at hm
      refine runs_expect_bind fun w' hw' hk' => ?_
      have hcolon : S.Passage (.ground (.covers .statements)) False (m + 1) (m + 1 + 1) := .step hw' (hk' ▸ rfl)
      refine runs_bind (runs_caseBody (by decide) hs (by omega : i ≤ m + 1 + 1)) ?_
      rintro body o ⟨hread, hbody, hnext⟩
      have hread := hcolon.trans hread
      have hmo := hread.le
      refine runs_pure ⟨fun _ _ => by omega, by omega, hm.case (.inr (mem_singleton.1 hk)) hread.trail hnext, ?_⟩
      exact ⟨hcases, forall_mem_append.2 ⟨hdefault, hbody⟩⟩
    -- any other token is skipped
    · obtain ⟨w, hw, hbrace, hne⟩ := hb (by simpa using hend)
      refine runs_step_bind hw hne ?_
      rw [restAt_eq_cons hw] at hm
      refine runs_pure ⟨fun _ _ => Nat.lt_succ_self m, by omega, hm.skip ?_, hcases, hdefault⟩
      simp only [switchKinds, mem_cons, not_mem_nil, or_false, not_or]
      exact ⟨fun h => hne (hcase w hw (by simp [h])), fun h => hne (hother w hw (by simp [h])), hbrace⟩
  · rintro ⟨cases, default⟩ m ⟨hkm, hm, hcases, hdefault⟩
    refine runs_expect_bind fun v hv hvk => ?_
    rw [restAt_eq_cons hv] at hm
    exact runs_pure ⟨⟨by omega, False.elim, fun t ht => hm.covers ht hparens huk hvk⟩,
      .switch (fits_of_readAt hsubject) hcases hdefault⟩

end

/-- A budget above the number of tokens up to the end mark is enough: every nested statement lies behind a token. -/
theorem takes_simpleWithin (n : Nat) : ∀ {i : Nat}, S.Allows i n → Takes S i (simpleWithin n) (Fits W .statement) := by
  induction n with
  | zero => exact fun hn => leads_exhausted hn
  | succ n ih =>
    intro i hn
    have hs := ih (hn.next (by omega : i < i + 1))
    refine leads_ifAccept rfl (leads_after (gives_accept rfl) fun _ => gives_pure (.pass _)) ?_
    refine leads_ifAccept rfl gives_finalDeclaration (leads_ifTest gives_looksTyped takes_typedDeclaration ?_)
    refine leads_ifAccept rfl gives_returnRest (leads_ifAccept rfl ?_ ?_)
    · exact leads_budget fun j m hj hm => gives_conditionalRest m hm (hs.later hj)
    refine leads_ifAccept rfl (gives_whileRest hs) (leads_ifAccept rfl (gives_forRest hs) ?_)
    refine leads_ifOpened .switch rfl (gives_switchRest hs) (leads_ifAccept rfl gives_raiseRest ?_)
    exact leads_ifTest gives_check takes_importStatement takes_expressionOrTyped

theorem takes_simpleStatement : Takes S i simpleStatement (Fits W .statement) :=
  leads_budget fun _ n _ hn => takes_simpleWithin n hn

end

end Parse

end BraceLang
