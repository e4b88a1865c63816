import BraceLang.Proofs.Phrases

/-!
# Blocks are read back

A body between braces is read as its list of statements, however its phrases end and however deep its blocks are
nested.
-/

namespace BraceLang

open List Parse

section

variable {tokens : Array Token} {statement : Parse Node} {i j e : Nat} {n : Node} {ns : List Node}

/-! ### The loop over statements -/

/-- From every index that the rest of a body is reached from over ends of line, the loop adds the statements and stops
at the index `j`. -/
def Continues (tokens : Array Token) (statement : Parse Node) (i j : Nat) (ns : List Node) : Prop :=
  ∀ k, Leaves tokens i false k → ∀ stmts,
    iterate (statementStep atBlockEnd [.newline, .comment] statement) stmts tokens k = .ok (stmts.reverse ++ ns) j

variable {kind : TokenKind} {k : Nat}

theorem Leaves.eq (h : Leaves tokens i false k) (hk : KindAt tokens i kind) (hne : kind ≠ .newline) :
    k = i := by
  by_contra hlt
  exact hne (hk.unique (h.2 i (Nat.le_refl i) (Nat.lt_of_le_of_ne h.1 (Ne.symm hlt))))

theorem atBlockEnd_miss (h : KindAt tokens i kind) (hbrace : kind ∉ [.rbrace]) (heof : kind ≠ .eof) :
    atBlockEnd tokens i = .ok false i := by
  rw [atBlockEnd, ifCheck_miss h hbrace, isAtEnd_ok h]
  simpa using heof

theorem continues_done (h : KindAt tokens i .rbrace) : Continues tokens statement i i [] := by
  intro k hk stmts
  obtain rfl := hk.eq h (by decide)
  refine iterate_done ?_
  have hend : atBlockEnd tokens k = .ok true k := by
    rw [atBlockEnd, ifCheck_hit h (by decide)]
    rfl
  rw [statementStep, bind_ok hend, if_pos rfl, append_nil]
  rfl

theorem Continues.blank (h : Continues tokens statement (i + 1) j ns) (hline : KindAt tokens i .newline) :
    Continues tokens statement i j ns := by
  intro k hk stmts
  by_cases hki : k = i
  · subst hki
    refine iterate_next hline.lt_size (Nat.lt_succ_self k) ?_ (h (k + 1) (leaves_self tokens (k + 1)) stmts)
    rw [statementStep, bind_ok (atBlockEnd_miss hline (by decide) (by decide)), if_neg (by decide),
      ifAccept_hit hline (by decide)]
    rfl
  · have hle := hk.1
    exact h k ⟨by omega, fun l hl hl' => hk.2 l (by omega) hl'⟩ stmts

theorem continues_cons (hfirst : KindAt tokens i kind) (hkind : kind ∈ statementKinds)
    (hstatement : statement tokens i = .ok n k) (hp : n.isPresent) (hik : i < k)
    (hrest : ∀ stmts, iterate (statementStep atBlockEnd [.newline, .comment] statement) stmts tokens k =
      .ok (stmts.reverse ++ ns) j) : Continues tokens statement i j (n :: ns) := by
  have hkinds := (by decide : ∀ kind ∈ statementKinds,
    kind ∉ [.rbrace] ∧ kind ≠ .eof ∧ kind ≠ .newline ∧ kind ∉ [.newline, .comment]) kind hkind
  obtain ⟨hbrace, heof, hline, hblank⟩ := hkinds
  intro l hl stmts
  obtain rfl := hl.eq hfirst hline
  have hnext := hrest (n :: stmts)
  rw [reverse_cons, List.append_assoc, singleton_append] at hnext
  refine iterate_next hfirst.lt_size hik ?_ hnext
  rw [statementStep, bind_ok (atBlockEnd_miss hfirst hbrace heof), if_neg (by decide), ifAccept_miss hfirst hblank,
    bind_ok hstatement, if_pos hp]
  rfl

theorem Continues.cons (h : Continues tokens statement k j ns) (hfirst : KindAt tokens i kind)
    (hkind : kind ∈ statementKinds) (hstatement : statement tokens i = .ok n k) (hp : n.isPresent)
    (hik : i < k) : Continues tokens statement i j (n :: ns) :=
  continues_cons hfirst hkind hstatement hp hik (h k (leaves_self tokens k))

theorem Continues.block (h : Continues tokens statement i j ns) (hbrace : KindAt tokens j .rbrace) :
    block statement tokens i = .ok ns (j + 1 : Nat) := by
  have hinside : statementsUntil atBlockEnd [.newline, .comment] statement tokens i = .ok ns j :=
    h i (leaves_self tokens i) []
  rw [Parse.block, bind_ok hinside]
  exact expect_bind hbrace (by decide) fun _ _ => rfl

/-! ### The rule for the statements inside -/

/-- From the index `i` on and up to `e`, the rule reads a statement, with a budget for all the blocks up to `e`. -/
def Serves (tokens : Array Token) (statement : Parse Node) (i e : Nat) : Prop :=
  ∀ j, i ≤ j → j < e → ∃ m, e ≤ j + m ∧ statement tokens j = simpleStep (simpleWithin m) tokens j

theorem Serves.mono (h : Serves tokens statement i e) (hij : i ≤ j := by omega) : Serves tokens statement j e :=
  fun l hl hle => h l (Nat.le_trans hij hl) hle

theorem serves_within {m : Nat} (h : e ≤ i + m) : Serves tokens (simpleWithin m) (i + 1) e := by
  intro j hij hje
  obtain ⟨m, rfl⟩ : ∃ m', m = m' + 1 := ⟨m - 1, by omega⟩
  exact ⟨m, by omega, rfl⟩

theorem serves_simpleStatement (tokens : Array Token) : Serves tokens simpleStatement 0 tokens.size := by
  intro j _ hj
  exact ⟨(tokens.size - j : Int).toNat + 1, by omega, rfl⟩

/-! ### Statements with blocks -/

theorem stands_braced (h : Stands tokens i (Body.braced inside rest)) :
    KindAt tokens i .lbrace ∧ Stands tokens (i + 1) inside ∧ KindAt tokens (i + 1 + inside.length) .rbrace ∧
      Stands tokens (i + 1 + inside.length + 1) rest := by
  obtain ⟨hinside, hrest⟩ := stands_append.1 h.2
  exact ⟨h.kindAt, hinside, hrest.kindAt, hrest.2⟩

theorem rejectAssignment_formula (f : Formula) (complaint : String) (i : Int) :
    rejectAssignment f.node complaint tokens i = .ok () i := by
  cases f with
  | binary o => cases o <;> rfl
  | _ => rfl

variable {m : Nat} {ms : List Node} {ws : List Word}

/-- What follows the first block of a conditional: the rest of the body, or a second block. -/
def ElsePart (tokens : Array Token) (statement : Parse Node) (j : Nat) (ns : List Node) (k : Nat) : Prop :=
  (Resumes tokens j ∧ ns = [] ∧ k = j) ∨
    (KindAt tokens j .elseKw ∧ KindAt tokens (j + 1) .lbrace ∧
      block statement tokens (j + 1 + 1 : Nat) = .ok ns (k : Nat))

theorem conditional_ok (c : Formula) (hif : KindAt tokens i .ifKw) (hread : Reads .disjunction c.node ws)
    (hs : Stands tokens (i + 1) ws) (hbrace : KindAt tokens (i + 1 + ws.length) .lbrace)
    (hthen : block statement tokens (i + 1 + ws.length + 1 : Nat) = .ok ms (j : Nat))
    (helse : ElsePart tokens statement j ns k) : simpleStep statement tokens i = .ok (.conditional c.node ms ns) k := by
  have hcondition := hread.expression_before hs hbrace (by decide)
  rw [simpleStep, ifAccept_miss hif (by decide), ifAccept_miss hif (by decide),
    bind_ok (looksTyped_miss hif (by decide)), if_neg (by decide), ifAccept_miss hif (by decide),
    ifAccept_hit hif (by decide)]
  show conditionalRest statement ((tokens.size - (i + 1 : Nat) : Int).toNat + 1 + 1) tokens (i + 1 : Nat) = _
  rw [conditionalRest, bind_ok hcondition, bind_ok (rejectAssignment_formula c _ _)]
  refine expect_bind hbrace (by decide) fun _ _ => ?_
  rw [bind_ok hthen]
  rcases helse with ⟨hnext, rfl, rfl⟩ | ⟨helse, hbrace', hother⟩
  · obtain ⟨kind, hkind, hk⟩ := hnext.kindAt
    have hkinds := (by decide : ∀ kind ∈ .newline :: .rbrace :: statementKinds, kind ∉ [.elifKw] ∧ kind ∉ [.elseKw])
      kind hkind
    rw [ifCheck_miss hk hkinds.1, ifAccept_miss hk hkinds.2]
    rfl
  · rw [ifCheck_miss helse (by decide), ifAccept_hit helse (by decide), ifCheck_miss hbrace' (by decide)]
    refine expect_bind hbrace' (by decide) fun _ _ => ?_
    rw [bind_ok hother]
    rfl

theorem whileLoop_ok (c : Formula) (hwhile : KindAt tokens i .whileKw) (hread : Reads .disjunction c.node ws)
    (hopen : KindAt tokens (i + 1) .lparen) (hs : Stands tokens (i + 1 + 1) ws)
    (hclose : KindAt tokens (i + 1 + 1 + ws.length) .rparen)
    (hbrace : KindAt tokens (i + 1 + 1 + ws.length + 1) .lbrace)
    (hbody : block statement tokens (i + 1 + 1 + ws.length + 1 + 1 : Nat) = .ok ms (j : Nat)) :
    simpleStep statement tokens i = .ok (.whileLoop c.node ms) j := by
  have hcondition := hread.expression_before hs hclose (by decide)
  rw [simpleStep, ifAccept_miss hwhile (by decide), ifAccept_miss hwhile (by decide),
    bind_ok (looksTyped_miss hwhile (by decide)), if_neg (by decide), ifAccept_miss hwhile (by decide),
    ifAccept_miss hwhile (by decide), ifAccept_hit hwhile (by decide), whileRest,
    bind_ok (accept_hit hopen (by decide)), bind_ok hcondition, if_pos rfl]
  refine expect_bind hclose (by decide) fun _ _ => ?_
  show (rejectAssignment _ _ >>= _) tokens (i + 1 + 1 + ws.length + 1 : Nat) = _
  rw [bind_ok (rejectAssignment_formula c _ _)]
  refine expect_bind hbrace (by decide) fun _ _ => ?_
  rw [bind_ok hbody]
  rfl

theorem forLoop_ok (hfor : KindAt tokens i .forKw) (hread : Reads .disjunction n ws)
    (hfirst : KindAt tokens (i + 1) kind) (hkind : kind ∉ [.lparen]) (hs : Stands tokens (i + 1) ws)
    (hbrace : KindAt tokens (i + 1 + ws.length) .lbrace)
    (hbody : block statement tokens (i + 1 + ws.length + 1 : Nat) = .ok ms (j : Nat)) :
    simpleStep statement tokens i = .ok (.forLoop n ms) j := by
  have htarget := hread.expression_before hs hbrace (by decide)
  rw [simpleStep, ifAccept_miss hfor (by decide), ifAccept_miss hfor (by decide),
    bind_ok (looksTyped_miss hfor (by decide)), if_neg (by decide), ifAccept_miss hfor (by decide),
    ifAccept_miss hfor (by decide), ifAccept_miss hfor (by decide), ifAccept_hit hfor (by decide), forRest,
    bind_ok (accept_miss hfirst hkind), bind_ok htarget, if_neg (by decide)]
  refine expect_bind hbrace (by decide) fun _ _ => ?_
  rw [bind_ok hbody]
  rfl

/-! ### Bodies -/

theorem Phrase.kindAt (style : Style) (p : Phrase) (hs : Stands tokens i (p.words style)) :
    0 < (p.words style).length ∧ ∃ kind ∈ statementKinds, KindAt tokens i kind := by
  have hformula : ∀ f : Formula, Stands tokens i (f.wholeWords style) →
      0 < (f.wholeWords style).length ∧ ∃ kind ∈ statementKinds, KindAt tokens i kind := by
    intro f hf
    have hstarts := (reads_wholeWords style f).starts
    obtain ⟨kind, hkind, hk⟩ := hstarts.kindAt hf
    exact ⟨hstarts.length_pos, kind, mem_append_left _ hkind, hk⟩
  cases p with
  | pass => exact ⟨Nat.succ_pos _, .passKw, by decide, hs.kindAt⟩
  | returns => exact ⟨Nat.succ_pos _, .returnKw, by decide, hs.kindAt⟩
  | raises => exact ⟨Nat.succ_pos _, .raiseKw, by decide, hs.kindAt⟩
  | declare => exact ⟨Nat.succ_pos _, .identifier, by decide, hs.kindAt⟩
  | expression v => exact hformula v hs
  | assign place =>
    obtain ⟨hpos, hfirst⟩ := hformula place.formula (stands_append.1 hs).1
    refine ⟨?_, hfirst⟩
    rw [Phrase.words, length_append]
    omega

theorem resumes_body (style : Style) (b : Body) (hs : Stands tokens i (b.words style))
    (hbrace : KindAt tokens (i + (b.words style).length) .rbrace) : Resumes tokens i := by
  induction b generalizing i with
  | done => exact .here hbrace (by decide)
  | blank rest ih =>
    refine .line hs.kindAt (ih hs.2 ?_)
    have hend : i + (Body.words style (.blank rest)).length = i + 1 + (rest.words style).length := by
      rw [Body.words, length_cons]
      omega
    rwa [hend] at hbrace
  | last p =>
    obtain ⟨_, kind, hkind, hk⟩ := p.kindAt style hs
    exact .here hk (mem_cons_of_mem _ hkind)
  | phrase p =>
    obtain ⟨_, kind, hkind, hk⟩ := p.kindAt style (stands_append.1 hs).1
    exact .here hk (mem_cons_of_mem _ hkind)
  | conditional | alternative | whileLoop | forLoop => exact .here (hs.kindAt) (by decide)

/-- The loop over statements reads a body up to its closing brace. -/
theorem continues_body (style : Style) (b : Body) (hserves : Serves tokens statement i e)
    (hs : Stands tokens i (b.words style)) (hbrace : KindAt tokens (i + (b.words style).length) .rbrace)
    (he : i + (b.words style).length < e) :
    ∃ ns, Node.unplacedAll ns = b.nodes ∧ Continues tokens statement i (i + (b.words style).length) ns := by
  induction b generalizing statement i with
  | done => exact ⟨[], rfl, continues_done hbrace⟩
  | blank rest ih =>
    have hend : i + (Body.words style (.blank rest)).length = i + 1 + (rest.words style).length := by
      rw [Body.words, length_cons]
      omega
    rw [hend] at hbrace he ⊢
    obtain ⟨ns, hns, hrest⟩ := ih (hserves.mono (Nat.le_succ i)) hs.2 hbrace he
    exact ⟨ns, hns, hrest.blank hs.kindAt⟩
  | last p =>
    obtain ⟨hpos, kind, hkind, hfirst⟩ := p.kindAt style hs
    obtain ⟨m, _, hstatement⟩ := hserves i (Nat.le_refl i) (by omega)
    obtain ⟨n, k, hstep, hn, hp, hleaves⟩ := phrase_ok style p (simpleWithin m) hs (.brace hbrace)
    have hle := hleaves.1
    refine ⟨[n], by rw [Node.unplacedAll, hn]; rfl, ?_⟩
    exact continues_cons hfirst hkind (hstatement.trans hstep) hp (by omega)
      (continues_done hbrace k hleaves)
  | phrase p ending rest ih =>
    obtain ⟨hphrase, hrest⟩ := stands_append.1 hs
    have hend : i + (Body.words style (.phrase p ending rest)).length =
        i + (p.words style).length + 1 + (rest.words style).length := by
      simp only [Body.words, length_append, length_cons]
      omega
    rw [hend] at hbrace he ⊢
    obtain ⟨hpos, kind, hkind, hfirst⟩ := p.kindAt style hphrase
    obtain ⟨m, _, hstatement⟩ := hserves i (Nat.le_refl i) (by omega)
    obtain ⟨ns, hns, hcont⟩ := ih hserves.mono hrest.2 hbrace he
    have hclose : Closes tokens (i + (p.words style).length) (decide (ending = .semicolon)) := by
      cases ending with
      | semicolon => exact .semicolon hrest.kindAt
      | newline => exact .newline hrest.kindAt (resumes_body style rest hrest.2 hbrace)
    obtain ⟨n, k, hstep, hn, hp, hleaves⟩ := phrase_ok style p (simpleWithin m) hphrase hclose
    refine ⟨n :: ns, by rw [Node.unplacedAll, hn, hns, Body.nodes], ?_⟩
    refine continues_cons hfirst hkind (hstatement.trans hstep) hp ?_ ?_
    · cases ending with
      | semicolon =>
        have heq : k = i + (p.words style).length + 1 := hleaves
        omega
      | newline =>
        have hle := hleaves.1
        omega
    · cases ending with
      | semicolon =>
        obtain rfl := hleaves
        exact hcont _ (leaves_self tokens _)
      | newline => exact hcont.blank hrest.kindAt k hleaves
  | conditional c body rest ihBody ihRest =>
    obtain ⟨hcondition, hbraced⟩ := stands_append.1 hs.2
    obtain ⟨hopen, hbody, hclose, hrest⟩ := stands_braced hbraced
    have hend : i + (Body.words style (.conditional c body rest)).length =
        i + 1 + (c.wholeWords style).length + 1 + (body.words style).length + 1 + (rest.words style).length := by
      simp only [Body.words, Body.braced, length_append, length_cons]
      omega
    rw [hend] at hbrace he ⊢
    obtain ⟨m, hm, hstatement⟩ := hserves i (Nat.le_refl i) (by omega)
    obtain ⟨ms, hms, hinside⟩ := ihBody (serves_within hm).mono hbody hclose (by omega)
    obtain ⟨ns, hns, hcont⟩ := ihRest hserves.mono hrest hbrace he
    have hnext := resumes_body style rest hrest hbrace
    have hstep := conditional_ok c hs.kindAt (reads_wholeWords style c) hcondition hopen (hinside.block hclose)
      (.inl ⟨hnext, rfl, rfl⟩)
    refine ⟨.conditional c.node ms [] :: ns, ?_, ?_⟩
    · rw [Node.unplacedAll, Node.unplaced, hms, hns]
      rfl
    · exact hcont.cons hs.kindAt (by decide) (hstatement.trans hstep) rfl (by omega)
  | alternative c body other rest ihBody ihOther ihRest =>
    obtain ⟨hcondition, hbraced⟩ := stands_append.1 hs.2
    obtain ⟨hopen, hbody, hclose, helse⟩ := stands_braced hbraced
    obtain ⟨hopen', hother, hclose', hrest⟩ := stands_braced helse.2
    have hend : i + (Body.words style (.alternative c body other rest)).length =
        i + 1 + (c.wholeWords style).length + 1 + (body.words style).length + 1 + 1 + 1 +
          (other.words style).length + 1 + (rest.words style).length := by
      simp only [Body.words, Body.braced, length_append, length_cons]
      omega
    rw [hend] at hbrace he ⊢
    obtain ⟨m, hm, hstatement⟩ := hserves i (Nat.le_refl i) (by omega)
    have hinner : Serves tokens (simpleWithin m) (i + 1) e := serves_within hm
    obtain ⟨ms, hms, hinside⟩ := ihBody hinner.mono hbody hclose (by omega)
    obtain ⟨ms', hms', hinside'⟩ := ihOther hinner.mono hother hclose' (by omega)
    obtain ⟨ns, hns, hcont⟩ := ihRest hserves.mono hrest hbrace he
    have hstep := conditional_ok c hs.kindAt (reads_wholeWords style c) hcondition hopen (hinside.block hclose)
      (.inr ⟨helse.kindAt, hopen', hinside'.block hclose'⟩)
    refine ⟨.conditional c.node ms ms' :: ns, ?_, ?_⟩
    · rw [Node.unplacedAll, Node.unplaced, hms, hms', hns]
      rfl
    · exact hcont.cons hs.kindAt (by decide) (hstatement.trans hstep) rfl (by omega)
  | whileLoop c body rest ihBody ihRest =>
    obtain ⟨hcondition, hparen⟩ := stands_append.1 hs.2.2
    obtain ⟨hopen, hbody, hclose, hrest⟩ := stands_braced hparen.2
    have hend : i + (Body.words style (.whileLoop c body rest)).length =
        i + 1 + 1 + (c.wholeWords style).length + 1 + 1 + (body.words style).length + 1 +
          (rest.words style).length := by
      simp only [Body.words, Body.braced, length_append, length_cons]
      omega
    rw [hend] at hbrace he ⊢
    obtain ⟨m, hm, hstatement⟩ := hserves i (Nat.le_refl i) (by omega)
    obtain ⟨ms, hms, hinside⟩ := ihBody (serves_within hm).mono hbody hclose (by omega)
    obtain ⟨ns, hns, hcont⟩ := ihRest hserves.mono hrest hbrace he
    have hstep := whileLoop_ok c hs.kindAt (reads_wholeWords style c) hs.2.kindAt hcondition hparen.kindAt hopen
      (hinside.block hclose)
    refine ⟨.whileLoop c.node ms :: ns, ?_, ?_⟩
    · rw [Node.unplacedAll, Node.unplaced, hms, hns]
      rfl
    · exact hcont.cons hs.kindAt (by decide) (hstatement.trans hstep) rfl (by omega)
  | forLoop s source body rest ihBody ihRest =>
    obtain ⟨hheader, hbraced⟩ := stands_append.1 hs.2
    obtain ⟨hopen, hbody, hclose, hrest⟩ := stands_braced hbraced
    have hend : i + (Body.words style (.forLoop s source body rest)).length =
        i + 1 + ((Body.header s source).words style).length + 1 + (body.words style).length + 1 +
          (rest.words style).length := by
      simp only [Body.words, Body.braced, length_append, length_cons]
      omega
    rw [hend] at hbrace he ⊢
    obtain ⟨m, hm, hstatement⟩ := hserves i (Nat.le_refl i) (by omega)
    obtain ⟨ms, hms, hinside⟩ := ihBody (serves_within hm).mono hbody hclose (by omega)
    obtain ⟨ns, hns, hcont⟩ := ihRest hserves.mono hrest hbrace he
    have hread : Reads .disjunction (Body.header s source).node ((Body.header s source).words style) :=
      ((parsed_words style _).lower (show Level.disjunction.rank ≤ Level.membership.rank by decide)).reads
    have hname : KindAt tokens (i + 1) .identifier := by cases style <;> exact hheader.kindAt
    have hstep := forLoop_ok hs.kindAt hread hname (by decide) hheader hopen (hinside.block hclose)
    refine ⟨.forLoop (Body.header s source).node ms :: ns, ?_, ?_⟩
    · rw [Node.unplacedAll, Node.unplaced, hms, hns]
      rfl
    · exact hcont.cons hs.kindAt (by decide) (hstatement.trans hstep) rfl (by omega)

end

/-- Blocks are read back: a body in front of a closing brace is read as its statements, up to the places of
assignments, and the cursor is left behind the brace. -/
theorem block_body (style : Style) (b : Body) (before printed after : List Token) (brace : Token)
    (hprinted : printed.map Token.word? = (b.words style).map some) (hbrace : brace.kind = .rbrace) :
    ∃ ns, block simpleStatement (before ++ (printed ++ brace :: after)).toArray before.length =
        .ok ns (before.length + printed.length + 1 : Nat) ∧ Node.unplacedAll ns = b.nodes := by
  have hlen : printed.length = (b.words style).length := length_of_map_word? hprinted
  have hstands := stands_of_map_word? hprinted before (brace :: after)
  have hkind := kindAt_append (before ++ printed) after brace
  rw [List.append_assoc, List.length_append, hbrace, hlen] at hkind
  have hserves := (serves_simpleStatement (before ++ (printed ++ brace :: after)).toArray).mono
      (Nat.zero_le before.length)
  obtain ⟨ns, hns, hcont⟩ := continues_body style b hserves hstands hkind hkind.lt_size
  refine ⟨ns, ?_, hns⟩
  rw [hlen]
  exact hcont.block hkind

/-- `x: int = 1;`, then `if not x` with two blocks, `for y in ys`, and `x` in front of the closing brace: phrases that
end in a semicolon, in an end of line and in nothing, with two empty lines. -/
theorem block_body_mixed :
    let token (w : Word) : Token := ⟨w.kind, some w.text, 1, 0, none⟩
    let written : List Word :=
      [⟨.identifier, "x"⟩, ⟨.colon, ":"⟩, ⟨.identifier, "int"⟩, ⟨.assign, "="⟩, ⟨.number, "1"⟩, ⟨.semicolon, ";"⟩,
        newlineWord, ⟨.ifKw, "if"⟩, ⟨.notKw, "not"⟩, ⟨.identifier, "x"⟩, ⟨.lbrace, "\x7b"⟩, newlineWord,
        ⟨.identifier, "x"⟩, ⟨.plusAssign, "+="⟩, ⟨.identifier, "f"⟩, ⟨.lparen, "("⟩, ⟨.identifier, "x"⟩, ⟨.rparen, ")"⟩,
        newlineWord, ⟨.returnKw, "return"⟩, ⟨.rbrace, "\x7d"⟩, ⟨.elseKw, "else"⟩, ⟨.lbrace, "\x7b"⟩,
        ⟨.whileKw, "while"⟩, ⟨.lparen, "("⟩, ⟨.identifier, "x"⟩, ⟨.rparen, ")"⟩, ⟨.lbrace, "\x7b"⟩, ⟨.passKw, "pass"⟩,
        ⟨.rbrace, "\x7d"⟩, ⟨.rbrace, "\x7d"⟩, ⟨.forKw, "for"⟩, ⟨.identifier, "y"⟩, ⟨.inKw, "in"⟩, ⟨.identifier, "ys"⟩,
        ⟨.lbrace, "\x7b"⟩, ⟨.raiseKw, "raise"⟩, ⟨.identifier, "y"⟩, ⟨.semicolon, ";"⟩, ⟨.rbrace, "\x7d"⟩,
        ⟨.identifier, "x"⟩]
    ∃ ns, block simpleStatement ([] ++ (written.map token ++ [token ⟨.rbrace, "\x7d"⟩])).toArray 0 = .ok ns 42 ∧
      Node.unplacedAll ns =
        [.expression (.assignment (.identifier "x") (.literal (.text "1") .number) (some "=") (some "int") {}) true,
          .conditional (.unary "not" (.identifier "x"))
            [.expression (.assignment (.identifier "x") (.call (.identifier "f") [.identifier "x"]) (some "+=") none {})
              false, .returns .missing false]
            [.whileLoop (.identifier "x") [.pass false]],
          .forLoop (.binary "in" (.identifier "y") (.identifier "ys")) [.raises (.identifier "y") true],
          .expression (.identifier "x") false] :=
  block_body .sparing
    (.phrase (.declare "x" ⟨"int", rfl, List.all_eq_true.1 rfl⟩ (some (.number "1"))) .semicolon
      (.blank (.alternative (.sign .negation (.name "x"))
        (.blank (.phrase (.assign (.name "x") .plus (.call (.name "f") [(none, .name "x")])) .newline
          (.last (.returns none))))
        (.whileLoop (.name "x") (.last .pass) .done)
        (.forLoop "y" (.name "ys") (.phrase (.raises (some (.name "y"))) .semicolon .done)
          (.last (.expression (.name "x"))))))) [] _ [] _ rfl rfl

end BraceLang
