import BraceLang.Proofs.Appending
import BraceLang.Proofs.Budget
import BraceLang.Proofs.EmissionRoundTrip
import BraceLang.Proofs.ExpressionText
import BraceLang.Proofs.Phrases
import BraceLang.SourceUnit

/-!
# Assignments from text to text

A name, a mark that assigns and an expression are followed through all stages.
-/

namespace BraceLang

open List Parse

variable {x op : String} {kind : TokenKind} {tokens : Array Token} {value : Node} {sign : Word} {fit : List Char → Prop}

def assignmentMarks : List (TokenKind × String) := (.assign, "=") :: compoundMarks

/-- The spellings that are no token, each with the sign that it starts with.  A plain mark is left. -/
def brokenMarks : List (String × Word) :=
  [("%=", ⟨.percent, "%"⟩), ("**=", ⟨.doubleStar, "**"⟩), ("//=", ⟨.doubleSlash, "//"⟩)]

/-! ### Tokens -/

section

variable {ws : List Word}

theorem scans_nameThen (hx : IsName x) (h : Scans fit cs ws) :
    Scans fit (x.toList ++ (' ' :: cs)) (⟨.identifier, x⟩ :: ws) := by
  have hname := scans_word hx.1
  rw [hx.2] at hname
  have hblank : Scans (fun _ => True) [' '] [] := scans_blank rfl
  refine hname.append (hblank.append h fun _ _ => trivial) fun rest _ d hd => ?_
  obtain rfl := Option.some.inj hd
  decide

theorem scans_mark (hop : (kind, op) ∈ assignmentMarks) (hwhole : op ∉ brokenMarks.map Prod.fst) :
    Scans (fun _ => True) (op.toList ++ [' ']) [⟨kind, op⟩] := by
  suffices hmark : Scans BeforeBlank op.toList [⟨kind, op⟩] from hmark.append (scans_blank rfl) fun _ _ => rfl
  simp only [assignmentMarks, compoundMarks, mem_cons, Prod.mk.injEq, not_mem_nil, or_false] at hop
  rcases hop with ⟨rfl, rfl⟩ | ⟨rfl, rfl⟩ | ⟨rfl, rfl⟩ | ⟨rfl, rfl⟩ | ⟨rfl, rfl⟩ | ⟨rfl, rfl⟩ | ⟨rfl, rfl⟩ | ⟨rfl, rfl⟩
  -- the last three are broken
  all_goals first
    | exact absurd (by decide) hwhole
    | exact scans_beforeBlank rfl fun _ => rfl

theorem scans_sign (c : Char) (cs : List Char) (hc : isBlank c = false)
    (h : ∀ r, firstLexeme? (c :: (cs ++ r)) = some (kind, c :: cs, r)) :
    Scans (fun _ => True) (c :: cs) [⟨kind, String.ofList (c :: cs)⟩] :=
  scans_lexeme hc fun r _ => h r

theorem scans_brokenMark (hop : (op, sign) ∈ brokenMarks) :
    Scans (fun _ => True) (op.toList ++ [' ']) [sign, ⟨.assign, "="⟩] := by
  have hassign := scans_mark (show (.assign, "=") ∈ assignmentMarks by decide) (by decide)
  simp only [brokenMarks, mem_cons, Prod.mk.injEq, not_mem_nil, or_false] at hop
  rcases hop with ⟨rfl, rfl⟩ | ⟨rfl, rfl⟩ | ⟨rfl, rfl⟩
  · exact (scans_sign '%' [] rfl fun _ => rfl).append hassign fun _ _ => trivial
  · exact (scans_sign '*' ['*'] rfl fun _ => rfl).append hassign fun _ _ => trivial
  · exact (scans_sign '/' ['/'] rfl fun _ => rfl).append hassign fun _ _ => trivial

end

/-! ### Trees -/

section

variable {i j : Nat}

theorem reads_nameWord (x : String) : Reads .disjunction (.identifier x) [⟨.identifier, x⟩] :=
  reads_wholeWords .full (.name x)

theorem assignment_ok (hop : (kind, op) ∈ assignmentMarks) (hs : Stands tokens i [⟨.identifier, x⟩, ⟨kind, op⟩])
    (hvalue : expression? tokens (i + 2 : Nat) = .ok value j) (hp : value.isPresent) :
    ∃ position, expression tokens i = .ok (.assignment (.identifier x) value (some op) none position) j := by
  have hname : Stands tokens i [⟨.identifier, x⟩] := ⟨hs.1, trivial⟩
  have hmark : KindAt tokens (i + 1) kind := hs.2.kindAt
  obtain ⟨⟨t, ht, htkind, httext⟩, _⟩ := id hs.2
  have hkinds := (by decide : ∀ p ∈ assignmentMarks, p.1 ≠ .eof ∧ p.1 ∉ Level.disjunction.marks) _ hop
  have hlt := hmark.lt_size
  refine ⟨⟨t.line, t.column⟩, ?_⟩
  have hread : disjunction (expressionWithin ((tokens.size - i : Int).toNat + 1)) tokens i =
      .ok (.identifier x) (i + 1 : Nat) :=
    (reads_nameWord x).reads (by simp) hname (stops_of_kindAt hmark hkinds.2)
  -- the value is read with a larger budget than it needs
  have hright : expressionWithin ((tokens.size - i : Int).toNat + 1) tokens (i + 1 + 1 : Nat) = .ok value j :=
    expressionWithin_mono (by omega) (show expressionWithin ((tokens.size - (i + 2 : Nat) : Int).toNat + 2) tokens _ = _
      from hvalue)
  have hstep := advance_ok ht (by rw [htkind]; exact hkinds.1)
  refine expression_of_expression? (by omega) ?_ rfl
  show expressionWithin ((tokens.size - i : Int).toNat + 1 + 1) tokens i = _
  rw [expressionWithin, assigning, bind_ok hread, if_neg (by simp [Node.isPresent])]
  rcases mem_cons.1 hop with hplain | hcompound
  · obtain ⟨rfl, rfl⟩ := Prod.mk.inj hplain
    rw [ifCheck_hit hmark (by decide), bind_ok hstep, bind_ok (operand_ok hright hp), httext]
    rfl
  · have hmarks := (by decide : ∀ p ∈ compoundMarks, p.1 ∉ [.assign] ∧ p.1 ∈ compoundMarks.map Prod.fst ∧
      (compoundMarks.lookup p.1).getD "" = p.2) _ hcompound
    rw [ifCheck_miss hmark hmarks.1, ifCheck_hit hmark ⟨hkinds.1, hmarks.2.1⟩, bind_ok hstep,
      bind_ok (operand_ok hright hp), htkind, hmarks.2.2]
    rfl

theorem simpleStatement_name (hname : Stands tokens i [⟨.identifier, x⟩]) (hnext : KindAt tokens (i + 1) kind)
    (hkind : kind ∉ [.colon, .newline, .comment]) : simpleStatement tokens i = expressionOrTyped tokens i :=
  simpleStep_of_startKinds _ hname.kindAt (show TokenKind.identifier ∈ _ by decide) <|
    (reads_nameWord x).looksTyped hname (noColon_of_kindAt hnext hkind)

theorem assignmentStatement_ok (hop : (kind, op) ∈ assignmentMarks)
    (hs : Stands tokens i [⟨.identifier, x⟩, ⟨kind, op⟩]) (hvalue : expression? tokens (i + 2 : Nat) = .ok value j)
    (hp : value.isPresent) (hend : KindAt tokens j .semicolon) :
    ∃ position, simpleStatement tokens i =
      .ok (.expression (.assignment (.identifier x) value (some op) none position) true) (j + 1 : Nat) := by
  obtain ⟨position, hread⟩ := assignment_ok hop hs hvalue hp
  have hkind := (by decide : ∀ p ∈ assignmentMarks, p.1 ∉ [.colon, .newline, .comment]) _ hop
  refine ⟨position, ?_⟩
  rw [simpleStatement_name ⟨hs.1, trivial⟩ hs.2.kindAt hkind, expressionOrTyped, bind_ok hread,
    ifAccept_miss hend (by decide), bind_ok (accept_hit hend (by decide))]
  rfl

end

/-! ### Marks that fall apart -/

section

variable {i j : Nat} {expr : Parse Node} {e : ParseError}

theorem operand_missing {i j : Int} (h : rule tokens i = .ok .missing j) :
    operand rule complaint tokens i = .fail (.rejected ⟨complaint, tokens, j, 5⟩) j := by
  rw [operand, bind_ok h]
  rfl

theorem power_assign (h : KindAt tokens i .assign) (n : Nat) :
    power expr (n + 1) tokens i = .ok .missing i := by
  have hprimary : primary expr false tokens i = .ok .missing i := by
    rw [primary, bind_ok (endsCondition_false tokens i), if_neg (by decide)]
    repeat rw [ifAccept_miss h (by decide)]
    rfl
  have hunary : unary expr ((tokens.size - i : Int).toNat + 1 + 1) tokens i = .ok .missing i := by
    rw [unary, ifAccept_miss h (by decide), ifAccept_miss h (by decide), postfixed, bind_ok hprimary]
    rfl
  rw [power, bind_ok (budget_ok tokens i), bind_ok hunary, ifAccept_miss h (by decide)]
  rfl

theorem disjunction_fail (h : product expr tokens i = .fail e j) : disjunction expr tokens i = .fail e j := by
  have hup {L : Level} (hL : L.isChain) (hnext : L.next.rule expr tokens i = .fail e j) :
      L.rule expr tokens i = .fail e j := by
    rw [rule_of_chain hL]
    exact bind_fail hnext
  have hsum := hup (L := .sum) rfl h
  have hcomparison := hup (L := .comparison) rfl hsum
  have hequality := hup (L := .equality) rfl hcomparison
  have hmembership := hup (L := .membership) rfl hequality
  have hconjunction := hup (L := .conjunction) rfl hmembership
  exact hup (L := .disjunction) rfl hconjunction

theorem product_brokenMark (hop : (op, sign) ∈ brokenMarks) (hm : 1 ≤ m)
    (hs : Stands tokens i [⟨.identifier, x⟩, sign, ⟨.assign, "="⟩]) :
    product (expressionWithin m) tokens i =
      .fail (.rejected ⟨noOperandAfter sign.text, tokens, (i + 2 : Nat), 5⟩) (i + 2 : Nat) := by
  have hname : Stands tokens i [⟨.identifier, x⟩] := ⟨hs.1, trivial⟩
  have hsign : KindAt tokens (i + 1) sign.kind := hs.2.kindAt
  have hassign : KindAt tokens (i + 1 + 1) .assign := hs.2.2.kindAt
  obtain ⟨⟨t, ht, _, httext⟩, _⟩ := id hs.2
  have htext : t.text = sign.text := by rw [Token.text, httext, Option.getD_some]
  have hparsed := (reads_name x).parsed
  show Level.product.rule (expressionWithin m) tokens i = _
  rw [rule_of_chain rfl]
  rcases (by decide : ∀ p ∈ brokenMarks, p.2 = ⟨.doubleStar, "**"⟩ ∨ p.2.kind ∈ [.percent, .doubleSlash]) _ hop
    with rfl | hproduct
  · -- the rule for powers asks for its right operand
    refine bind_fail ?_
    have hbase : unary (expressionWithin m) ((tokens.size - i : Int).toNat + 2) tokens i =
        .ok (.identifier x) (i + 1 : Nat) :=
      (hparsed.lower (M := .sign) (by decide)).reads.reads hm hname (stops_of_kindAt hsign (by decide))
    show power (expressionWithin m) ((tokens.size - i : Int).toNat + 1 + 1) tokens i = _
    rw [power, bind_ok (budget_ok tokens i), bind_ok hbase, ifAccept_hit hsign (by decide), bind_ok (previous_ok ht)]
    exact bind_fail (operand_missing (power_assign hassign _))
  · -- the loop over products does
    have hkinds := (by decide : ∀ k ∈ [.percent, .doubleSlash], k ∉ Level.power.marks ∧ k ≠ .eof ∧
      k ∈ [.star, .slash, .percent, .doubleSlash]) _ hproduct
    have hleft : Level.product.next.rule (expressionWithin m) tokens i = .ok (.identifier x) (i + 1 : Nat) :=
      (hparsed.lower (by decide)).reads.reads hm hname (stops_of_kindAt hsign hkinds.1)
    rw [bind_ok hleft]
    show repeatWithin _ ((tokens.size - (i + 1 : Nat) : Int).toNat + 1 + 1) _ tokens (i + 1 : Nat) = _
    refine bind_fail ?_
    rw [Level.step, operatorStep, ifAccept_hit hsign hkinds.2, bind_ok (previous_ok ht), htext]
    exact bind_fail (operand_missing (power_assign hassign _))

theorem brokenMark_rejected (hop : (op, sign) ∈ brokenMarks)
    (hs : Stands tokens i [⟨.identifier, x⟩, sign, ⟨.assign, "="⟩]) :
    simpleStatement tokens i =
      .fail (.rejected ⟨noOperandAfter sign.text, tokens, (i + 2 : Nat), 5⟩) (i + 2 : Nat) := by
  have hkind := (by decide : ∀ p ∈ brokenMarks, p.2.kind ∉ [.colon, .newline, .comment]) _ hop
  have hfail := disjunction_fail (product_brokenMark hop (Nat.le_add_left 1 (tokens.size - i : Int).toNat) hs)
  obtain ⟨⟨t, ht, _⟩, _⟩ := id hs
  rw [simpleStatement_name ⟨hs.1, trivial⟩ hs.2.kindAt hkind, expressionOrTyped]
  refine bind_fail ?_
  rw [expression, bind_ok (peek_ok ht)]
  refine bind_fail (show expressionWithin ((tokens.size - i : Int).toNat + 1 + 1) tokens i = _ from ?_)
  exact bind_fail hfail

end

/-! ### The line -/

/-- The line of an assignment to a name.  A value that reveals its type gives the name an annotation, whatever the
mark; any other value keeps the mark, and the name is replaced if it is a final. -/
def assignmentText (s : Context) (x op : String) (value : Node) : String :=
  let type := (value.revealedType s.classNames).getD ""
  if type.isEmpty then
    (s.finals.findSome? (·.lookup x)).getD x ++ " " ++ op ++ " " ++ (value.render .python s).1
  else x ++ ": " ++ type ++ " = " ++ (value.render .python s).1

theorem Render.run_line {r : Render String} (f : String → String)
    (h : r s = (t, s)) : ((do Render.line (f (← r)) ++ pure "\n" : Render String) s).1 =
      String.ofList (replicate (4 * s.depth) ' ') ++ f t ++ "\n" := by
  show (Render.line (f (r s).1) (r s).2).1 ++ "\n" = _
  rw [h]
  rfl

theorem render_assignment (hvalue : Render.Steady (value.render .python)) (hop : op.isEmpty = false) (s : Context) :
    ((Node.expression (.assignment (.identifier x) value (some op) none position) semicolon).render .python s).1 =
      String.ofList (replicate (4 * s.depth) ' ') ++ assignmentText s x op value ++ "\n" := by
  have hassignment : (Node.assignment (.identifier x) value (some op) none position).render .python s =
      ((s.finals.findSome? (·.lookup x)).getD x ++ " " ++ op ++ " " ++ (value.render .python s).1, s) := by
    show ((s.finals.findSome? (·.lookup x)).getD x ++ " " ++ (if isGiven (some op) then op else "=") ++ " " ++
      (value.render .python s).1, (value.render .python s).2) = _
    rw [hvalue s, if_pos (by simp [isGiven, hop])]
  show ((if ((value.revealedType s.classNames).getD "").isEmpty then
      (do Render.line (← (Node.assignment (.identifier x) value (some op) none position).render .python) ++ pure "\n")
    else (do Render.line (x ++ ": " ++ (value.revealedType s.classNames).getD "" ++ " = " ++
      (← value.render .python)) ++ pure "\n") : Render String) s).1 = _
  unfold assignmentText
  dsimp only
  split
  · exact Render.run_line id hassignment
  · exact Render.run_line (fun t => x ++ ": " ++ (value.revealedType s.classNames).getD "" ++ " = " ++ t)
      (Prod.ext rfl (hvalue s))

/-- An assignment to a name from text to text.  With the marks of the lexer, the text of a name and the mark has two
tokens, and with the others three, which no statement starts with.  A name and the token of any mark, in front of an
expression and a semicolon, are read as an assignment with that mark; and it is written as one line, which keeps the
mark if the value reveals no type. -/
theorem assignment_compiled {x op : String} {kind : TokenKind} (hx : IsName x) (hop : (kind, op) ∈ assignmentMarks) :
    (op ∉ brokenMarks.map Prod.fst →
      Scans (fun _ => True) (x ++ " " ++ op ++ " ").toList [⟨.identifier, x⟩, ⟨kind, op⟩]) ∧
    (∀ sign, (op, sign) ∈ brokenMarks →
      Scans (fun _ => True) (x ++ " " ++ op ++ " ").toList [⟨.identifier, x⟩, sign, ⟨.assign, "="⟩] ∧
      ∀ (tokens : Array Token) (i : Nat), Stands tokens i [⟨.identifier, x⟩, sign, ⟨.assign, "="⟩] →
        simpleStatement tokens i =
          .fail (.rejected ⟨noOperandAfter sign.text, tokens, (i + 2 : Nat), 5⟩) (i + 2 : Nat)) ∧
    ∀ (tokens : Array Token) (i j : Nat) (value : Node), Stands tokens i [⟨.identifier, x⟩, ⟨kind, op⟩] →
      expression? tokens (i + 2 : Nat) = .ok value j → value.isPresent → value.SliceFree →
      KindAt tokens j .semicolon →
      ∃ n : Node, simpleStatement tokens i = .ok n (j + 1 : Nat) ∧
        (∃ position, n = .expression (.assignment (.identifier x) value (some op) none position) true) ∧
        ∀ e : Emitter, ∃ pieces : List String,
          (n.emit .python e).2.output.toList = e.output.toList ++ pieces ∧
          String.join pieces = e.indented (assignmentText e.context x op value) ++ "\n" := by
  have htext : (x ++ " " ++ op ++ " ").toList = x.toList ++ (' ' :: (op.toList ++ [' '])) := by
    simp [String.toList_append]
  rw [htext]
  refine ⟨fun hwhole => scans_nameThen hx (scans_mark hop hwhole), fun sign hsign => ⟨?_, ?_⟩, ?_⟩
  · exact scans_nameThen hx (scans_brokenMark hsign)
  · exact fun tokens i hs => brokenMark_rejected hsign hs
  · intro tokens i j value hs hvalue hp hfree hend
    obtain ⟨position, hread⟩ := assignmentStatement_ok hop hs hvalue hp hend
    refine ⟨_, hread, ⟨position, rfl⟩, fun e => ?_⟩
    obtain ⟨_, -, hread⟩ := Runs.value (S := .bare tokens) runs_expression? rfl hvalue
    have hfits : Fits (fun _ _ => True) .operand value := (hread.fits fun _ _ => trivial).1
    obtain ⟨pieces, _, hjoin, hrun⟩ := renders_node _
      (show (Node.expression (.assignment (.identifier x) value (some op) none position) true).Legible from
        ⟨fun _ => rfl, trivial, (hfits.legible hfree).1⟩) e.context e.output
    have hmark : op.isEmpty = false := (by decide : ∀ p ∈ assignmentMarks, p.2.isEmpty = false) _ hop
    rw [render_assignment (hfits.steady rfl .python) hmark] at hjoin
    refine ⟨pieces, ?_, hjoin.symm⟩
    rw [show Node.emit .python _ e = _ from hrun]
    exact Array.toList_append

/-- `total -= step[0];` -/
theorem assignment_compiled_minus :
    let token (kind : TokenKind) (text : String) : Token := ⟨kind, some text, 1, 0, none⟩
    let tokens : Array Token := #[token .identifier "total", token .minusAssign "-=", token .identifier "step",
      token .lbracket "[", token .number "0", token .rbracket "]", token .semicolon ";"]
    let value : Node := .subscript (.identifier "step") (.literal (.text "0") .number)
    let e : Emitter := { output := #["def f(step):\n"], depth := 1 }
    IsName "total" ∧ (.minusAssign, "-=") ∈ assignmentMarks ∧ value.SliceFree ∧
    ∃ n : Node, simpleStatement tokens 0 = .ok n 7 ∧ ∃ pieces : List String,
      (n.emit .python e).2.output.toList = e.output.toList ++ pieces ∧
      String.join pieces = "    total -= step[0]\n" := by
  intro token tokens value e
  have hx : IsName "total" := ⟨⟨rfl, List.all_eq_true.1 rfl⟩, rfl⟩
  have hop : (.minusAssign, "-=") ∈ assignmentMarks := by decide
  have hs : Stands tokens 0 [⟨.identifier, "total"⟩, ⟨.minusAssign, "-="⟩] :=
    ⟨⟨_, rfl, rfl, rfl⟩, ⟨_, rfl, rfl, rfl⟩, trivial⟩
  have hvalue : expression? tokens (0 + 2 : Nat) = .ok value (6 : Nat) := rfl
  have hfree : value.SliceFree := by decide +kernel
  have hend : KindAt tokens 6 .semicolon := ⟨_, rfl, rfl⟩
  obtain ⟨n, hread, _, hline⟩ := (assignment_compiled hx hop).2.2 tokens 0 6 value hs hvalue rfl hfree hend
  obtain ⟨pieces, hout, hjoin⟩ := hline e
  have htext : e.indented (assignmentText e.context "total" "-=" value) ++ "\n" = "    total -= step[0]\n" := by
    decide +kernel
  exact ⟨hx, hop, hfree, n, hread, pieces, hout, hjoin.trans htext⟩

/-- Behind a value that reveals its type the mark is lost: what should add to `x` replaces it. -/
theorem compile_compound_mark_lost :
    (SourceUnit.compile [] .python "def f(x) \x7b\n    x += 1;\n\x7d\n").toOption =
      some (String.join (Target.python.header ++ ["from __future__ import annotations\n", "def f(x):\n",
        "    \"\"\"f function.\"\"\"\n", "    x: int = 1\n"])) := by
  decide +kernel

/-! ### The annotation -/

/-- The type that an assignment to a name is written with: the one that the value reveals, and otherwise the declared
one. -/
def writtenType (classes : List String) (value : Node) (declared : Option String) : Option String :=
  if ((value.revealedType classes).getD "").isEmpty then declared else value.revealedType classes

theorem render_annotated (hvalue : Render.Steady (value.render .python)) (hpresent : value.isPresent)
    (hx : s.finals.findSome? (·.lookup x) = none) :
    ((Node.expression (.assignment (.identifier x) value operator declared position) semicolon).render .python s).1 =
      String.ofList (replicate (4 * s.depth) ' ') ++ (x ++ (writtenType s.classNames value declared).elim
        (" " ++ (if isGiven operator then operator.getD "" else "=") ++ " ") (fun type => ": " ++ type ++ " = ") ++
        (value.render .python s).1) ++ "\n" := by
  have hname : (s.finals.findSome? (·.lookup x)).getD x = x := by
    rw [hx, Option.getD_none]
  have hread : value.render .python s = ((value.render .python s).1, s) := Prod.ext rfl (hvalue s)
  show ((if ((value.revealedType s.classNames).getD "").isEmpty then
      (do Render.line (← (Node.assignment (.identifier x) value operator declared position).render .python) ++
        pure "\n")
    else (do Render.line (x ++ ": " ++ (value.revealedType s.classNames).getD "" ++ " = " ++
      (← value.render .python)) ++ pure "\n") : Render String) s).1 = _
  unfold writtenType
  split
  · refine Render.run_line id ?_
    cases declared with
    | none =>
      show ((s.finals.findSome? (·.lookup x)).getD x ++ " " ++ _ ++ " " ++ (value.render .python s).1,
        (value.render .python s).2) = _
      rw [hname, hvalue s]
      simp only [Option.elim_none, String.append_assoc]
    | some type =>
      show (if value.isPresent then
          (do return (s.finals.findSome? (·.lookup x)).getD x ++ ": " ++ type ++ " = " ++ (← value.render .python))
        else _ : Render String) s = _
      rw [if_pos hpresent, hname]
      show (x ++ ": " ++ type ++ " = " ++ (value.render .python s).1, (value.render .python s).2) = _
      rw [hvalue s]
      simp only [Option.elim_some, String.append_assoc]
  · next h =>
    cases htype : value.revealedType s.classNames with
    | none => simp [htype] at h
    | some type =>
      rw [Render.run_line (fun t => x ++ ": " ++ (some type).getD "" ++ " = " ++ t) hread]
      simp only [Option.elim_some, Option.getD_some, String.append_assoc]

/-- The writer takes every number for an integer. -/
theorem literalTypeOf_eq_iff {kind : LiteralKind} (h : Node.literalType kind = some type)
    (text : String) : Node.literalTypeOf kind text = some type ↔ Node.literalTypeOf kind text ≠ some "float" := by
  cases kind <;> cases h
  case number =>
    rw [Node.literalTypeOf, Node.numberType]
    split <;> decide
  all_goals exact iff_of_true rfl (by simp [Node.literalTypeOf])

theorem assignedType?_eq_writtenType_iff (t : SymbolTable) (h : writtenType classes value none = some type) :
    value.assignedType? t = some type ↔ value.shownType? ≠ some "float" ∧
      ∀ name args, value = .call (.identifier name) args → t.isClass name := by
  have hreveals : value.revealedType classes = some type := by
    unfold writtenType at h
    split at h
    · cases h
    · exact h
  cases value with
  | literal | collection => simpa [Node.assignedType?, Node.shownType?] using literalTypeOf_eq_iff hreveals _
  | call callee =>
    cases callee with
    | identifier name =>
      obtain ⟨-, rfl⟩ : name ∈ classes ∧ name = type := by simpa [Node.revealedType] using hreveals
      by_cases hclass : t.isClass name <;> simp [Node.assignedType?, Node.shownType?, hclass]
    | _ => cases hreveals
  | _ => cases hreveals

/-- An assignment to a name that is no final is written with one annotation at most.  It is the declared one only if the
value reveals no other type; and without a declaration it is the one in the symbol table, unless the value is a number
with a fraction or an exponent, or calls a class that is not in the table. -/
theorem annotation_written {W : TokenKind → String → Prop} (x : String) (operator declared : Option String)
    (position : Position) (semicolon : Bool) (hvalue : Fits W .expression value) (hfree : value.SliceFree)
    (e : Emitter) (hx : e.finalValue? x = none) :
    (∃ pieces : List String,
      (Node.emit .python (.expression (.assignment (.identifier x) value operator declared position) semicolon)
        e).2.output.toList = e.output.toList ++ pieces ∧
      String.join pieces = e.indented (x ++ (writtenType e.classNames value declared).elim
        (" " ++ (if isGiven operator then operator.getD "" else "=") ++ " ") (fun type => ": " ++ type ++ " = ") ++
        (value.render .python e.context).1) ++ "\n") ∧
    (∀ type, declared = some type →
      (writtenType e.classNames value declared = some type ↔ (value.revealedType e.classNames).getD "" ∈ ["", type])) ∧
    ∀ type (t : SymbolTable), declared = none → writtenType e.classNames value declared = some type →
      (value.assignedType? t = some type ↔ value.shownType? ≠ some "float" ∧
        ∀ name args, value = .call (.identifier name) args → t.isClass name) := by
  refine ⟨?_, ?_, ?_⟩
  · obtain ⟨pieces, _, hjoin, hrun⟩ := renders_node _
      (show (Node.expression (.assignment (.identifier x) value operator declared position) semicolon).Legible from
        ⟨fun _ => rfl, trivial, (hvalue.legible hfree).1⟩) e.context e.output
    rw [render_annotated (hvalue.steady rfl .python) hvalue.isPresent (s := e.context) hx] at hjoin
    refine ⟨pieces, ?_, hjoin.symm⟩
    rw [show Node.emit .python _ e = _ from hrun]
    exact Array.toList_append
  · rintro type rfl
    unfold writtenType
    split
    · next h => simp [String.isEmpty_iff.1 h]
    · next h =>
      cases htype : value.revealedType e.classNames with
      | none => simp [htype] at h
      | some found =>
        rw [htype] at h
        simpa using fun hempty : found = "" => absurd hempty (by simpa using h)
  · rintro type t rfl h
    exact assignedType?_eq_writtenType_iff t h

/-- `x: float = 1` and `x = 1.5` -/
theorem annotation_written_number :
    let number (text : String) : Node := .literal (.text text) .number
    writtenType [] (number "1") (some "float") ≠ some "float" ∧
    writtenType [] (number "1.5") none = some "int" ∧ (number "1.5").assignedType? {} ≠ some "int" := by
  intro number
  have hwhole : Fits (fun _ _ => True) .expression (number "1") ∧ (number "1").SliceFree :=
    ⟨.literal (k := .number) (by decide) (.inr ⟨_, rfl, trivial⟩), by decide +kernel⟩
  have hfraction : Fits (fun _ _ => True) .expression (number "1.5") ∧ (number "1.5").SliceFree :=
    ⟨.literal (k := .number) (by decide) (.inr ⟨_, rfl, trivial⟩), by decide +kernel⟩
  have hdeclared := (annotation_written "x" (some "=") (some "float") {} true hwhole.1 hwhole.2 {} rfl).2.1
  have hinferred := (annotation_written "x" (some "=") none {} true hfraction.1 hfraction.2 {} rfl).2.2
  refine ⟨fun h => absurd ((hdeclared _ rfl).1 h) (by decide), by decide, fun h => ?_⟩
  exact ((hinferred _ {} rfl (by decide)).1 h).1 (by decide)

end BraceLang
