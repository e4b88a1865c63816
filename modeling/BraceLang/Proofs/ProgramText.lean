import BraceLang.Emission.Program
import BraceLang.Proofs.OutlinedBlocks
import BraceLang.Proofs.StatementText

/-!
# The blocks of a written program

A program is written as a header, its imports, and its statements with an empty line between them.
-/

namespace BraceLang

open List Node Render LineMark Emit

/-! ### The text of a program -/

/-- The text in front of the statements: the header, the imports and, above statements, an empty line if it is asked
for. -/
def programFront (imports : List String) (body : List Node) : String :=
  String.join (Target.header .python ++ (Needs.of body).importLines .python imports ++
    if (Needs.of body).spaced .python imports && !body.isEmpty then ["\n"] else [])

def programContext (body : List Node) : Context := { classNames := body.filterMap Node.declaredClass? }

def programText : List Node → String
  | [] => ""
  | n :: ns => ((n.render .python ++ renderFollowing .python "\n" ns) (programContext (n :: ns))).1

theorem statementLines_cons (target : Target) (n : Node) (ns : List Node) :
    statementLines target (n :: ns) =
      ((n.emit target >>= fun _ => emitFollowing target "\n" ns) >>= fun _ => newLine) := by
  induction ns generalizing n with
  | nil => rfl
  | cons m ms ih =>
    calc statementLines target (n :: m :: ms) =
        ((n.emit target >>= fun _ => newLine) >>= fun _ => statementLines target (m :: ms)) := rfl
      _ = _ := by
        rw [ih]
        rfl

theorem join_output (h : Renders b m r) (s : Context) (o : List String) :
    String.join ((m >>= fun _ => newLine >>= fun _ => dropBlankEnd) (s.writer o.toArray)).2.output.toList =
      String.join o ++ (r s).1 := by
  have hdrop (s : Context) (o : Array String) : ((newLine >>= fun _ => dropBlankEnd) (s.writer o)).2.output = o := by
    show (if (o.push "\n").back?.any isBlankText then _ else _ : Emitter).output = o
    rw [Array.back?_push, if_pos (by decide)]
    exact Array.pop_push
  obtain ⟨pieces, _, hjoin, hrun⟩ := h s o.toArray
  show String.join ((newLine >>= fun _ => dropBlankEnd) (m (s.writer o.toArray)).2).2.output.toList = _
  rw [hrun, hdrop, Array.toList_append, String.join_append, hjoin]

theorem run_append (r r' : Render String) (s : Context) :
    (r ++ r') s = ((r s).1 ++ (r' (r s).2).1, (r' (r s).2).2) := rfl

theorem each_pure (ts : List String) (s : Context) : each pure ts s = (String.join ts, s) := by
  induction ts with
  | nil => rfl
  | cons t ts ih =>
    show (t ++ (each pure ts s).1, (each pure ts s).2) = _
    rw [ih, String.join_cons]

theorem toSource_module (target : Target) (imports : List String) (body : List Node) :
    (Node.module body).toSource target imports = String.join
      (((((Needs.of body).importLines target imports).forM write >>= fun _ =>
        (if (Needs.of body).spaced target imports then newLine else pure ()) >>= fun _ =>
        statementLines target body >>= fun _ => dropBlankEnd)
        ((programContext body).writer target.header.toArray)).2.output.toList) := by
  show ((Emit.program target imports body).run {}).run.1 = _
  unfold Emit.program
  dsimp only
  cases (Needs.of body).spaced target imports <;> rfl

theorem toSource_module_cons (target : Target) (h : AllLegible (n :: ns)) (imports : List String) :
    (Node.module (n :: ns)).toSource target imports =
      String.join (target.header ++ (Needs.of (n :: ns)).importLines target imports ++
        if (Needs.of (n :: ns)).spaced target imports then ["\n"] else []) ++
      ((n.render target ++ renderFollowing target "\n" ns) (programContext (n :: ns))).1 := by
  have himports := renders_each (fun t => renders_write (t := t)) ((Needs.of (n :: ns)).importLines target imports)
  have hbody := (@renders_node target n h.1).anyway.before (@renders_following target "\n" ns h.2)
  have hspace : Renders false (if (Needs.of (n :: ns)).spaced target imports then newLine else pure ())
      (if (Needs.of (n :: ns)).spaced target imports then pure "\n" else pure "") :=
    renders_ite _ (fun _ => renders_write.anyway) fun _ => renders_pure
  rw [toSource_module, statementLines_cons]
  refine (join_output (himports.before (hspace.before hbody)) (programContext (n :: ns)) target.header).trans ?_
  have hspaceText (c : Bool) (s : Context) :
      (if c then pure "\n" else pure "" : Render String) s = (String.join (if c then ["\n"] else []), s) := by
    cases c <;> rfl
  rw [run_append, each_pure, run_append, hspaceText, String.join_append, String.join_append, String.append_assoc,
    String.append_assoc]

theorem toSource_module_eq (h : AllLegible body) (imports : List String) :
    (Node.module body).toSource .python imports = programFront imports body ++ programText body := by
  cases body with
  | nil =>
    have himports := renders_each (fun t => renders_write (t := t)) ((Needs.of []).importLines .python imports)
    cases imports with
    | nil => decide +kernel
    | cons =>
      refine (join_output himports (programContext []) (Target.header .python)).trans ?_
      rw [each_pure, programFront, programText, String.append_empty, Bool.and_eq_false_imp.2 (by simp)]
      simp [String.join_append]
  | cons =>
    rw [toSource_module_cons .python h, programFront, isEmpty_cons, Bool.not_false, Bool.and_true]
    rfl

theorem isLaidOut_programText (h : ∀ n ∈ body, Lays 0 (n.render .python) (n.outline 0)) :
    IsLaidOut (outlineProgram body) (programText body) := by
  cases body with
  | nil => exact isLaidOut_nil
  | cons n ns =>
    obtain ⟨hn, hns⟩ := forall_mem_cons.1 h
    have hcontext : (programContext (n :: ns)).At 0 := ⟨rfl, forall_mem_singleton.2 (forall_mem_nil _)⟩
    exact (hn.append (lays_following hns) _ hcontext).1

/-! ### The blocks of a program -/

/-- The statements of a parsed program without slices are written as the lines of its outline, unless a line starts with
a literal without its quotes: a line of a statement `k` blocks deep starts with `4 * k` blanks, imports apart.  If
besides no block is left empty, no block holds an import and no switch has a default alone, then below each line that
opens a block there is one a level deeper, and each `elif` and `else` goes on with a chain of the same indentation. -/
theorem toSource_lines_wellBlocked {source : String} {tokens : List Token} {m : Node}
    (htokens : tokenize source = .ok tokens) (hm : parseTokens tokens = .ok m) (hfree : m.SliceFree)
    (hreadable : m.Everywhere fun n => n.isReadable = true) (imports : List String) :
    ∃ lines : List String, m.toSource .python imports = programFront imports m.statements ++ unlines lines ∧
      (∀ l ∈ lines, OneLine l) ∧ lines.map LineMark.ofLine = outlineProgram m.statements ∧
      (m.Everywhere (fun n => n.isSuited = true) → WellBlocked [] (lines.map LineMark.ofLine)) := by
  have hfits : Fits TidyText .program m := parseTokens_fits (tokenize_tidy htokens) hm
  have hlaid := hfits.lays hfree hreadable
  have hlegible := (hfits.legible hfree).1
  have houtlined (hsuited : m.Everywhere fun n => n.isSuited = true) := hfits.outlined hsuited
  cases hfits with
  | @module body =>
    obtain ⟨lines, htext, hlines, hmarks⟩ := isLaidOut_programText hlaid
    refine ⟨lines, ?_, hlines, hmarks, fun hsuited => ?_⟩
    · rw [toSource_module_eq hlegible, htext]
      rfl
    · rw [hmarks]
      exact (houtlined hsuited).closed

example : outlineProgram [.conditional (.identifier "x") [.pass true] []] = [opening 0 "if", plain 1] := by
  decide +kernel

theorem eq_ok_of_toOption {ε α : Type} {e : Except ε α} {a : α} (h : e.toOption = some a) : e = .ok a := by
  cases e with
  | error => cases h
  | ok =>
    cases h
    rfl

theorem exists_parsed {source : String} {P : Node → Prop} [DecidablePred P]
    (h : ((tokenize source).toOption.bind fun tokens => (parseTokens tokens).toOption).any P) :
    ∃ tokens m, tokenize source = .ok tokens ∧ parseTokens tokens = .ok m ∧ P m := by
  obtain ⟨m, hm, hP⟩ := (Option.any_eq_true _ _).1 h
  obtain ⟨tokens, htokens, hparse⟩ := Option.bind_eq_some_iff.1 hm
  exact ⟨tokens, m, eq_ok_of_toOption htokens, eq_ok_of_toOption hparse, of_decide_eq_true hP⟩

def nestedSource : String :=
  "import a;\nclass A \x7b\ndef f(x) \x7b\nfor y in x \x7b\n" ++
    "if y \x7b\nreturn y;\n\x7d else \x7b\npass;\n\x7d\n\x7d\n\x7d\n\x7d\n"

def nestedOutline : List LineMark :=
  [plain 0, blank, opening 0 "class", plain 1, blank, opening 1 "def", plain 2, opening 2 "for", opening 3 "if",
    plain 4, opening 3 "else", plain 4]

theorem toSource_lines_wellBlocked_nested : ∃ tokens m,
    tokenize nestedSource = .ok tokens ∧ parseTokens tokens = .ok m ∧ m.SliceFree ∧
    m.Everywhere (fun n => n.isReadable = true) ∧ m.Everywhere (fun n => n.isSuited = true) ∧
    ∃ lines : List String, m.toSource .python [] = programFront [] m.statements ++ unlines lines ∧
      lines.map LineMark.ofLine = nestedOutline ∧ WellBlocked [] (lines.map LineMark.ofLine) := by
  obtain ⟨tokens, m, htokens, hm, hfree, hreadable, hsuited, houtline⟩ :
      ∃ tokens m, tokenize nestedSource = .ok tokens ∧ parseTokens tokens = .ok m ∧ m.SliceFree ∧
        m.Everywhere (fun n => n.isReadable = true) ∧ m.Everywhere (fun n => n.isSuited = true) ∧
        outlineProgram m.statements = nestedOutline := exists_parsed (by decide +kernel)
  obtain ⟨lines, htext, _, hmarks, hblocked⟩ := toSource_lines_wellBlocked htokens hm hfree hreadable []
  exact ⟨tokens, m, htokens, hm, hfree, hreadable, hsuited, lines, htext, hmarks.trans houtline, hblocked hsuited⟩

/-- Below the head of an empty block there is no deeper line. -/
theorem exists_lines_not_wellBlocked : ∃ (source : String) (tokens : List Token) (m : Node) (lines : List String),
    tokenize source = .ok tokens ∧ parseTokens tokens = .ok m ∧ m.SliceFree ∧
    m.toSource .python [] = programFront [] m.statements ++ unlines lines ∧ (∀ l ∈ lines, OneLine l) ∧
    ¬ WellBlocked [] (lines.map LineMark.ofLine) := by
  let lines := ["def f(x):", "    \"\"\"f function.\"\"\"", "    if x:"]
  obtain ⟨tokens, m, htokens, hm, hfree, htext⟩ :
      ∃ tokens m, tokenize "def f(x) \x7b\n    if x \x7b\n    \x7d\n\x7d\n" = .ok tokens ∧
        parseTokens tokens = .ok m ∧ m.SliceFree ∧
        m.toSource .python [] = programFront [] m.statements ++ unlines lines := exists_parsed (by decide +kernel)
  exact ⟨_, tokens, m, lines, htokens, hm, hfree, htext, by decide, by decide⟩

end BraceLang
