import BraceLang.Proofs.Scaffolding

/-!
# One writer for many programs

Writing a node leaves the state of the writer as it was, apart from the pieces and the finals noted in the innermost
scope; a function or a class takes back even these.
-/

namespace BraceLang

open Emit

def Node.ownsFinals : Node → Bool
  | .function .. | .classDecl .. => true
  | _ => false

/-! ### Scopes -/

theorem exists_emit_class (target : Target) (head : ClassHead) (body params annotations : List Node) :
    ∃ m, Settles [] m ∧ (Node.classDecl head body params annotations).emit target =
      withinClass head.name (some (params.map Node.name)) (withFinals m) := by
  have hscope {m : Emit Unit} (h : Settles [] m) {s t : String} {b : Bool} :
      Settles [] (do
        if b then write s
        write t
        deeper m) :=
    settles_ite _ (settles_piece.andThen (settles_piece.andThen h.deeper)) (settles_piece.andThen h.deeper)
  cases body with
  | nil => exact ⟨_, hscope settles_ownLine, rfl⟩
  | cons n ns =>
    have hbody := (@settles_node target n).andThen (@settles_following target "\n" ns)
    exact ⟨_, hscope (settles_ownLine.andThen ((settles_attributes target _).andThen hbody)), rfl⟩

theorem exists_emit_scope (target : Target) (head : FunctionHead) (params : List Node)
    (body : Option (List Node)) (typeParams annotations : List Node) :
    ∃ m : Emitter → Emit Unit, (∀ e, Settles [] (m e)) ∧
      (Node.function head params body typeParams annotations).emit target = get >>= fun e => withFinals (m e) := by
  obtain ⟨block, hblock, hemit⟩ := exists_emit_function target head params body typeParams annotations
  refine ⟨_, fun e => ?_, hemit⟩
  exact (lifts_decoratorTexts annotations).settles fun _ =>
    (settles_forM (fun _ => settles_ownLine) _).andThen (settles_ownLine.andThen (hblock e).deeper)

theorem emit_of_ownsFinals (target : Target) {n : Node} (hn : n.ownsFinals) (he : e.finals ≠ []) :
    ∃ output, (n.emit target e).2 = { e with output := output } := by
  cases n with
  | function head params body typeParams annotations =>
    obtain ⟨m, hm, hemit⟩ := exists_emit_scope target head params body typeParams annotations
    rw [hemit]
    exact (hm e).withFinals_eq he
  | classDecl head body params annotations =>
    obtain ⟨m, hm, hemit⟩ := exists_emit_class target head body params annotations
    obtain ⟨output, hrun⟩ := hm.withFinals_eq (e := { e with
      inClass := true, classStack := head.name :: e.classStack, typeParams := params.map Node.name }) he
    refine ⟨output, ?_⟩
    rw [hemit]
    exact congrArg (fun e' : Emitter => { e' with
      inClass := e.inClass, classStack := e'.classStack.tail, typeParams := e.typeParams }) hrun
  | _ => cases hn

/-! ### Programs -/

structure Emitter.Resting (e : Emitter) : Prop where
  depth : e.depth = 0
  inClass : e.inClass = false
  classStack : e.classStack = []
  typeParams : e.typeParams = []

theorem program_eq (he : e.Resting) (target : Target) (imports : List String) (body : List Node) :
    Emit.program target imports body e = Emit.program target imports body {} := by
  obtain ⟨output, depth, inClass, finals, classNames, classStack, typeParams⟩ := e
  obtain ⟨rfl, rfl, rfl, rfl⟩ := he
  rfl

theorem framed_dropBlankEnd (e : Emitter) : Framed e (dropBlankEnd e).2 := by
  change Framed e (if e.output.back?.any isBlankText then { e with output := e.output.pop } else e)
  split
  · exact .of_output e _
  · exact .refl e

theorem resting_program (he : e.Resting) (target : Target) (imports : List String)
    (body : List Node) : (Emit.program target imports body e).2.Resting := by
  let started : Emitter :=
    { e with output := target.header.toArray, finals := [[]], classNames := body.filterMap Node.declaredClass? }
  obtain ⟨m, hm, hprogram⟩ :
      ∃ m, Settles [] m ∧ (Emit.program target imports body e).2 = (dropBlankEnd (m started).2).2 := by
    have himports := settles_forM (fun s => settles_piece (s := s)) ((Needs.of body).importLines target imports)
    have hbody : Settles [] (statementLines target body) :=
      settles_forM (fun n => (settles_node n).andThen settles_piece) body
    unfold Emit.program
    by_cases hspaced : (Needs.of body).spaced target imports
    · refine ⟨_, himports.andThen ((settles_piece (s := "\n")).andThen hbody), ?_⟩
      simp only [hspaced, if_true]
      rfl
    · refine ⟨_, himports.andThen hbody, ?_⟩
      simp only [hspaced]
      rfl
  obtain ⟨output, noted, hrun⟩ := (hm.framed started (by simp [started])).trans (framed_dropBlankEnd _)
  rw [hprogram, hrun]
  exact ⟨he.depth, he.inClass, he.classStack, he.typeParams⟩

/-- One writer gives the texts that new ones give. -/
theorem writer_reused (target : Target) :
    (∀ jobs : List (Node × List String),
      ((jobs.mapM fun job => Emit.program target job.2 job.1.statements).run {}).run.1 =
        jobs.map fun job => job.1.toSource target job.2) ∧
    ∀ (n : Node) (e : Emitter), e.finals ≠ [] →
      ∃ output noted, (n.emit target e).2 = { e with output := output, finals := e.finals.modifyHead (noted ++ ·) } ∧
        (n.ownsFinals = true → noted = []) := by
  refine ⟨fun jobs => ?_, fun n e he => ?_⟩
  · have hjobs (e : Emitter) (he : e.Resting) :
        ((jobs.mapM fun job => Emit.program target job.2 job.1.statements) e).1 =
          jobs.map fun job => job.1.toSource target job.2 := by
      induction jobs generalizing e with
      | nil => rfl
      | cons job jobs ih =>
        rw [List.mapM_cons, List.map_cons]
        have htext := congrArg Prod.fst (program_eq he target job.2 job.1.statements)
        have hrest := ih _ (resting_program he target job.2 job.1.statements)
        exact congrArg₂ List.cons htext hrest
    exact hjobs {} ⟨rfl, rfl, rfl, rfl⟩
  · obtain ⟨output, noted, hrun⟩ := (settles_node n).framed e he
    by_cases hn : n.ownsFinals
    · obtain ⟨output, hrun⟩ := emit_of_ownsFinals target hn he
      refine ⟨output, [], ?_, fun _ => rfl⟩
      rw [hrun]
      cases e.finals <;> rfl
    · exact ⟨output, noted, hrun, fun h => absurd h hn⟩

/-- A function with a final in the body of a class, written with a final of the same name in force. -/
def nestedFinal : Node :=
  .classDecl { name := "A" } [.function { name := "f" } []
    (some [.finalDecl (.identifier "k") (.literal (.integer 2) .number) none, .returns (.identifier "k") true]) [] []]
      [] []

theorem writer_reused_nestedFinal :
    let e : Emitter := { depth := 1, finals := [[("k", "1")]] }
    e.finals ≠ [] ∧ nestedFinal.ownsFinals ∧
      ∃ output, (nestedFinal.emit .python e).2 = { e with output := output } := by
  intro e
  have he : e.finals ≠ [] := by simp [e]
  obtain ⟨output, noted, hrun, hnoted⟩ := (writer_reused .python).2 nestedFinal e he
  obtain rfl := hnoted rfl
  exact ⟨he, rfl, output, hrun⟩

/-- The finals of a data class stay in force behind it: it has no scope of its own. -/
theorem exists_final_left : ∃ (source : String) (tokens : List Token) (m : Node),
    tokenize source = .ok tokens ∧ parseTokens tokens = .ok m ∧
      ∃ n ∈ m.statements, n.declaredClass? = some "P" ∧ ({} : Emitter).finalValue? "k" = none ∧
        (n.emit .python {}).2.finalValue? "k" = some "1" := by
  obtain ⟨tokens, m, htokens, hm, hleft⟩ :
      ∃ tokens m, tokenize "data class P(x: int) \x7b\n    static final k: int = 1;\n\x7d\n" = .ok tokens ∧
        parseTokens tokens = .ok m ∧
        ∃ n ∈ m.statements, n.declaredClass? = some "P" ∧ ({} : Emitter).finalValue? "k" = none ∧
          (n.emit .python {}).2.finalValue? "k" = some "1" :=
    exists_parsed (by decide +kernel)
  exact ⟨_, tokens, m, htokens, hm, hleft⟩

end BraceLang
