import BraceLang.Proofs.DecoratedAnalysis
import BraceLang.Proofs.LoweredAnnotations
import BraceLang.Proofs.ProgramText

/-!
# The preliminary check

A unit is checked before its annotations are used up and again afterwards.
-/

namespace BraceLang

open List Node

variable {W : TokenKind → String → Prop} {tokens : List Token} {m : Node}

theorem Fits.decorators_eq_nil (h : Fits W role n) : n.decorators = [] := by
  induction h with
  | plainArgument _ ih | plainIndex _ ih | present _ ih | plainMember _ ih | plainTop _ ih => exact ih
  | function _ _ hdecorators => exact hdecorators
  | _ => rfl

theorem everywhere_decorators_eq_nil (hm : parseTokens tokens = .ok m) : m.Everywhere fun n => n.decorators = [] := by
  intro n hn _
  obtain ⟨role, hfits⟩ := (parseTokens_fits (W := fun _ _ => True) (fun _ _ => trivial) hm).of_mem_walk hn
  exact hfits.decorators_eq_nil

theorem length_decorators_decorated (hm : parseTokens tokens = .ok m) :
    m.decorated.Everywhere fun n => n.decorators.length ≤ 1 := by
  have houtlasts : Outlasts (fun n => n.decorators = []) fun n => n.decorators.length ≤ 1 :=
    @outlasts_decorators (· = []) (·.length ≤ 1) rfl (by simp) (by simp)
  exact (everywhere_decorators_eq_nil hm).decorated houtlasts

namespace SourceUnit

variable {registry : Registry} {u : SourceUnit}

theorem annotations_stay (hplain : m.Everywhere fun n => Lowering.stays n = true) :
    m.Everywhere fun n => ∀ a ∈ n.annotations, Lowering.stays a := by
  intro n hn _ a ha
  cases a with
  | missing => rfl
  | _ => exact (everywhere_annotations (hplain.of_mem_walk hn) _ ha).here rfl

def withDecoratedSymbols (u : SourceUnit) : SourceUnit := { u with symbols := u.symbols.map SymbolTable.decorated }

theorem resolveOverloads_resolveOverloads (u : SourceUnit) :
    u.resolveOverloads.resolveOverloads = u.resolveOverloads := by
  simp only [resolveOverloads, decorated_decorated, overloadTable_decorated]

theorem prepare_prepare (u : SourceUnit) : u.prepare.prepare = u.prepare.withDecoratedSymbols := by
  simp only [prepare, collectSymbols, resolveOverloads, withDecoratedSymbols, decorated_decorated,
    overloadTable_decorated, symbols_decorated, Option.map_some]

theorem checked_prepare (u : SourceUnit) : u.prepare.checked true = (u.checked true).map withDecoratedSymbols := by
  have herror : u.prepare.prepare.analysisError? true = u.prepare.analysisError? true := by
    rw [prepare_prepare]
    simp only [analysisError?, withDecoratedSymbols, knownSymbols, prepare, resolveOverloads, collectSymbols,
      Option.map_some, Option.getD_some, SymbolTable.analyse_decorated]
  rw [checked, checked, herror, prepare_prepare]
  cases u.prepare.analysisError? true <;> rfl

theorem checked_false_of_parsed (hu : parseTokens u.tokens = .ok u.program) : u.checked false = .ok u.prepare := by
  obtain ⟨s, hs⟩ := exists_run_decorated hu
  have hfinals : checkFinals u.prepare.program = .ok s := by
    rw [checkFinals, prepare, resolveOverloads, collectSymbols, hs]
  have hnone : u.prepare.analysisError? false = none := by
    rw [analysisError?, hfinals]
    rfl
  rw [checked, hnone]

theorem outlasts_stays : Outlasts (fun n => Lowering.stays n = true) fun n => Lowering.stays n = true where
  missing := rfl
  keep _ := id
  withBody n body h := by cases n <;> exact h
  addDecorator d n h := by
    cases n with
    | function =>
      rw [Node.addDecorator]
      split <;> rfl
    | _ => exact h

/-- A parsed unit without annotations to use up is verified by its decisive check alone: both fail alike, or both give
the same unit, up to decorators in its table, and the same text.  The decorators of overloads come from the first time
that they are resolved, whatever decorators were there, and every function of the unit has at most one. -/
theorem verified_eq_checked (hu : parseTokens u.tokens = .ok u.program) (hdiagnostics : u.diagnostics = [])
    (hplain : u.program.Everywhere fun n => Lowering.stays n = true) (registry : Registry) :
    u.verified registry = (u.checked true).map withDecoratedSymbols ∧
      (∀ target, (u.verified registry).map (·.emitted target) = (u.checked true).map (·.emitted target)) ∧
      (∀ v : SourceUnit, v.resolveOverloads.resolveOverloads = v.resolveOverloads ∧
        v.resolveOverloads.program.overloadFindings = v.program.overloadFindings) ∧
      u.prepare.program.Everywhere fun n => n.decorators.length ≤ 1 := by
  have hverified : u.verified registry = (u.checked true).map withDecoratedSymbols := by
    have hlowered : u.prepare.lowered registry = .ok u.prepare :=
      lowered_eq_self (annotations_stay (hplain.decorated outlasts_stays)) hdiagnostics
    rw [verified, checked_false_of_parsed hu]
    change (u.prepare.lowered registry >>= fun v => v.checked true) = _
    rw [hlowered]
    exact checked_prepare u
  refine ⟨hverified, fun target => ?_, fun v => ⟨resolveOverloads_resolveOverloads v, overloadFindings_decorated _⟩, ?_⟩
  · rw [hverified]
    cases u.checked true <;> rfl
  · exact length_decorators_decorated hu

def overloadedSource : String :=
  "@trace\ndef f(a: int) \x7b\n    return a;\n\x7d\ndef f(a: str) \x7b\n    return a;\n\x7d\n" ++
    "class A \x7b\n    def g() \x7b\n    \x7d\n    def g(b) \x7b\n    \x7d\n\x7d\n"

def overloadedTable : OverloadTable :=
  [("__module__", [("f(int)", "@dispatch(int)"), ("f(str)", "@dispatch(str)")]),
    ("A", [("g()", "@dispatch()"), ("g(any)", "@dispatch(object)")])]

theorem verified_eq_checked_overloaded : ∃ (tokens : List Token) (m : Node),
    BraceLang.tokenize overloadedSource = .ok tokens ∧ parseTokens tokens = .ok m ∧
    m.Everywhere (fun n => Lowering.stays n = true) ∧
    let u : SourceUnit := { source := overloadedSource, tokens := tokens, program := m }
    u.verified Registry.builtin = .ok u.prepare.withDecoratedSymbols ∧ u.prepare.overloads = overloadedTable ∧
      u.prepare.program.Everywhere fun n => n.decorators.length ≤ 1 := by
  obtain ⟨tokens, m, htokens, hm, hplain, htable, hpasses⟩ :
      ∃ tokens m, BraceLang.tokenize overloadedSource = .ok tokens ∧ parseTokens tokens = .ok m ∧
        m.Everywhere (fun n => Lowering.stays n = true) ∧ m.overloadTable = overloadedTable ∧
        ({ program := m } : SourceUnit).prepare.analysisError? true = none := exists_parsed (by decide +kernel)
  let u : SourceUnit := { source := overloadedSource, tokens := tokens, program := m }
  obtain ⟨hverified, -, -, hlength⟩ := verified_eq_checked (u := u) hm rfl hplain Registry.builtin
  have hchecked : u.checked true = .ok u.prepare := by
    rw [checked, show u.prepare.analysisError? true = none from hpasses]
  rw [hchecked] at hverified
  exact ⟨tokens, m, htokens, hm, hplain, hverified, htable, hlength⟩

end SourceUnit

end BraceLang
