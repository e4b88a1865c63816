import BraceLang.Proofs.ConditionalChains

/-!
# Switches as chains

A switch is written as a chain of conditionals, one for each case, and the text of the subject stands in every test.
-/

namespace BraceLang

open List Emit

/-! ### Writing the chain -/

/-- One test of the chain: the text of a subject against the value of a case, with the statements of the case below. -/
def writeTest (target : Target) (subject keyword : String) (case : Branch) : Emit Unit := do
  line keyword
  write (subject ++ " == " ++ (← freshText (case.1.emit target)) ++ ":")
  newLine
  deeper (Node.emitAll target case.2)

def writeTests (target : Target) (subject : String) : List Branch → Emit Unit
  | [] => pure ()
  | first :: rest => do
    writeTest target subject "if " first
    rest.forM (writeTest target subject "elif ")

def caseNode (case : Branch) : Node := .case case.1 case.2

theorem emitCases_elif (target : Target) (subject : String) (cases : List Branch) :
    Node.emitCases target subject "elif " (cases.map caseNode) = cases.forM (writeTest target subject "elif ") := by
  induction cases with
  | nil => rfl
  | cons case cases ih =>
    rw [map_cons, caseNode, Node.emitCases, ih]
    rfl

theorem emit_switch (target : Target) (subject : Node) (cases : List Branch) (default : List Node) :
    Node.emit target (.switch subject (cases.map caseNode) default) = (do
      let text ← freshText (subject.emit target)
      writeTests target text cases
      if default.isEmpty then pure () else writeBlock "else:\n" (Node.emitAll target default)) := by
  have htests (text : String) :
      Node.emitCases target text "if " (cases.map caseNode) = writeTests target text cases := by
    cases cases with
    | nil => rfl
    | cons first rest =>
      rw [map_cons, caseNode, Node.emitCases, emitCases_elif]
      rfl
  cases default with
  | nil | cons =>
    rw [Node.emit]
    simp only [htests]
    rfl

/-! ### Running it -/

/-- How expressions are evaluated and values compared. -/
structure Evaluation (σ ν : Type) where
  value : Node → σ → ν × σ
  equal : ν → ν → Bool

namespace Evaluation

variable {σ ν : Type} (w : Evaluation σ ν) (subject : Node) (default : List Node)

/-- The first case whose value equals a given one, and the state after its comparison. -/
def firstEqual (v : ν) : List Branch → σ → List Node × σ
  | [], s => (default, s)
  | case :: cases, s =>
    if w.equal v (w.value case.1 s).1 then (case.2, (w.value case.1 s).2) else firstEqual v cases (w.value case.1 s).2

/-- What a switch runs: the subject is evaluated, and then the cases are compared with it. -/
def switchRun (cases : List Branch) (s : σ) : List Node × σ :=
  w.firstEqual default (w.value subject s).1 cases (w.value subject s).2

/-- What tests run one after the other, each of which evaluates the subject and the value of its case. -/
def testsRun : List Branch → σ → List Node × σ
  | [], s => (default, s)
  | case :: cases, s =>
    let v := w.value subject s
    let u := w.value case.1 v.2
    if w.equal v.1 u.1 then (case.2, u.2) else testsRun cases u.2

/-- What the written chain runs.  An `else` without a test before it is no statement. -/
def chainRun (cases : List Branch) (s : σ) : Option (List Node × σ) :=
  if cases = [] ∧ default ≠ [] then none else some (w.testsRun subject default cases s)

variable {w subject} {v : ν}

theorem chainRun_eq_some_iff {cases : List Branch} {s : σ} {r : List Node × σ} :
    w.chainRun subject default cases s = some r ↔
      (cases ≠ [] ∨ default = []) ∧ w.testsRun subject default cases s = r := by
  rw [chainRun]
  split <;> simp_all [or_iff_not_imp_left]

theorem testsRun_of_steady (h : ∀ s, w.value subject s = (v, s)) (cases : List Branch) (s : σ) :
    w.testsRun subject default cases s = w.firstEqual default v cases s := by
  induction cases generalizing s with
  | nil => rfl
  | cons case cases ih => simp only [testsRun, firstEqual, h, ih]

/-- Every evaluation is counted, and no values are equal. -/
def counting : Evaluation Nat Unit := ⟨fun _ s => ((), s + 1), fun _ _ => false⟩

theorem testsRun_counting (cases : List Branch) (s : Nat) :
    counting.testsRun subject default cases s = (default, s + 2 * cases.length) := by
  induction cases generalizing s with
  | nil => rfl
  | cons case cases ih =>
    show counting.testsRun subject default cases (s + 1 + 1) = _
    rw [ih, length_cons]
    congr 1
    omega

theorem firstEqual_counting (cases : List Branch) (s : Nat) :
    counting.firstEqual default () cases s = (default, s + cases.length) := by
  induction cases generalizing s with
  | nil => rfl
  | cons case cases ih =>
    show counting.firstEqual default () cases (s + 1) = _
    rw [ih, length_cons]
    congr 1
    omega

end Evaluation

open Evaluation in
/-- A switch is written as one test for each case, in their order, with the same text of the subject in each of them,
and an `else` for its default.  This chain evaluates and chooses as the switch does, whatever evaluating does, only if
there is one case.  If the subject gives the same value without an effect, it does so unless a default stands alone. -/
theorem switch_chain (subject : Node) (cases : List Branch) (default : List Node) :
    (∀ target, Node.emit target (.switch subject (cases.map caseNode) default) = (do
      let text ← freshText (subject.emit target)
      writeTests target text cases
      if default.isEmpty then pure () else writeBlock "else:\n" (Node.emitAll target default))) ∧
    ((∀ (σ ν : Type) (w : Evaluation σ ν) (s : σ),
      w.chainRun subject default cases s = some (w.switchRun subject default cases s)) ↔ cases.length = 1) ∧
    ((∀ (σ ν : Type) (w : Evaluation σ ν) (v : ν), (∀ s, w.value subject s = (v, s)) →
      ∀ s, w.chainRun subject default cases s = some (w.switchRun subject default cases s)) ↔
        cases ≠ [] ∨ default = []) := by
  refine ⟨fun target => emit_switch target subject cases default, ⟨fun h => ?_, fun h => ?_⟩, fun h => ?_, ?_⟩
  · have hcount := ((chainRun_eq_some_iff default).1 (h Nat Unit counting 0)).2
    rw [testsRun_counting] at hcount
    have hswitch : counting.switchRun subject default cases 0 = (default, 0 + 1 + cases.length) :=
      firstEqual_counting default cases (0 + 1)
    rw [hswitch] at hcount
    have := congrArg Prod.snd hcount
    dsimp only at this
    omega
  · obtain ⟨case, rfl⟩ := length_eq_one_iff.1 h
    exact fun σ ν w s => rfl
  · exact ((chainRun_eq_some_iff default).1 (h Unit Unit ⟨fun _ s => ((), s), fun _ _ => true⟩ () (fun _ => rfl) ())).1
  · intro h σ ν w v hv s
    exact (chainRun_eq_some_iff default).2 ⟨h, by rw [testsRun_of_steady default hv, switchRun, hv]⟩

end BraceLang
