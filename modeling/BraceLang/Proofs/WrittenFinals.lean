import BraceLang.Proofs.AssignedFinals
import BraceLang.Proofs.InlinedProgram

/-!
# Finals in a written program

What inlining does to the finals of a program that the check accepts, in one statement (`toSource_inlines_finals`).
-/

namespace BraceLang

open Node

theorem sparesFinals_python (m : Node) (classes : List String) : m.SparesFinals .python classes :=
  fun _ _ _ _ _ => nofun

/-- A program whose finals are checked is written like the program in which the values of its finals stand in place of
their names, and there no more names are replaced.  If a function or class assigns a name, no final of the scopes
around it stands for that name.  Inlining adds exactly the calls of the values that it writes, so that it adds none if
and only if none of these values has a call. -/
theorem toSource_inlines_finals {tokens : List Token} {m : Node} {s : FinalCheck} (hm : parseTokens tokens = .ok m)
    (hrun : FinalCheck.run m = .ok s) (hs : s.findings = []) :
    (∀ target imports, m.SliceFree → m.SparesFinals target m.site.classes →
      m.toSource target imports = m.inlining.toSource target imports) ∧
    (∀ x ∈ m.inlining.mentions, x.value? = none) ∧
    (m.declaresPlainly = true → ∀ x ∈ m.mentions, ∀ inner owner values outer,
      x.scopes = inner ++ ⟨some owner, values⟩ :: outer → owner.Assigns x.name → inForce? outer x.name = none) ∧
    m.inlining.callCount = m.callCount + valueCalls m.mentions ∧
    (m.inlining.callCount = m.callCount ↔ ∀ x ∈ m.mentions, ∀ value ∈ x.value?, value.callCount = 0) := by
  have hfits : Fits (fun _ _ => True) .program m := parseTokens_fits (fun _ _ => trivial) hm
  refine ⟨fun target imports hfree hspared => (toSource_inlining hfits hfree hspared imports).symm,
    fun x hx => value?_of_mem_mentions_inlining hx, fun hplain x hx inner owner values outer hscopes hname => ?_,
    callCount_inlining m, callCount_inlining_eq_iff⟩
  have hsettled := settled_of_mem_mentions hfits hrun hs hplain hx
  rw [hscopes] at hsettled
  exact hsettled.of_append rfl hname

def isAccepted (m : Node) : Bool := (FinalCheck.run m).toOption.any fun s => s.findings.isEmpty

theorem exists_of_isAccepted (h : isAccepted m) : ∃ s, FinalCheck.run m = .ok s ∧ s.findings = [] := by
  obtain ⟨s, hrun, hs⟩ := (Option.any_eq_true _ _).1 h
  exact ⟨s, eq_ok_of_toOption hrun, List.isEmpty_iff.1 hs⟩

def firstAssigned? : Node → Option String
  | function _ _ (some (expression (assignment (identifier name) ..) _ :: _)) _ _ => some name
  | _ => none

theorem assigns_of_firstAssigned? {name : String} (h : firstAssigned? n = some name) : n.Assigns name := by
  unfold firstAssigned? at h
  split at h
  · cases h
    exact .function List.mem_cons_self (.expression (mem_walk_self _))
  · cases h

/-- A final with a call for its value, and a function that uses it and assigns another name. -/
def readingSource : String :=
  "final limit: int = read();\ndef f(a) \x7b\n    total = a;\n    return total + limit;\n\x7d\n"

theorem toSource_inlines_finals_reading : ∃ tokens m s,
    tokenize readingSource = .ok tokens ∧ parseTokens tokens = .ok m ∧ FinalCheck.run m = .ok s ∧ s.findings = [] ∧
    m.SliceFree ∧ m.declaresPlainly ∧ m.toSource .python [] = m.inlining.toSource .python [] ∧
    (∃ x ∈ m.mentions, ∃ owner values outer, x.scopes = ⟨some owner, values⟩ :: outer ∧ owner.Assigns x.name ∧
      inForce? outer x.name = none) ∧
    m.inlining.callCount = m.callCount + 1 := by
  obtain ⟨tokens, m, htokens, hm, haccepted, hfree, hplain, hassigned, hcalls⟩ :
      ∃ tokens m, tokenize readingSource = .ok tokens ∧ parseTokens tokens = .ok m ∧ isAccepted m ∧
        m.SliceFree ∧ m.declaresPlainly ∧
        (∃ x ∈ m.mentions, ∃ scope ∈ x.scopes.head?, ∃ owner ∈ scope.owner, firstAssigned? owner = some x.name) ∧
        valueCalls m.mentions = 1 := exists_parsed (by decide +kernel)
  obtain ⟨s, hrun, hs⟩ := exists_of_isAccepted haccepted
  obtain ⟨htext, _, hsettled, hcount, _⟩ := toSource_inlines_finals hm hrun hs
  obtain ⟨x, hx, ⟨owned, values⟩, hscope, owner, howner, hname⟩ := hassigned
  obtain rfl : owned = some owner := howner
  obtain ⟨outer, hscopes⟩ := List.head?_eq_some_iff.1 hscope
  have hassigns := assigns_of_firstAssigned? hname
  refine ⟨tokens, m, s, htokens, hm, hrun, hs, hfree, hplain, htext .python [] hfree (sparesFinals_python m _),
    ⟨x, hx, owner, values, outer, hscopes, hassigns, ?_⟩, hcalls ▸ hcount⟩
  exact hsettled hplain x hx [] owner values outer hscopes hassigns

def twiceCalled : List String :=
  ["n: int = g()",
    "\"\"\"Variable annotated as final at compile time. " ++
      "Modifying it might not even change code if inlining is applied, or even break.\"\"\"",
    "", "def f(n):", "    \"\"\"f function.\"\"\"", "    return g()"]

/-- The value of a final is written for a parameter of the same name, and its call is written twice. -/
theorem exists_parameter_inlined : ∃ (source : String) (tokens : List Token) (m : Node) (s : FinalCheck),
    tokenize source = .ok tokens ∧ parseTokens tokens = .ok m ∧ FinalCheck.run m = .ok s ∧ s.findings = [] ∧
    m.toSource .python [] = programFront [] m.statements ++ unlines twiceCalled ∧
    m.callCount = 1 ∧ m.inlining.callCount = 2 := by
  obtain ⟨tokens, m, htokens, hm, haccepted, htext, hcalls⟩ :
      ∃ tokens m, tokenize "final n: int = g();\ndef f(n) \x7b\n    return n;\n\x7d\n" = .ok tokens ∧
        parseTokens tokens = .ok m ∧ isAccepted m ∧
        m.toSource .python [] = programFront [] m.statements ++ unlines twiceCalled ∧
        m.callCount = 1 ∧ m.inlining.callCount = 2 := exists_parsed (by decide +kernel)
  obtain ⟨s, hrun, hs⟩ := exists_of_isAccepted haccepted
  exact ⟨_, tokens, m, s, htokens, hm, hrun, hs, htext, hcalls⟩

end BraceLang
