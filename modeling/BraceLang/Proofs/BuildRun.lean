import BraceLang.Build.Run
import BraceLang.Proofs.BuildOrder
import BraceLang.Proofs.FileWrites
import BraceLang.Proofs.Preliminary

/-!
# What a build writes

A build writes the files of its graph in their order, each of them once, until one of them fails; what has been written
by then stays (`outcome_buildGraph`).
-/

namespace BraceLang

open List

variable {u : SourceUnit} {tree : FileTree} {w : Workspace} {o : BuildOptions} {order : List SourceFile}
  {f : SourceFile}

def Work.outcome {α : Type} (x : Work α) (w : Workspace) : Except BuildError α × Workspace := x.run w

namespace Work

variable {α β : Type} {x : Work α} {f : α → Work β} {w' : Workspace}

theorem outcome_bind_ok (h : x.outcome w = (.ok a, w')) : (x >>= f).outcome w = (f a).outcome w' :=
  run_bind_ok h

theorem outcome_bind_error (h : x.outcome w = (.error e, w')) : (x >>= f).outcome w = (.error e, w') :=
  run_bind_error h

theorem outcome_write (p : Path) (text : String) (w : Workspace) :
    (write p text).outcome w = match w.tree.write p text with
      | .ok t => (.ok (), { w with tree := t })
      | .error e => (.error (.file e), w) := by
  change (match w.tree.write p text with
    | .ok tree => set { w with tree := tree }
    | .error e => throw (.file e) : Work Unit).outcome w = _
  cases w.tree.write p text <;> rfl

end Work

/-! ### One file -/

namespace SourceUnit

variable {registry : Registry}

/-- Use up the annotations of a unit and check it, whatever was found in it before. -/
def finished (registry : Registry) (u : SourceUnit) : Except CompileError SourceUnit := do
  (← u.prepare.lowered registry).checked true

theorem verified_of_parsed (hu : parseTokens u.tokens = .ok u.program) : u.verified registry = u.finished registry := by
  rw [verified, checked_false_of_parsed hu]
  rfl

end SourceUnit

theorem SourceFile.parsed_of_unit (h : f.unit tree = .ok u) :
    tokenize u.source = .ok u.tokens ∧ parseTokens u.tokens = .ok u.program := by
  let start : SourceUnit := { source := (tree.read? f.path).getD "" }
  change (start.tokenize >>= SourceUnit.parse) = .ok u at h
  rw [SourceUnit.tokenize] at h
  cases htokens : tokenize start.source with
  | error =>
    rw [htokens] at h
    cases h
  | ok tokens =>
    rw [htokens] at h
    change SourceUnit.parse { start with tokens := tokens } = .ok u at h
    rw [SourceUnit.parse] at h
    cases hprogram : parseTokens tokens with
    | error =>
      rw [hprogram] at h
      cases h
    | ok =>
      rw [hprogram] at h
      cases h
      exact ⟨htokens, hprogram⟩

/-- The file is checked successfully, and its text is written to a path. -/
def BuildOptions.Makes (o : BuildOptions) (tree : FileTree) (f : SourceFile) (output : Path × String) : Prop :=
  ∃ u v, f.unit tree = .ok u ∧ u.finished Registry.builtin = .ok v ∧
    output = (o.outputPath tree f, v.emitted o.target)

def SourceFile.Fails (tree : FileTree) (f : SourceFile) (e : CompileError) : Prop :=
  ∃ u, f.unit tree = .ok u ∧ u.finished Registry.builtin = .error e

/-- The file ends a build that has come to it with the files of a tree. -/
inductive BuildOptions.Stops (o : BuildOptions) (tree : FileTree) (f : SourceFile) (t : FileTree) : BuildError → Prop
  | compile {e : CompileError} (h : f.Fails tree e) : Stops o tree f t (.compile e)
  | file {output : Path × String} {e : FileError} (hmakes : o.Makes tree f output)
    (hwrite : t.write output.1 output.2 = .error e) : Stops o tree f t (.file e)

theorem outcome_buildFile (tools : Toolchain) (hform : o.form ≠ .executable)
    (hw : FileTree.SameDirectories tree w.tree) (hu : f.unit tree = .ok u) :
    (∃ e, o.Stops tree f w.tree e ∧ (buildFile o tools f u).outcome w = (.error e, w)) ∨
      ∃ output t, o.Makes tree f output ∧ w.tree.write output.1 output.2 = .ok t ∧
        (buildFile o tools f u).outcome w = (.ok (), { w with tree := t }) := by
  rw [buildFile, SourceUnit.verified_of_parsed (SourceFile.parsed_of_unit hu).2]
  cases hv : u.finished Registry.builtin with
  | error => exact .inl ⟨_, .compile ⟨u, hu, hv⟩, rfl⟩
  | ok v =>
    have hpath : o.outputPath w.tree f = o.outputPath tree f := by
      rw [BuildOptions.outputPath, BuildOptions.outputPath]
      cases o.output with
      | none => rfl
      | some directory => exact congrArg (Path.join · _) (hw.resolve directory)
    have hmakes : o.Makes tree f (o.outputPath tree f, v.emitted o.target) := ⟨u, v, hu, hv, rfl⟩
    have hget : (get : Work Workspace).outcome w = (.ok w, w) := rfl
    have houtcome := Work.outcome_write (o.outputPath w.tree f) (v.emitted o.target) w
    rw [hpath] at houtcome
    cases hwrite : w.tree.write (o.outputPath tree f) (v.emitted o.target) with
    | error =>
      rw [hwrite] at houtcome
      refine .inl ⟨_, .file hmakes hwrite, (Work.outcome_bind_ok hget).trans ?_⟩
      exact Work.outcome_bind_error (hpath ▸ houtcome)
    | ok t =>
      rw [hwrite] at houtcome
      refine .inr ⟨_, t, hmakes, hwrite, (Work.outcome_bind_ok hget).trans ?_⟩
      refine (Work.outcome_bind_ok (hpath ▸ houtcome)).trans ?_
      rw [if_neg hform]
      rfl

/-! ### All files -/

namespace ImportGraph

variable {g : ImportGraph}

def buildStep (o : BuildOptions) (tools : Toolchain) (g : ImportGraph) (tree : FileTree) (f : SourceFile) : Work Unit :=
  match g.module? (f.place tree) with
  | some m => buildFile o tools f m.unit
  | none => return ()

theorem outcome_forM_buildStep (tools : Toolchain) (hform : o.form ≠ .executable)
    (hmodules : ∀ f ∈ order, ∃ m, g.module? (f.place tree) = some m ∧ f.unit tree = .ok m.unit)
    (hw : FileTree.SameDirectories tree w.tree) :
    ∃ before outputs t, Forall₂ (o.Makes tree) before outputs ∧ w.tree.writeAll outputs = .ok t ∧
      (order = before ∧ (order.forM (buildStep o tools g tree)).outcome w = (.ok (), { w with tree := t }) ∨
        ∃ f later e, order = before ++ f :: later ∧ o.Stops tree f t e ∧
          (order.forM (buildStep o tools g tree)).outcome w = (.error e, { w with tree := t })) := by
  induction order generalizing w with
  | nil => exact ⟨[], [], w.tree, .nil, rfl, .inl ⟨rfl, rfl⟩⟩
  | cons f order ih =>
    obtain ⟨⟨m, hm, hunit⟩, hmodules⟩ := forall_mem_cons.1 hmodules
    have hstep : buildStep o tools g tree f = buildFile o tools f m.unit := by rw [buildStep, hm]
    rcases outcome_buildFile tools hform hw hunit with ⟨e, hstops, hend⟩ | ⟨output, t, hmakes, hwrite, hfirst⟩
    · refine ⟨[], [], w.tree, .nil, rfl, .inr ⟨f, order, e, rfl, hstops, ?_⟩⟩
      exact Work.outcome_bind_error (hstep ▸ hend)
    · obtain ⟨here, hplace, hfree, -⟩ := FileTree.write_eq_ok_iff.1 hwrite
      obtain ⟨_, hsome, hsame, -⟩ := FileTree.exists_write hplace hfree output.2
      cases hwrite.symm.trans hsome
      obtain ⟨before, outputs, t', hall, hwrites, hend⟩ := ih hmodules (w := { w with tree := t }) (hw.trans hsame)
      refine ⟨f :: before, output :: outputs, t', .cons hmakes hall, ?_, ?_⟩
      · rw [FileTree.writeAll, foldlM_cons, hwrite]
        exact hwrites
      · have houtcome := Work.outcome_bind_ok (f := fun _ => order.forM (buildStep o tools g tree)) (hstep ▸ hfirst)
        rcases hend with ⟨rfl, hend⟩ | ⟨f', later, e, rfl, hstops, hend⟩
        · exact .inl ⟨rfl, houtcome.trans hend⟩
        · exact .inr ⟨f', later, e, rfl, hstops, houtcome.trans hend⟩

theorem reaches_of_mem_preorder (hwalk : (walk around tree entry).outcome g₀ = (.ok file, g)) :
    ∀ f ∈ g.preorder tree file, g.Reaches tree file f := by
  intro f hf
  obtain ⟨s, hs, hreached⟩ := (depthFirst_preorder hwalk).reached f hf
  rwa [mem_singleton.1 hs] at hreached

/-- A build of the graph of a walk goes through the files that are reached from its entry, depth first and each of them
once, and writes them, each of them once, up to the first one whose annotations cannot be used up or that has an error.
With its error the build ends; if there is none, all files have been written.  Nothing else changes. -/
theorem outcome_buildGraph {around : Surroundings} {entry : Path} {file : SourceFile} {g₀ : ImportGraph}
    (hwalk : (walk around tree entry).outcome g₀ = (.ok file, g)) (hform : o.form ≠ .executable)
    (hwritable : ∀ f ∈ g.preorder tree file, tree.Writable (o.outputPath tree f)) (tools : Toolchain)
    (calls : List ToolCall) :
    let order := g.preorder tree file
    DepthFirst (·.place tree) g.sources [] [file] order ∧ (order.map (·.place tree)).Nodup ∧
      (∀ a, a ∈ order.map (·.place tree) ↔ ∃ f, g.Reaches tree file f ∧ f.place tree = a) ∧
      ∃ before outputs t, List.Forall₂ (o.Makes tree) before outputs ∧ tree.writeAll outputs = .ok t ∧
        (∀ place, (∀ w ∈ outputs, tree.place w.1 ≠ .ok place) → t.entry? place = tree.entry? place) ∧
        (order = before ∧ (buildGraph o tools g file).outcome ⟨tree, calls⟩ = (.ok (), ⟨t, calls⟩) ∨
          ∃ f later e, order = before ++ f :: later ∧ f.Fails tree e ∧
            (buildGraph o tools g file).outcome ⟨tree, calls⟩ = (.error (.compile e), ⟨t, calls⟩)) := by
  intro order
  have hfirst := depthFirst_preorder hwalk
  have hreached := reaches_of_mem_preorder hwalk
  refine ⟨hfirst, hfirst.nodup.1, fun a => ⟨fun ha => ?_, ?_⟩, ?_⟩
  · obtain ⟨f, hf, rfl⟩ := List.mem_map.1 ha
    exact ⟨f, hreached f hf, rfl⟩
  · rintro ⟨f, hf, rfl⟩
    exact hfirst.mem_of_reached hf
  · obtain ⟨before, outputs, t, hmakes, hwrites, hend⟩ :=
      outcome_forM_buildStep tools (w := ⟨tree, calls⟩) hform
        (fun f hf => (exists_module_of_reaches hwalk (hreached f hf)).2) (.refl tree)
    obtain ⟨t', ht', hsame, hafter⟩ := FileTree.exists_writeAll (FileTree.writable_of_writeAll hwrites)
    cases hwrites.symm.trans ht'
    refine ⟨before, outputs, t, hmakes, hwrites, fun place hplace => ?_, ?_⟩
    · rw [hafter, FileTree.after_of_ne hplace]
    · rcases hend with hend | ⟨f, later, e, hsplit, hstops, hend⟩
      · exact .inl hend
      · cases hstops with
        | compile hfails => exact .inr ⟨f, later, _, hsplit, hfails, hend⟩
        | file hmakes hwrite =>
          -- the output of every file can be written, whatever has been written before
          obtain ⟨u, v, -, -, rfl⟩ := hmakes
          have hmem : f ∈ g.preorder tree file := hsplit ▸ List.mem_append_right before List.mem_cons_self
          obtain ⟨here, hplace, hfree⟩ := hsame.writable (hwritable f hmem)
          obtain ⟨t'', ht'', -⟩ := FileTree.exists_write hplace hfree (v.emitted o.target)
          cases hwrite.symm.trans ht''

theorem eq_ok_pair_of_toOption {ε α σ : Type} {x : Except ε α × σ} {a : α} (h : x.1.toOption = some a) :
    x = (.ok a, x.2) :=
  Prod.ext (eq_ok_of_toOption h) rfl

/-- A file that two others import, and a final that is assigned again in the second of them. -/
def diamondTree : FileTree where
  cwd := ⟨some "", ["r"]⟩
  entries := [(["r"], .directory), (["r", "a.spc"], .file "import b;\nimport c;\n"),
    (["r", "b.spc"], .file "import d;\n"), (["r", "c.spc"], .file "import d;\nfinal x: int = 1;\nx = 2;\n"),
    (["r", "d.spc"], .file "")]

def diamondFile (name : String) : SourceFile := { path := ⟨some "", ["r", name]⟩ }

def diamondOrder : List SourceFile := ["a.spc", "b.spc", "d.spc", "c.spc"].map diamondFile

def diamondWalk : Except BuildError SourceFile × ImportGraph :=
  (walk {} diamondTree (diamondFile "a.spc").path).outcome {}

-- one evaluation, since the walk is part of each
theorem evaluated_diamond :
    diamondWalk.1.toOption = some (diamondFile "a.spc") ∧
    diamondWalk.2.preorder diamondTree (diamondFile "a.spc") = diamondOrder ∧
    ((buildGraph {} { home := ⟨some "", []⟩ } diamondWalk.2 (diamondFile "a.spc")).outcome
      ⟨diamondTree, []⟩).1.toOption = none := by
  decide +kernel

/-- The file that is shared is written before the one that fails, and nothing is written after it. -/
theorem outcome_buildGraph_diamond : ∃ g before f later outputs t e,
    (walk {} diamondTree (diamondFile "a.spc").path).outcome {} = (.ok (diamondFile "a.spc"), g) ∧
    (∀ f ∈ g.preorder diamondTree (diamondFile "a.spc"),
      diamondTree.Writable (({} : BuildOptions).outputPath diamondTree f)) ∧
    before ++ f :: later = diamondOrder ∧ List.Forall₂ (({} : BuildOptions).Makes diamondTree) before outputs ∧
    f.Fails diamondTree e ∧ diamondTree.writeAll outputs = .ok t ∧
    (buildGraph {} { home := ⟨some "", []⟩ } g (diamondFile "a.spc")).outcome ⟨diamondTree, []⟩ =
      (.error (.compile e), ⟨t, []⟩) := by
  obtain ⟨hfile, horder, hfailed⟩ := evaluated_diamond
  have hwalk := eq_ok_pair_of_toOption hfile
  have hwritable : ∀ f ∈ diamondWalk.2.preorder diamondTree (diamondFile "a.spc"),
      diamondTree.Writable (({} : BuildOptions).outputPath diamondTree f) := by
    rw [horder]
    decide
  obtain ⟨-, -, -, before, outputs, t, hmakes, hwrites, -, hend⟩ :=
    outcome_buildGraph hwalk (by decide) hwritable { home := ⟨some "", []⟩ } []
  rcases hend with ⟨-, hend⟩ | ⟨f, later, e, hsplit, hfails, hend⟩
  · rw [hend] at hfailed
    cases hfailed
  · exact ⟨_, before, f, later, outputs, t, e, hwalk, hwritable, hsplit.symm.trans horder, hmakes, hfails, hwrites,
      hend⟩

end ImportGraph

end BraceLang
