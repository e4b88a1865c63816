import BraceLang.Proofs.BuildRun
import Mathlib.Data.List.Nodup

/-!
# Where a build writes

A file is written under its own name with another suffix, beside its source or in the directory for all files.
-/

namespace BraceLang

open List

variable {tree t : FileTree} {file f : SourceFile} {around : Surroundings} {entry : Path} {g₀ g : ImportGraph}
  {o : BuildOptions} {W : TokenKind → String → Prop} {s : String} {fs order : List SourceFile}
  {outputs : List (Path × String)}

/-! ### Names of imported files -/

def Path.IsSource (p : Path) : Prop := p.name = p.stem ++ ".spc"

namespace Imports

variable {directory p : Path} {module : String}

theorem dotted_of_mem_modulesOf (hfits : Fits W .program program)
    (h : module ∈ modulesOf program) : Dotted W module := by
  obtain ⟨n, hn, hmodule⟩ := mem_filterMap.1 h
  cases hfits with
  | module hbody =>
    have htop := hbody n hn
    split at hmodule
    · cases hmodule
      cases htop with
      | plainTop hmember =>
        cases hmember with
        | plainMember hstatement =>
          cases hstatement with
          | imports hsource => exact hsource
    · cases hmodule

def NamesSource (p : Path) : Prop :=
  ∃ d s, s ≠ "" ∧ Path.IsPart (s ++ ".spc") ∧ p = Path.child d (s ++ ".spc")

theorem NamesSource.join (d : Path) (hs : s ≠ "") (h : Path.IsPart (s ++ ".spc")) :
    NamesSource (d.join (s ++ ".spc")) :=
  ⟨d, s, hs, h, Path.join_of_isPart h d⟩

theorem isPart_of_isWord (h : IsWord s.toList) : s ≠ "" ∧ Path.IsPart (s ++ ".spc") := by
  have hne : s ≠ "" := by
    rintro rfl
    exact h.elim
  refine ⟨hne, ?_, by simp, fun heq => ?_⟩
  · have hslash : '/' ∉ s.toList := h.notMem (by decide)
    simpa using hslash
  · have hlength : 4 ≤ (s ++ ".spc").length := by
      rw [String.length_append]
      exact Nat.le_add_left 4 s.length
    rw [heq] at hlength
    exact absurd hlength (by decide)

theorem namesSource_of_mem_candidates (hmodule : Dotted TidyText module)
    (h : p ∈ candidates ".spc" directory module) : NamesSource p := by
  have hword {s : String} (hs : TidyText .identifier s) : IsWord s.toList := (hs.name rfl).1
  have hbelow {s : String} (hs : IsWord s.toList) : s.toList.map (fun c => if c = '.' then '/' else c) = s.toList := by
    refine (map_congr_left fun c hc => ?_).trans (map_id s.toList)
    have hpoint : c ≠ '.' := fun heq => hs.notMem (by decide) (heq ▸ hc)
    rw [if_neg hpoint, id]
  rcases mem_pair.1 h with rfl | rfl
  · cases hmodule with
    | name hs =>
      rw [hbelow (hword hs), String.ofList_toList]
      exact .join directory (isPart_of_isWord (hword hs)).1 (isPart_of_isWord (hword hs)).2
    | @dot front s hfront hs =>
      obtain ⟨hne, hpart⟩ := isPart_of_isWord (hword hs)
      let above := String.ofList (front.toList.map fun c => if c = '.' then '/' else c)
      have htext : String.ofList ((front ++ "." ++ s).toList.map fun c => if c = '.' then '/' else c) ++ ".spc" =
          above ++ "/" ++ (s ++ ".spc") := by
        rw [String.toList_append, String.toList_append, map_append, map_append, hbelow (hword hs),
          String.ofList_append, String.ofList_append, String.ofList_toList, String.append_assoc]
        rfl
      rw [htext]
      refine ⟨directory.join above, s, hne, hpart, ?_⟩
      rw [Path.join, Path.partsOf_append_slash above hpart, Path.join, Path.child, List.append_assoc]
  · exact .join _ (by decide) (by decide)

theorem named_of_source? (hmodule : Dotted TidyText module) (h : source? tree directory module = some file) :
    Path.IsPart file.path.name ∧ file.path.IsSource := by
  obtain ⟨p, hp, hfile⟩ := exists_of_findSome?_eq_some h
  have hsource : NamesSource file.path := by
    rw [SourceFile.at?] at hfile
    split at hfile
    · cases hfile
      exact namesSource_of_mem_candidates hmodule hp
    · split at hfile
      · cases hfile
        exact .join p (s := "__main__") (by decide) (by decide)
      · cases hfile
  obtain ⟨d, s, hs, hpart, hpath⟩ := hsource
  rw [Path.IsSource, Path.stem, hpath, Path.name_child, Path.dropSuffix_source hs]
  exact ⟨hpart, rfl⟩

end Imports

namespace ImportGraph

theorem named_of_reaches (hwalk : (walk around tree entry).outcome g₀ = (.ok file, g))
    (hnamed : Path.IsPart file.path.name) (hf : g.Reaches tree file f) :
    Path.IsPart f.path.name ∧ (f = file ∨ f.path.IsSource) := by
  cases hf with
  | refl => exact ⟨hnamed, .inl rfl⟩
  | @tail a _ ha hs =>
    obtain ⟨hentry, hexplores⟩ := explores_of_outcome hwalk
    have hloaded : Loaded around tree g :=
      hexplores.loaded (by simp [Loaded]) (by simpa using SourceFile.isFile_of_entry hentry)
    obtain ⟨m, hm, hs⟩ := exists_module_of_mem_sources hs
    have hload := (hloaded _ hm).2.2
    obtain ⟨directory, module, hmodule, hsource⟩ := SourceModule.exists_source? hload hs
    obtain ⟨htokens, hprogram⟩ := SourceFile.parsed_of_unit (SourceModule.load_eq_ok_iff.1 hload).1
    have hdotted := Imports.dotted_of_mem_modulesOf (parseTokens_fits (tokenize_tidy htokens) hprogram)
      (mem_filter.1 hmodule).1
    obtain ⟨hpart, hsuffix⟩ := Imports.named_of_source? hdotted hsource
    exact ⟨hpart, .inr hsuffix⟩

end ImportGraph

/-! ### Places of the texts -/

namespace BuildOptions

variable {f' : SourceFile}

def outputDirectory (o : BuildOptions) (tree : FileTree) (f : SourceFile) : Path :=
  match o.output with
  | some directory => tree.resolve (tree.resolve directory)
  | none => (f.place tree).parent

theorem resolve_outputPath (hfile : tree.isFile f.path) (hnamed : Path.IsPart f.path.name) :
    tree.resolve (o.outputPath tree f) = (o.outputDirectory tree f).child (f.path.outputName o.form) := by
  have hup := f.path.outputName_ne_up o.form
  rw [outputPath, outputDirectory, SourceFile.outputPath, Path.withSuffix_eq_child]
  cases o.output with
  | none =>
    have hparent := FileTree.resolve_parent hfile hnamed.parts_ne_nil
    exact (tree.resolve_child hup _).trans (congrArg (Path.child · _) hparent)
  | some directory =>
    change tree.resolve ((tree.resolve directory).join (Path.name (Path.child _ (f.path.outputName o.form)))) = _
    rw [Path.name_child, Path.join_of_isPart (Path.isPart_outputName hnamed o.form), tree.resolve_child hup]

theorem resolve_outputPath_eq_iff (hfile : tree.isFile f.path) (hnamed : Path.IsPart f.path.name)
    (hfile' : tree.isFile f'.path) (hnamed' : Path.IsPart f'.path.name) :
    tree.resolve (o.outputPath tree f) = tree.resolve (o.outputPath tree f') ↔
      f.path.stem = f'.path.stem ∧ (o.output = none → (f.place tree).parent = (f'.place tree).parent) := by
  rw [resolve_outputPath hfile hnamed, resolve_outputPath hfile' hnamed', Path.child_inj, Path.outputName_inj, and_comm,
    outputDirectory, outputDirectory]
  cases o.output with
  | none => simp
  | some => simp

theorem place_eq_of_outputPath (hnone : o.output = none) (hfile : tree.isFile f.path) (hnamed : Path.IsPart f.path.name)
    (hsource : f.path.IsSource) (hfile' : tree.isFile f'.path) (hnamed' : Path.IsPart f'.path.name)
    (hsource' : f'.path.IsSource) (h : tree.resolve (o.outputPath tree f) = tree.resolve (o.outputPath tree f')) :
    f.place tree = f'.place tree := by
  obtain ⟨hstem, hparent⟩ := (resolve_outputPath_eq_iff hfile hnamed hfile' hnamed').1 h
  have hname : f.path.name = f'.path.name := by
    rw [hsource, hsource', hstem]
  rw [SourceFile.place, SourceFile.place, FileTree.resolve_eq_child hfile hnamed.parts_ne_nil,
    FileTree.resolve_eq_child hfile' hnamed'.parts_ne_nil, hname, hparent hnone]

theorem exists_output_of_mem (h : Forall₂ (o.Makes tree) fs outputs) (hf : f ∈ fs) :
    ∃ text, (o.outputPath tree f, text) ∈ outputs := by
  induction h with
  | nil => cases hf
  | cons hmakes _ ih =>
    rcases mem_cons.1 hf with rfl | hf
    · obtain ⟨u, v, -, -, rfl⟩ := hmakes
      exact ⟨_, mem_cons_self⟩
    · obtain ⟨text, htext⟩ := ih hf
      exact ⟨text, mem_cons_of_mem _ htext⟩

def Keeps (o : BuildOptions) (tree t : FileTree) (f : SourceFile) : Prop :=
  ∃ text, o.Makes tree f (o.outputPath tree f, text) ∧ t.find? (o.outputPath tree f) = some (.file text)

end BuildOptions

namespace ImportGraph

theorem exists_outputs_of_ok (hwalk : (walk around tree entry).outcome g₀ = (.ok file, g))
    (hform : o.form ≠ .executable) (hbuild : (buildGraph o tools g file).outcome ⟨tree, calls⟩ = (.ok (), w)) :
    ∃ outputs, Forall₂ (o.Makes tree) (g.preorder tree file) outputs ∧ tree.writeAll outputs = .ok w.tree := by
  obtain ⟨before, outputs, t, hmakes, hwrites, hend⟩ :=
    outcome_forM_buildStep tools (w := ⟨tree, calls⟩) hform
      (fun f hf => (exists_module_of_reaches hwalk (reaches_of_mem_preorder hwalk f hf)).2) (.refl tree)
  rcases hend with ⟨rfl, hend⟩ | ⟨f, later, e, -, -, hend⟩
  · cases hbuild.symm.trans hend
    exact ⟨outputs, hmakes, hwrites⟩
  · cases hbuild.symm.trans hend

/-- After a build, the output file of a file has the text of the last one that is written to its place. -/
theorem exists_last_output (hmakes : Forall₂ (o.Makes tree) order outputs) (hwrites : tree.writeAll outputs = .ok t)
    (hf : f ∈ order) :
    ∃ before f' later text, order = before ++ f' :: later ∧
      tree.resolve (o.outputPath tree f') = tree.resolve (o.outputPath tree f) ∧
      (∀ s ∈ later, tree.resolve (o.outputPath tree s) ≠ tree.resolve (o.outputPath tree f)) ∧
      o.Makes tree f' (o.outputPath tree f', text) ∧ t.find? (o.outputPath tree f) = some (.file text) := by
  have hwritable := FileTree.writable_of_writeAll hwrites
  obtain ⟨_, hwritten, hsame, hafter⟩ := FileTree.exists_writeAll hwritable
  cases hwrites.symm.trans hwritten
  obtain ⟨text, htext⟩ := BuildOptions.exists_output_of_mem hmakes hf
  obtain ⟨here, hplace, -⟩ := hwritable _ htext
  obtain ⟨before, output, later, houtputs, hlast, hlater, hfile⟩ := FileTree.exists_last_write ⟨_, htext, hplace⟩
  -- the order splits where the texts do
  have hrest := forall₂_drop_append order before (output :: later) (houtputs ▸ hmakes)
  obtain ⟨f', fs', hmakes', hmakesLater, hdrop⟩ := forall₂_cons_right_iff.1 hrest
  obtain ⟨u, v, hu, hv, rfl⟩ := hmakes'
  refine ⟨order.take before.length, f', fs', _, ?_, (FileTree.resolve_eq_iff_of_place hlast hplace).2 rfl, ?_,
    ⟨u, v, hu, hv, rfl⟩, ?_⟩
  · rw [← hdrop, take_append_drop]
  · intro s hs heq
    obtain ⟨text', htext'⟩ := BuildOptions.exists_output_of_mem hmakesLater hs
    obtain ⟨there, hthere, -⟩ := hwritable (o.outputPath tree s, text') (by simp [houtputs, htext'])
    refine hlater _ htext' ?_
    rw [hthere, (FileTree.resolve_eq_iff_of_place hthere hplace).1 heq]
  · rw [FileTree.find?, hsame.place hplace]
    exact (hafter here).trans hfile

/-- After a build that succeeds, every file that is reached has an output file.  Two of them have the same one if and
only if they have the same name without the suffix and, unless there is a directory for all files, are in the same
directory; beside their sources no two are written to one place, if the entry is named like a source as the others are.
In each output file there is the text of the last file that is written there, so a file that shares it with no other
finds its own text in it. -/
theorem outputs_of_buildGraph (hwalk : (walk around tree entry).outcome g₀ = (.ok file, g))
    (hnamed : Path.IsPart file.path.name) (hform : o.form ≠ .executable) {tools : Toolchain} {calls : List ToolCall}
    {w : Workspace} (hbuild : (buildGraph o tools g file).outcome ⟨tree, calls⟩ = (.ok (), w)) :
    let order := g.preorder tree file
    let out := fun f => tree.resolve (o.outputPath tree f)
    (∀ f, g.Reaches tree file f → ∃ f' ∈ order, f'.place tree = f.place tree) ∧
      (∀ f ∈ order, ∀ f' ∈ order, out f = out f' ↔
        f.path.stem = f'.path.stem ∧ (o.output = none → (f.place tree).parent = (f'.place tree).parent)) ∧
      (o.output = none → file.path.IsSource → ∀ f ∈ order, ∀ f' ∈ order, out f = out f' → f = f') ∧
      (∀ f ∈ order, ∃ before f' later text, order = before ++ f' :: later ∧ out f' = out f ∧
        (∀ s ∈ later, out s ≠ out f) ∧ o.Makes tree f' (o.outputPath tree f', text) ∧
        w.tree.find? (o.outputPath tree f) = some (.file text)) ∧
      ∀ f ∈ order, (∀ f' ∈ order, out f' = out f → f' = f) → o.Keeps tree w.tree f := by
  intro order out
  have hfirst := depthFirst_preorder hwalk
  have hreached := reaches_of_mem_preorder hwalk
  have hfile : ∀ f ∈ order, tree.isFile f.path := fun f hf => (exists_module_of_reaches hwalk (hreached f hf)).1
  have hname : ∀ f ∈ order, Path.IsPart f.path.name ∧ (f = file ∨ f.path.IsSource) :=
    fun f hf => named_of_reaches hwalk hnamed (hreached f hf)
  have hiff : ∀ f ∈ order, ∀ f' ∈ order, out f = out f' ↔
      f.path.stem = f'.path.stem ∧ (o.output = none → (f.place tree).parent = (f'.place tree).parent) :=
    fun f hf f' hf' =>
      BuildOptions.resolve_outputPath_eq_iff (hfile f hf) (hname f hf).1 (hfile f' hf') (hname f' hf').1
  obtain ⟨outputs, hmakes, hwrites⟩ := exists_outputs_of_ok hwalk hform hbuild
  have hlast := fun f hf => exists_last_output hmakes hwrites (f := f) hf
  refine ⟨fun f hf => ?_, hiff, fun hnone hsource f hf f' hf' hout => ?_, hlast, fun f hf hunique => ?_⟩
  · obtain ⟨f', hf', hplace⟩ := List.mem_map.1 (hfirst.mem_of_reached hf)
    exact ⟨f', hf', hplace⟩
  · have hsuffix : ∀ f ∈ order, f.path.IsSource := by
      intro f hf
      rcases (hname f hf).2 with rfl | hsuffix
      · exact hsource
      · exact hsuffix
    have hplace := BuildOptions.place_eq_of_outputPath hnone (hfile f hf) (hname f hf).1 (hsuffix f hf) (hfile f' hf')
      (hname f' hf').1 (hsuffix f' hf') hout
    exact List.inj_on_of_nodup_map hfirst.nodup.1 hf hf' hplace
  · obtain ⟨before, f', later, text, hsplit, hout, -, hmakes, hfind⟩ := hlast f hf
    have hmem : f' ∈ g.preorder tree file := hsplit ▸ List.mem_append_right before List.mem_cons_self
    obtain rfl := hunique f' hmem hout
    exact ⟨text, hmakes, hfind⟩

/-- Two files of one name in two directories, and a directory that all files are written to. -/
def clashTree : FileTree where
  cwd := ⟨some "", ["r"]⟩
  entries := [(["r"], .directory), (["r", "p"], .directory), (["r", "q"], .directory), (["r", "o"], .directory),
    (["r", "a.spc"], .file "import p.x;\nimport q.x;\n"), (["r", "p", "x.spc"], .file ""),
    (["r", "q", "x.spc"], .file "y;\n")]

def clashOptions : BuildOptions := { output := some ⟨none, ["o"]⟩ }

def clashFile (parts : List String) : SourceFile := { path := ⟨some "", "r" :: parts⟩ }

def clashWalk : Except BuildError SourceFile × ImportGraph :=
  (walk {} clashTree (clashFile ["a.spc"]).path).outcome {}

def clashBuild : Except BuildError Unit × Workspace :=
  (buildGraph clashOptions { home := ⟨some "", []⟩ } clashWalk.2 (clashFile ["a.spc"])).outcome ⟨clashTree, []⟩

def clashText (f : SourceFile) : Option FileEntry :=
  (f.unit clashTree).toOption.bind fun u =>
    (u.finished Registry.builtin).toOption.map fun v => .file (v.emitted clashOptions.target)

-- one evaluation, since the walk is part of each
theorem evaluated_clash :
    clashWalk.1.toOption = some (clashFile ["a.spc"]) ∧
    clashWalk.2.preorder clashTree (clashFile ["a.spc"]) = [["a.spc"], ["p", "x.spc"], ["q", "x.spc"]].map clashFile ∧
    clashBuild.1.toOption = some () ∧
    clashBuild.2.tree.find? (clashOptions.outputPath clashTree (clashFile ["p", "x.spc"])) ≠
      clashText (clashFile ["p", "x.spc"]) := by
  decide +kernel

theorem walk_clash :
    (walk {} clashTree (clashFile ["a.spc"]).path).outcome {} = (.ok (clashFile ["a.spc"]), clashWalk.2) :=
  eq_ok_pair_of_toOption evaluated_clash.1

theorem buildGraph_clash :
    (buildGraph clashOptions { home := ⟨some "", []⟩ } clashWalk.2 (clashFile ["a.spc"])).outcome ⟨clashTree, []⟩ =
      (.ok (), clashBuild.2) :=
  eq_ok_pair_of_toOption evaluated_clash.2.2.1

/-- The files of one name are written to the same place, and the entry keeps its text. -/
theorem outputs_of_buildGraph_clash : ∃ g w,
    (walk {} clashTree (clashFile ["a.spc"]).path).outcome {} = (.ok (clashFile ["a.spc"]), g) ∧
    Path.IsPart (clashFile ["a.spc"]).path.name ∧
    (buildGraph clashOptions { home := ⟨some "", []⟩ } g (clashFile ["a.spc"])).outcome ⟨clashTree, []⟩ = (.ok (), w) ∧
    clashTree.resolve (clashOptions.outputPath clashTree (clashFile ["p", "x.spc"])) =
      clashTree.resolve (clashOptions.outputPath clashTree (clashFile ["q", "x.spc"])) ∧
    clashOptions.Keeps clashTree w.tree (clashFile ["a.spc"]) := by
  obtain ⟨-, hshared, -, -, hkeeps⟩ := outputs_of_buildGraph walk_clash (by decide) (by decide) buildGraph_clash
  rw [evaluated_clash.2.1] at hshared hkeeps
  refine ⟨_, _, walk_clash, by decide, buildGraph_clash, (hshared _ (by decide) _ (by decide)).2 (by decide), ?_⟩
  exact hkeeps _ (by decide) (by decide)

theorem find?_of_keeps (h : clashOptions.Keeps clashTree t f) :
    t.find? (clashOptions.outputPath clashTree f) = clashText f := by
  obtain ⟨text, ⟨u, v, hu, hv, houtput⟩, hfind⟩ := h
  obtain ⟨-, rfl⟩ := Prod.mk.inj houtput
  rw [hfind, clashText, hu]
  simp [Except.toOption, hv]

/-- A build that succeeds may leave a file without its text. -/
theorem exists_output_lost :
    ∃ (tree : FileTree) (o : BuildOptions) (g : ImportGraph) (file : SourceFile) (w : Workspace),
      (walk {} tree file.path).outcome {} = (.ok file, g) ∧ o.form = .python ∧
      (buildGraph o { home := ⟨some "", []⟩ } g file).outcome ⟨tree, []⟩ = (.ok (), w) ∧
      ∃ f ∈ g.preorder tree file, ∃ f' ∈ g.preorder tree file, f.place tree ≠ f'.place tree ∧
        o.outputPath tree f = o.outputPath tree f' ∧ ¬o.Keeps tree w.tree f := by
  refine ⟨clashTree, clashOptions, _, clashFile ["a.spc"], _, walk_clash, rfl, buildGraph_clash,
    clashFile ["p", "x.spc"], ?_, clashFile ["q", "x.spc"], ?_, by decide, by decide, fun hkeeps => ?_⟩
  · rw [evaluated_clash.2.1]
    decide
  · rw [evaluated_clash.2.1]
    decide
  · exact evaluated_clash.2.2.2 (find?_of_keeps hkeeps)

end ImportGraph

end BraceLang
