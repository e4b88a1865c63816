import BraceLang.Proofs.ImportWalk
import Mathlib.Data.List.Nodup

/-!
# Cycles and sharing

For files that can all be read and whose imports are always the same, a walk ends with a cycle if and only if one is
reached from its entry, and otherwise with a graph in which each of the files that are reached stands once, with its
imports in their order (`walk_cycles`).
-/

namespace BraceLang.ImportGraph

open List Relation

variable {around : Surroundings} {tree : FileTree} {entry : Path} {file : SourceFile}
  {imports : SourceFile → List SourceFile}

variable (around tree entry) in
/-- Every file that is reached can be read and imports the given sources in their order, whatever files have been read
besides those on a way to it. -/
def FixedImports (start : SourceFile) (imports : SourceFile → List SourceFile) : Prop :=
  ∀ (files trail : List SourceFile) (s : SourceFile), Way (fun a b => b ∈ imports a) start trail s →
    trail ++ [s] ⊆ files → files.head? = some start → (∀ f ∈ files, ReflTransGen (fun a b => b ∈ imports a) start f) →
      ∃ m, SourceModule.load around tree (searched around tree entry files) s = .ok m ∧ m.imports.sources = imports s

/-- A file that is reached stands at one place and imports a file at another. -/
def ImportsPlace (tree : FileTree) (start : SourceFile) (imports : SourceFile → List SourceFile) (a b : Path) : Prop :=
  ∃ f, ReflTransGen (fun a b => b ∈ imports a) start f ∧ f.place tree = a ∧ ∃ s ∈ imports f, s.place tree = b

theorem FixedImports.fixedLinks (h : FixedImports around tree entry file imports) :
    FixedLinks around tree entry file fun a b => b ∈ imports a := by
  intro files trail s hway hsubset hhead hreached
  obtain ⟨m, hload, hsources⟩ := h files trail s hway hsubset hhead hreached
  exact ⟨m, hload, fun s' => by rw [hsources]⟩

theorem Explores.exists_module (h : Explores around tree entry [] [file] {} (.ok ()) g)
    (hfixed : FixedImports around tree entry file imports) (hloaded : Loaded around tree g)
    (hg : Agrees around tree entry file (fun a b => b ∈ imports a) g) (hfile : tree.isFile file.path)
    (hf : ReflTransGen (fun a b => b ∈ imports a) file f) :
    ∃ x ∈ g.modules, x.1 = f.place tree ∧ x.2.file.isDirectory = f.isDirectory ∧ x.2.imports.sources = imports f := by
  obtain ⟨hffile, hname, -⟩ := h.settled hfixed.fixedLinks hg hloaded hfile hf
  obtain ⟨x, hx, heq⟩ := mem_map.1 hname
  obtain ⟨hplace, hdirectory⟩ := Prod.mk.inj heq
  have hfiles : g.files ≠ [] := ne_nil_of_mem (mem_map_of_mem hx)
  obtain ⟨files, trail, hway, hsubset, hhead, hreached, hgrows⟩ := hg.exists_files hfiles hf
  obtain ⟨m, hload, hsources⟩ := hfixed files trail f hway hsubset hhead hreached
  rw [← hsources, ← hloaded.imports_eq hgrows hffile hload hx hplace]
  exact ⟨x, hx, hplace, hdirectory, rfl⟩

/-- Each place has one module, if no file is reached by two names. -/
theorem nodup_places_iff {g : ImportGraph} {reached : SourceFile → Prop} (hnodup : g.names.Nodup)
    (hmodule : ∀ f, reached f → ∃ x ∈ g.modules, x.1 = f.place tree ∧ x.2.file.isDirectory = f.isDirectory)
    (hall : ∀ x ∈ g.modules, reached x.2.file ∧ x.1 = x.2.file.place tree) : (g.modules.map Prod.fst).Nodup ↔
      ∀ f f', reached f → reached f' → f.place tree = f'.place tree → f.isDirectory = f'.isDirectory := by
  have hplaces : g.modules.map Prod.fst = g.names.map Prod.fst := by rw [names, List.map_map]; rfl
  constructor
  · intro h f f' hf hf' hplace
    obtain ⟨x, hx, hxplace, hxdirectory⟩ := hmodule f hf
    obtain ⟨x', hx', hxplace', hxdirectory'⟩ := hmodule f' hf'
    have heq : x = x' := inj_on_of_nodup_map h hx hx' (hxplace.trans (hplace.trans hxplace'.symm))
    rw [← hxdirectory, ← hxdirectory', heq]
  · intro h
    rw [hplaces]
    refine hnodup.map_on fun n hn n' hn' hplace => ?_
    obtain ⟨x, hx, rfl⟩ := mem_map.1 hn
    obtain ⟨x', hx', rfl⟩ := mem_map.1 hn'
    obtain ⟨hreached, hxplace⟩ := hall x hx
    obtain ⟨hreached', hxplace'⟩ := hall x' hx'
    have hplace : x.1 = x'.1 := hplace
    exact Prod.ext hplace (h _ _ hreached hreached' (hxplace.symm.trans (hplace.trans hxplace')))

/-- Every file that is reached can be read, and its imports are fixed.  Then a walk, whatever an earlier one has left,
fails with a cycle if and only if one is reached from its entry, the files that it lists are such a cycle, and it does
not fail otherwise.  If it succeeds, every file that is reached is one of the modules, with its imports in their order,
and there are no others; no file is read twice by one name.  No file is read twice at all just if none is reached both
by its own name and by that of its directory. -/
theorem walk_cycles (hentry : SourceFile.entry tree entry = .ok file)
    (hfixed : FixedImports around tree entry file imports) (g₀ : ImportGraph) :
    ∃ r g, (walk around tree entry).outcome g₀ = (r, g) ∧
      ((∃ files, r = .error (.cycle files)) ↔ ∃ a, TransGen (ImportsPlace tree file imports) a a) ∧
      (∀ e, r = .error e → ∃ c, Circular tree file (fun a b => b ∈ imports a) c ∧ e = .cycle (c.map (·.place tree))) ∧
      (∀ f, r = .ok f → f = file ∧ g.names.Nodup ∧
        (∀ f, ReflTransGen (fun a b => b ∈ imports a) file f → ∃ x ∈ g.modules, x.1 = f.place tree ∧
          x.2.file.isDirectory = f.isDirectory ∧ x.2.imports.sources = imports f) ∧
        (∀ x ∈ g.modules, ReflTransGen (fun a b => b ∈ imports a) file x.2.file ∧ x.1 = x.2.file.place tree ∧
          SourceModule.load around tree g.lookup x.2.file = .ok x.2) ∧
        ((g.modules.map Prod.fst).Nodup ↔ ∀ f f', ReflTransGen (fun a b => b ∈ imports a) file f →
          ReflTransGen (fun a b => b ∈ imports a) file f' → f.place tree = f'.place tree →
            f.isDirectory = f'.isDirectory)) := by
  have hfile := SourceFile.isFile_of_entry hentry
  obtain ⟨r, g, hwalk, h, hloaded, hagrees, herror⟩ := outcome_walk_agrees hentry hfixed.fixedLinks g₀
  cases r with
  | error e =>
    obtain ⟨c, hc, rfl⟩ := herror e rfl
    refine ⟨_, g, hwalk, ⟨fun _ => hc.transGen fun f s hf hs => ⟨f, hf, rfl, s, hs, rfl⟩, fun _ => ⟨_, rfl⟩⟩, ?_,
      by simp [Except.map]⟩
    intro e he
    cases he
    exact ⟨c, hc, rfl⟩
  | ok =>
    have hmodule := fun f => h.exists_module (f := f) hfixed hloaded hagrees hfile
    have hacyclic : ¬∃ a, TransGen (ImportsPlace tree file imports) a a := by
      rintro ⟨a, hcycle⟩
      refine acyclic_of_explores hfile h a (TransGen.mono ?_ _ _ hcycle)
      rintro a b ⟨f, hf, rfl, s, hs, rfl⟩
      obtain ⟨x, hx, hplace, -, hsources⟩ := hmodule f hf
      exact ⟨x, hx, hplace, s, hsources ▸ hs, rfl⟩
    refine ⟨_, g, hwalk, ⟨by simp [Except.map], fun hcycle => absurd hcycle hacyclic⟩, by simp [Except.map], ?_⟩
    intro f hf
    have hnodup := h.nodup_names (by simp [names])
    have hall : ∀ x ∈ g.modules, ReflTransGen (fun a b => b ∈ imports a) file x.2.file ∧ x.1 = x.2.file.place tree ∧
        SourceModule.load around tree g.lookup x.2.file = .ok x.2 := by
      intro x hx
      obtain ⟨hplace, -, hload⟩ := hloaded x hx
      exact ⟨hagrees.reached _ (List.mem_map_of_mem hx), hplace, hload⟩
    refine ⟨(Except.ok.inj hf).symm, hnodup, hmodule, hall, nodup_places_iff hnodup (fun f hf => ?_) fun x hx => ?_⟩
    · obtain ⟨x, hx, hplace, hdirectory, -⟩ := hmodule f hf
      exact ⟨x, hx, hplace, hdirectory⟩
    · exact ⟨(hall x hx).1, (hall x hx).2.1⟩

/-- A file that is imported on two ways, and another that is imported twice. -/
def sharedTree : FileTree where
  cwd := ⟨some "", ["r"]⟩
  entries := [(["r"], .directory), (["r", "a.spc"], .file "import b;\nimport c;\nimport b;\n"),
    (["r", "b.spc"], .file "import d;\n"), (["r", "c.spc"], .file "import d;\n"), (["r", "d.spc"], .file "")]

def sharedFile (name : String) : SourceFile := { path := ⟨some "", ["r", name]⟩ }

def sharedFiles : List SourceFile := ["a.spc", "b.spc", "c.spc", "d.spc"].map sharedFile

def sharedImports (f : SourceFile) : List SourceFile :=
  if f = sharedFile "a.spc" then [sharedFile "b.spc", sharedFile "c.spc", sharedFile "b.spc"]
  else if f = sharedFile "b.spc" ∨ f = sharedFile "c.spc" then [sharedFile "d.spc"] else []

def sharedLookup : List Path := [(sharedFile "a.spc").path, sharedTree.cwd]

theorem mem_sharedFiles
    (h : ReflTransGen (fun a b => b ∈ sharedImports a) (sharedFile "a.spc") f) : f ∈ sharedFiles := by
  have hstep : ∀ f ∈ sharedFiles, ∀ s ∈ sharedImports f, s ∈ sharedFiles := by decide
  induction h with
  | refl => decide
  | tail _ hs ih => exact hstep _ ih _ hs

theorem searched_shared {files : List SourceFile} (h : ∀ f ∈ files, f ∈ sharedFiles) :
    files = [] ∨ searched {} sharedTree (sharedFile "a.spc").path files = sharedLookup := by
  have hadd : ∀ f ∈ sharedFiles, ∀ lookup ∈ [[], sharedLookup],
      lookupWith {} sharedTree (sharedFile "a.spc").path lookup f = sharedLookup := by decide +kernel
  induction files using reverseRecOn with
  | nil => exact .inl rfl
  | append_singleton fs f ih =>
    have hf := h f (by simp)
    rw [searched_concat]
    rcases ih fun f hf => h f (mem_append_left _ hf) with rfl | hfs
    · exact .inr (hadd f hf _ (by simp [searched]))
    · rw [hfs]
      exact .inr (hadd f hf _ (by simp))

theorem fixedImports_shared :
    FixedImports {} sharedTree (sharedFile "a.spc").path (sharedFile "a.spc") sharedImports := by
  intro files trail s hway hsubset _ hreached
  have hload : ∀ f ∈ sharedFiles, (SourceModule.load {} sharedTree sharedLookup f).toOption.map (·.imports.sources) =
      some (sharedImports f) := by decide +kernel
  have hne : files ≠ [] := fun hnil => by simp [hnil] at hsubset
  rw [(searched_shared fun f hf => mem_sharedFiles (hreached f hf)).resolve_left hne]
  have hs := hload s (mem_sharedFiles (hway.reached s (by simp)))
  obtain ⟨m, hm, hsources⟩ := Option.map_eq_some_iff.1 hs
  cases hload : SourceModule.load {} sharedTree sharedLookup s with
  | error => simp [hload, Except.toOption] at hm
  | ok =>
    rw [hload] at hm
    cases hm
    exact ⟨m, rfl, hsources⟩

/-- The shared file is no cycle, and what an earlier walk has left is not searched. -/
theorem walk_cycles_shared :
    let p := (sharedFile "a.spc").path
    SourceFile.entry sharedTree p = .ok (sharedFile "a.spc") ∧
      FixedImports {} sharedTree p (sharedFile "a.spc") sharedImports ∧
      ∃ g, (walk {} sharedTree p).outcome { lookup := [⟨some "", ["old"]⟩] } = (.ok (sharedFile "a.spc"), g) ∧
        g.names.Nodup ∧ ∃ x ∈ g.modules, x.1 = (sharedFile "a.spc").path ∧
          x.2.imports.sources = [sharedFile "b.spc", sharedFile "c.spc", sharedFile "b.spc"] := by
  intro p
  have hentry : SourceFile.entry sharedTree p = .ok (sharedFile "a.spc") := rfl
  obtain ⟨r, g, hwalk, -, -, hok⟩ := walk_cycles hentry fixedImports_shared { lookup := [⟨some "", ["old"]⟩] }
  have hsome : ((walk {} sharedTree p).outcome { lookup := [⟨some "", ["old"]⟩] }).1.toOption =
      some (sharedFile "a.spc") := by decide +kernel
  rw [hwalk] at hsome
  cases r with
  | error => cases hsome
  | ok f =>
    obtain ⟨rfl, hnodup, hmodule, -, -⟩ := hok f rfl
    obtain ⟨x, hx, hplace, -, hsources⟩ := hmodule _ .refl
    exact ⟨hentry, fixedImports_shared, g, hwalk, hnodup, x, hx, hplace, hsources⟩

/-- A directory and its main file are imported in one file, and the main file is read twice. -/
theorem exists_walk_twice : ∃ (tree : FileTree) (file : SourceFile) (g : ImportGraph),
    (walk {} tree file.path).outcome {} = (.ok file, g) ∧ ¬ (g.modules.map Prod.fst).Nodup := by
  let tree : FileTree := ⟨⟨some "", ["b.spc"]⟩, [(["b.spc"], .directory),
    (["a.spc"], .file "import b;\nimport __main__;\n"), (["b.spc", "__main__.spc"], .file "")]⟩
  let file : SourceFile := ⟨⟨some "", ["a.spc"]⟩, false⟩
  have hok : ((walk {} tree file.path).outcome {}).1.toOption = some file := by decide +kernel
  have htwice : ¬ (((walk {} tree file.path).outcome {}).2.modules.map Prod.fst).Nodup := by decide +kernel
  generalize hwalk : (walk {} tree file.path).outcome {} = outcome at hok htwice
  obtain ⟨r, g⟩ := outcome
  cases r with
  | error => cases hok
  | ok f =>
    cases Option.some.inj hok
    exact ⟨tree, file, g, hwalk, htwice⟩

end BraceLang.ImportGraph
