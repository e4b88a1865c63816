import BraceLang.Proofs.FileWrites
import BraceLang.Proofs.ImportWalk

/-!
# The order of imports

A directory is searched from the time on when its first file is read, so what a module is found to be can depend on
the order in which the imports of the entry stand (`exists_walk_not_permuted`).
-/

namespace BraceLang

open List Relation Imports

variable {t t' : FileTree} {p : Path} {text : String} {file : SourceFile} {x : Path × SourceModule}
  {files trail : List SourceFile}

/-! ### Trees that differ in a text -/

namespace FileTree

def isDirectoryEntry (e : FileEntry) : Bool := decide (e = .directory)

/-- Two trees with the same files and directories, whatever the texts of the files are. -/
structure SameShape (t t' : FileTree) : Prop where
  cwd : t'.cwd = t.cwd
  kind : ∀ place, Option.map isDirectoryEntry ( t'.entry? place) = Option.map isDirectoryEntry ( t.entry? place)

namespace SameShape

variable (h : SameShape t t')

include h

theorem follow (p : Path) (here parts : List String) : t'.follow p here parts = t.follow p here parts := by
  induction parts generalizing here with
  | nil => rfl
  | cons part parts ih =>
    have hkind := h.kind here
    rw [FileTree.follow, FileTree.follow]
    revert hkind
    rcases t'.entry? here with _ | (_ | _) <;> rcases t.entry? here with _ | (_ | _) <;> simp [isDirectoryEntry, ih]

theorem place (p : Path) : t'.place p = t.place p := by
  rw [FileTree.place, FileTree.place, h.follow, h.follow, h.cwd]

theorem resolve : t'.resolve = t.resolve := by
  funext p
  rw [FileTree.resolve, FileTree.resolve, h.cwd]

theorem find?_map (p : Path) : (t'.find? p).map isDirectoryEntry = (t.find? p).map isDirectoryEntry := by
  rw [FileTree.find?, FileTree.find?, h.place]
  cases t.place p with
  | error => rfl
  | ok here => exact h.kind here

theorem isFile : t'.isFile = t.isFile := by
  funext p
  have hkind := h.find?_map p
  rw [FileTree.isFile, FileTree.isFile]
  revert hkind
  rcases t'.find? p with _ | (_ | _) <;> rcases t.find? p with _ | (_ | _) <;> simp [isDirectoryEntry]

theorem contains : t'.contains = t.contains := by
  funext p
  have hkind := congrArg Option.isSome (h.find?_map p)
  rwa [Option.isSome_map, Option.isSome_map] at hkind

theorem at? : SourceFile.at? t' = SourceFile.at? t := by
  funext p
  rw [SourceFile.at?, SourceFile.at?, h.isFile]

theorem entry (hentry : SourceFile.entry t p = .ok file) : SourceFile.entry t' p = .ok file := by
  rw [SourceFile.entry] at hentry ⊢
  rw [h.at?]
  split at hentry
  · exact hentry
  · cases hentry

theorem locate : Imports.locate t' = Imports.locate t := by
  funext directory module
  rw [Imports.locate, Imports.locate, Imports.source?, Imports.source?, h.at?, Imports.other?, Imports.other?, h.isFile]

theorem target? : Imports.target? t' = Imports.target? t := by
  funext lookup module
  rw [Imports.target?, Imports.target?, h.locate]

theorem searched (around : Surroundings) (entry : Path) (files : List SourceFile) :
    ImportGraph.searched around t' entry files = ImportGraph.searched around t entry files := by
  have hadd : ImportGraph.addLookup t' = ImportGraph.addLookup t := by
    funext lookup p
    rw [ImportGraph.addLookup, ImportGraph.addLookup, h.resolve, h.contains]
  rw [ImportGraph.searched, ImportGraph.searched]
  congr 1
  funext lookup file
  rw [ImportGraph.lookupWith, ImportGraph.lookupWith, hadd, h.cwd]

end SameShape

variable {q : Path}

theorem entry_of_write (h : t.write p text = .ok t') :
    t'.cwd = t.cwd ∧ ∀ place, t'.entry? place =
      if place = (t.resolve p).parts then some (.file text) else t.entry? place := by
  obtain ⟨here, hplace, hfree, rfl⟩ := write_eq_ok_iff.1 h
  have hne : here ≠ [] := by
    rintro rfl
    exact hfree rfl
  rw [resolve_of_place hplace]
  exact ⟨rfl, entry?_putEntry hne (.file text)⟩

theorem sameShape_of_write (hfile : t.isFile p) (h : t.write p text = .ok t') : SameShape t t' := by
  obtain ⟨hcwd, hentry⟩ := entry_of_write h
  refine ⟨hcwd, fun place => ?_⟩
  rw [hentry]
  split
  · next hplace =>
    obtain ⟨old, hold⟩ := isFile_iff.1 hfile
    rw [hplace, (standsAt_of_find? hold).1]
    rfl
  · rfl

theorem read?_of_write (hfile : t.isFile p) (h : t.write p text = .ok t') (hq : t.isFile q)
    (hne : t.resolve q ≠ t.resolve p) : t'.read? q = t.read? q := by
  have hshape := sameShape_of_write hfile h
  obtain ⟨-, hentry⟩ := entry_of_write h
  obtain ⟨text', htext'⟩ := isFile_iff.1 hq
  obtain ⟨old, hold⟩ := isFile_iff.1 hfile
  have hparts : (t.resolve q).parts ≠ (t.resolve p).parts := by
    intro hsame
    rw [(standsAt_of_find? htext').2, (standsAt_of_find? hold).2, hsame] at hne
    exact hne rfl
  have hfind : t'.find? q = t.find? q := by
    obtain ⟨text'', htext''⟩ := isFile_iff.1 (hshape.isFile ▸ hq)
    have hstands := (standsAt_of_find? htext'').1
    rw [hshape.resolve, hentry, if_neg hparts, (standsAt_of_find? htext').1] at hstands
    rw [htext'', htext', Option.some.inj hstands]
  rw [read?, read?, hfind]

end FileTree

namespace ImportGraph

variable {around : Surroundings} {entry : Path} {g : ImportGraph}

/-! ### What a successful walk has found -/

/-- A file imports another one if its imports are looked for in the given directories. -/
def Linked (around : Surroundings) (tree : FileTree) (lookup : List Path) (a b : SourceFile) : Prop :=
  ∃ m, SourceModule.load around tree lookup a = .ok m ∧ b ∈ m.imports.sources

section Walked

variable (hfile : t.isFile file.path) (h : Explores around t entry [] [file] {} (.ok ()) g)

include hfile h

theorem loaded_of_explores : Loaded around t g := h.loaded (by simp [Loaded]) (by simpa using hfile)

variable {s : SourceFile} {unit : SourceUnit} {m : SourceModule}

theorem settled_of_linked (hs : ReflTransGen (Linked around t g.lookup) file s) :
    t.isFile s.path ∧ Settled t g [] s := by
  obtain ⟨htodo, new, hnew, -, hsources⟩ := h.completed
  have hloaded := loaded_of_explores hfile h
  induction hs with
  | refl => exact ⟨hfile, htodo file mem_cons_self⟩
  | @tail s s' hs hlink ih =>
    obtain ⟨m, hload, hs'⟩ := hlink
    obtain ⟨x, hx, hplace⟩ := exists_of_mem_names ih.2.1
    have himports := hloaded.imports_eq prefix_rfl ih.1 hload hx hplace
    rw [hnew.mem_iff] at hx
    exact ⟨SourceModule.isFile_of_mem_imports hload hs', hsources x (by simpa using hx) s' (himports ▸ hs')⟩

theorem exists_module_of_linked (hs : ReflTransGen (Linked around t g.lookup) file s) :
    ∃ x ∈ g.modules, x.1 = s.place t ∧ SourceModule.load around t g.lookup s = .ok { x.2 with file := s } := by
  obtain ⟨hsfile, hsettled⟩ := settled_of_linked hfile h hs
  obtain ⟨x, hx, hplace⟩ := exists_of_mem_names hsettled.1
  obtain ⟨hxplace, hxfile, hxload⟩ := loaded_of_explores hfile h x hx
  exact ⟨x, hx, hplace, SourceModule.load_of_resolve hxload hxfile hsfile (hxplace.symm.trans hplace)⟩

theorem edge_of_linked (ha : ReflTransGen (Linked around t g.lookup) file a)
    (hab : Linked around t g.lookup a b) : g.Edge t (a.place t) (b.place t) := by
  obtain ⟨x, hx, hplace, hload⟩ := exists_module_of_linked hfile h ha
  obtain ⟨m, hm, hb⟩ := hab
  rw [hload] at hm
  cases hm
  exact ⟨x, hx, hplace, b, hb, rfl⟩

theorem eq_of_place (hs : ReflTransGen (Linked around t g.lookup) file s) (hplace : s.place t = file.place t) :
    s = file := by
  have hedges {a : SourceFile} (ha : ReflTransGen (Linked around t g.lookup) file a) :
      a = file ∨ TransGen (g.Edge t) (file.place t) (a.place t) := by
    induction ha with
    | refl => exact .inl rfl
    | @tail a b ha hab ih =>
      have hedge := edge_of_linked hfile h ha hab
      rcases ih with rfl | ih
      · exact .inr (.single hedge)
      · exact .inr (ih.tail hedge)
  rcases hedges hs with hs | hcycle
  · exact hs
  · rw [hplace] at hcycle
    exact absurd hcycle (acyclic_of_explores hfile h _)

theorem linked_of_mem (hx : x ∈ g.modules) : ReflTransGen (Linked around t g.lookup) file x.2.file := by
  have hlinked : ∀ a b, g.Link a b → Linked around t g.lookup a b := by
    rintro a b ⟨y, hy, rfl, hb⟩
    exact ⟨y.2, (loaded_of_explores hfile h y hy).2.2, hb⟩
  rcases h.reached x hx with hx | ⟨s, hs, hreach⟩
  · cases hx
  · rw [mem_singleton.1 hs] at hreach
    exact ReflTransGen.mono hlinked _ _ hreach

theorem parent_mem_lookup (hs : ReflTransGen (Linked around t g.lookup) file s) :
    t.resolve s.path.parent ∈ g.lookup := by
  have hlookup := h.lookup_eq rfl
  have hread {f : SourceFile} (hf : f ∈ g.files) (hffile : t.isFile f.path) : t.resolve f.path.parent ∈ g.lookup := by
    rw [hlookup, mem_searched]
    exact ⟨f, hf, f.path.parent, by simp, FileTree.contains_parent hffile, rfl⟩
  have hparts {f : SourceFile} (hf : ReflTransGen (Linked around t g.lookup) file f) (hne : f ≠ file) :
      f.path.parts ≠ [] := by
    rcases hf.cases_tail with hsame | ⟨a, -, m, hload, hmem⟩
    · exact absurd hsame hne
    · obtain ⟨directory, module, -, hsource⟩ := SourceModule.exists_source? hload hmem
      exact parts_ne_nil_of_source? hsource
  by_cases hne : s = file
  · rw [hne]
    exact hread (mem_of_mem_head? (head_files_of_explores h)) hfile
  · -- the module at the place of the file has the same directory
    obtain ⟨hsfile, -⟩ := settled_of_linked hfile h hs
    obtain ⟨x, hx, hplace, -⟩ := exists_module_of_linked hfile h hs
    obtain ⟨hxplace, hxfile, -⟩ := loaded_of_explores hfile h x hx
    have hxne : x.2.file ≠ file := by
      intro hsame
      rw [hsame] at hxplace
      exact hne (eq_of_place hfile h hs (hplace.symm.trans hxplace))
    have hsame : t.resolve s.path = t.resolve x.2.file.path := hplace.symm.trans hxplace
    rw [FileTree.resolve_parent hsfile (hparts hs hne), hsame,
      ← FileTree.resolve_parent hxfile (hparts (linked_of_mem hfile h hx) hxne)]
    exact hread (mem_map_of_mem hx) hxfile

theorem searched_subset (hfiles : ∀ f ∈ files, ReflTransGen (Linked around t g.lookup) file f) :
    searched around t entry files ⊆ g.lookup := by
  have hhead := mem_of_mem_head? (head_files_of_explores h)
  intro d hd
  obtain ⟨f, hf, p, hp, hcontains, rfl⟩ := mem_searched.1 hd
  by_cases hparent : p = f.path.parent
  · rw [hparent]
    exact parent_mem_lookup hfile h (hfiles f hf)
  · have hp' : p ∈ entry :: file.path.parent :: t.cwd :: around.libraries := by
      simp only [mem_cons, hparent, false_or] at hp ⊢
      exact hp.imp_right .inr
    rw [h.lookup_eq rfl, mem_searched]
    exact ⟨file, hhead, p, hp', hcontains, rfl⟩

end Walked

/-! ### Modules that are found in any order -/

/-- On every way from the entry to a file, each module that the file imports is found in a directory that is searched
from the start, or only in the directory of a file of the way. -/
def Placed (around : Surroundings) (tree : FileTree) (entry : Path) (file : SourceFile) (g : ImportGraph) : Prop :=
  ∀ trail s, Way (Linked around tree g.lookup) file trail s → ∀ unit, s.unit tree = .ok unit →
    ∀ module ∈ around.needed unit,
      (∃ d ∈ searched around tree entry [file], (locate tree d module).isSome) ∨
      ∃ f ∈ trail ++ [s], ∀ d ∈ g.lookup, (locate tree d module).isSome → d = tree.resolve f.path.parent

theorem target?_searched (hfile : t.isFile file.path) (h : Explores around t entry [] [file] {} (.ok ()) g)
    (hplaced : Placed around t entry file g) (hway : Way (Linked around t g.lookup) file trail s)
    (hsubset : trail ++ [s] ⊆ files)
    (hhead : files.head? = some file) (hreached : ∀ f ∈ files, ReflTransGen (Linked around t g.lookup) file f)
    (hunit : s.unit t = .ok unit) (hmodule : module ∈ around.needed unit) :
    target? t (searched around t entry files) module = target? t g.lookup module := by
  rcases hplaced trail s hway unit hunit module hmodule with ⟨d, hd, hlocate⟩ | ⟨f, hf, hunique⟩
  · have hstart {fs : List SourceFile} (hfs : fs.head? = some file) :
        target? t (searched around t entry fs) module =
          target? t (searched around t entry [file]) module := by
      have hgrows : [file] <+: fs := by
        obtain ⟨more, rfl⟩ := head?_eq_some_iff.1 hfs
        exact ⟨more, rfl⟩
      refine target?_longer (searched_longer hgrows) ?_
      rw [target?, findSome?_isSome_iff]
      exact ⟨d, hd, hlocate⟩
    rw [hstart hhead, h.lookup_eq rfl, hstart (head_files_of_explores h)]
  · have hffile := (settled_of_linked hfile h (hway.reached f hf)).1
    have hmem : t.resolve f.path.parent ∈ searched around t entry files :=
      mem_searched.2 ⟨f, hsubset hf, f.path.parent, by simp, FileTree.contains_parent hffile, rfl⟩
    have hbelow := searched_subset hfile h hreached
    rw [target?_of_unique hmem fun d hd => hunique d (hbelow hd),
      target?_of_unique (hbelow hmem) hunique]

theorem load_permuted (hshape : t.SameShape t') {lookup lookup' : List Path}
    (hload : SourceModule.load around t lookup s = .ok m) (hunit : s.unit t' = .ok unit)
    (hperm : (around.needed unit).Perm (around.needed m.unit))
    (htarget : ∀ module ∈ around.needed m.unit, target? t lookup' module = target? t lookup module)
    (hlookup : ∀ d ∈ lookup, t.Settled d) (hlookup' : ∀ d ∈ lookup', t'.Settled d) :
    ∃ m', SourceModule.load around t' lookup' s = .ok m' ∧ m'.unit = unit ∧
      m'.imports.sources.Perm m.imports.sources := by
  obtain ⟨-, -, himports, -⟩ := SourceModule.load_eq_ok_iff.1 hload
  have hfound : ∀ module ∈ around.needed unit, target? t' lookup' module = target? t lookup module ∧
      (target? t lookup module).isSome := by
    intro module hmodule
    rw [hperm.mem_iff] at hmodule
    rw [hshape.target?]
    exact ⟨htarget module hmodule, SourceModule.isSome_target? hload hmodule⟩
  refine ⟨⟨s, unit, Imports.find t' lookup' (around.needed unit)⟩, ?_, rfl, ?_⟩
  · refine SourceModule.load_eq_ok_iff.2 ⟨hunit, rfl, rfl, ?_⟩
    rw [left_find, filter_eq_nil_iff]
    intro module hmodule
    obtain ⟨hsame, hsome⟩ := hfound module hmodule
    simpa [hsame, Option.isSome_iff_ne_none] using hsome
  · have hsources : (around.needed unit).filterMap (sourceIn? t' lookup') =
        (around.needed unit).filterMap (sourceIn? t lookup) := by
      refine filterMap_congr fun module hmodule => ?_
      rw [sourceIn?, sourceIn?, (hfound module hmodule).1]
    have hfind := sources_find hlookup' (around.needed unit)
    rw [hsources] at hfind
    rw [himports]
    exact (hfind.trans (hperm.filterMap _)).trans (sources_find hlookup _).symm

/-- In another tree the files that are reached import the same modules, in some order. -/
def SameNeeds (around : Surroundings) (t t' : FileTree) (file : SourceFile) (g : ImportGraph) : Prop :=
  ∀ s, ReflTransGen (Linked around t g.lookup) file s → ∀ unit, s.unit t = .ok unit →
    ∃ unit', s.unit t' = .ok unit' ∧ (around.needed unit').Perm (around.needed unit)

theorem sameNeeds_of_write (hfile : t.isFile file.path) (h : Explores around t entry [] [file] {} (.ok ()) g)
    (hwrite : t.write file.path text = .ok t') (hunit : file.unit t = .ok unit) (hunit' : file.unit t' = .ok unit')
    (hperm : (modulesOf unit'.program).Perm (modulesOf unit.program)) : SameNeeds around t t' file g := by
  intro s hs u hu
  by_cases hsame : s = file
  · rw [hsame, hunit] at hu
    cases hu
    exact ⟨unit', hsame ▸ hunit', hperm.filter _⟩
  · have hplace := mt (eq_of_place hfile h hs) hsame
    rw [SourceFile.unit, ← FileTree.read?_of_write hfile hwrite (settled_of_linked hfile h hs).1 hplace] at hu
    exact ⟨u, hu, .refl _⟩

section Permuted

variable (hfile : t.isFile file.path) (h : Explores around t entry [] [file] {} (.ok ()) g)
  (hplaced : Placed around t entry file g) (hshape : t.SameShape t') (hneeds : SameNeeds around t t' file g)

include hfile h hplaced hshape hneeds

theorem exists_load_permuted (hway : Way (Linked around t g.lookup) file trail s) (hsubset : trail ++ [s] ⊆ files)
    (hhead : files.head? = some file) (hreached : ∀ f ∈ files, ReflTransGen (Linked around t g.lookup) file f)
    (hload : SourceModule.load around t g.lookup s = .ok m) :
    ∃ m', SourceModule.load around t' (searched around t' entry files) s = .ok m' ∧
      (around.needed m'.unit).Perm (around.needed m.unit) ∧ m'.imports.sources.Perm m.imports.sources := by
  obtain ⟨hunit, -, -, -⟩ := SourceModule.load_eq_ok_iff.1 hload
  obtain ⟨unit', hunit', hperm⟩ := hneeds s (hway.reached s (by simp)) _ hunit
  have hlookup : ∀ d ∈ g.lookup, t.Settled d := by
    rw [h.lookup_eq rfl]
    exact fun d => settled_of_mem_searched
  have hlookup' : ∀ d ∈ searched around t entry files, t'.Settled d := by
    rw [← hshape.searched]
    exact fun d => settled_of_mem_searched
  obtain ⟨m', hm', rfl, hsources⟩ := load_permuted hshape hload hunit' hperm (fun module hmodule =>
    target?_searched hfile h hplaced hway hsubset hhead hreached hunit hmodule) hlookup hlookup'
  rw [← hshape.searched] at hm'
  exact ⟨m', hm', hperm, hsources⟩

theorem fixedLinks_permuted : FixedLinks around t' entry file (Linked around t g.lookup) := by
  intro files trail s hway hsubset hhead hreached
  obtain ⟨x, -, -, hload⟩ := exists_module_of_linked hfile h (hway.reached s (by simp))
  obtain ⟨m, hm, -, hsources⟩ :=
    exists_load_permuted hfile h hplaced hshape hneeds hway hsubset hhead hreached hload
  refine ⟨m, hm, fun s' => ?_⟩
  rw [hsources.mem_iff]
  constructor
  · exact fun hs' => ⟨_, hload, hs'⟩
  · rintro ⟨m', hm', hs'⟩
    rw [hload] at hm'
    cases hm'
    exact hs'

variable {g' : ImportGraph} (hloaded : Loaded around t' g')
  (hagrees : Agrees around t' entry file (Linked around t g.lookup) g')

include hloaded hagrees

theorem same_imports (hx : x ∈ g.modules) (hx' : x' ∈ g'.modules) (hsame : x'.1 = x.1) :
    x'.2.imports.sources.Perm x.2.imports.sources ∧ ∀ module ∈ around.needed x.2.unit,
        target? t' g'.lookup module = target? t g.lookup module := by
  -- the file of the first is read once more, after all the files of the second walk and those of a way to it
  have hreach := linked_of_mem hfile h hx
  obtain ⟨hxplace, hxfile, hxload⟩ := loaded_of_explores hfile h x hx
  obtain ⟨hxunit, -, -, -⟩ := SourceModule.load_eq_ok_iff.1 hxload
  have hfiles : g'.files ≠ [] := ne_nil_of_mem (mem_map_of_mem hx')
  obtain ⟨files, trail, hway, hsubset, hhead, hreached, hgrows⟩ := hagrees.exists_files hfiles hreach
  obtain ⟨m, hm, hneeded, hsources⟩ :=
    exists_load_permuted hfile h hplaced hshape hneeds hway hsubset hhead hreached hxload
  obtain ⟨hxplace', hxfile', hxload'⟩ := hloaded x' hx'
  have hresolve : t'.resolve x.2.file.path = t'.resolve x'.2.file.path := by
    rw [hshape.resolve]
    exact hxplace.symm.trans (hsame.symm.trans (hxplace'.trans (congrFun hshape.resolve _)))
  have hagain := SourceModule.load_of_resolve hm (hshape.isFile ▸ hxfile) hxfile' hresolve
  rw [SourceModule.load_longer hgrows hxload'] at hagain
  have heq := Except.ok.inj hagain
  refine ⟨by rw [heq]; exact hsources, fun module hmodule => ?_⟩
  have hsome : (target? t' g'.lookup module).isSome :=
    SourceModule.isSome_target? hxload' (by rw [heq]; exact hneeded.mem_iff.2 hmodule)
  rw [← target?_longer hgrows hsome, hshape.searched, hshape.target?,
    target?_searched hfile h hplaced hway hsubset hhead hreached hxunit hmodule]

theorem names_perm (h' : Explores around t' entry [] [file] {} (.ok ()) g') : g'.names.Perm g.names := by
  have hplace (s : SourceFile) : s.place t' = s.place t := congrFun hshape.resolve s.path
  have hfixed := fixedLinks_permuted hfile h hplaced hshape hneeds
  have hnodup := h.nodup_names (by simp [names])
  have hnodup' := h'.nodup_names (by simp [names])
  refine (perm_ext_iff_of_nodup hnodup' hnodup).2 fun n => ⟨fun hn => ?_, fun hn => ?_⟩
  · obtain ⟨x', hx', rfl⟩ := mem_map.1 hn
    rw [(hloaded x' hx').1, hplace]
    exact (settled_of_linked hfile h (hagrees.reached _ (mem_map_of_mem hx'))).2.1
  · obtain ⟨x, hx, rfl⟩ := mem_map.1 hn
    rw [(loaded_of_explores hfile h x hx).1, ← hplace]
    exact (h'.settled hfixed hagrees hloaded (hshape.isFile ▸ hfile) (linked_of_mem hfile h hx)).2.1

end Permuted

/-- A walk succeeds and finds the same if the imports of its entry stand in another order, provided that on every way to
a file each module that it imports is found from the start or only beside a file of the way. -/
theorem walk_permuted {g₀ : ImportGraph} {text : String} {unit unit' : SourceUnit}
    (hwalk : (walk around t entry).outcome g₀ = (.ok file, g)) (hplaced : Placed around t entry file g)
    (hunit : file.unit t = .ok unit) (hwrite : t.write file.path text = .ok t') (hunit' : file.unit t' = .ok unit')
    (hperm : (modulesOf unit'.program).Perm (modulesOf unit.program)) (g₀' : ImportGraph) :
    ∃ g', (walk around t' entry).outcome g₀' = (.ok file, g') ∧ g'.names.Perm g.names ∧
      ∀ x ∈ g.modules, ∀ x' ∈ g'.modules, x'.1 = x.1 →
        x'.2.imports.sources.Perm x.2.imports.sources ∧
        ∀ module ∈ around.needed x.2.unit,
          target? t' g'.lookup module = target? t g.lookup module := by
  obtain ⟨hentry, h⟩ := explores_of_outcome hwalk
  have hfile := SourceFile.isFile_of_entry hentry
  have hshape := FileTree.sameShape_of_write hfile hwrite
  have hneeds : SameNeeds around t t' file g := sameNeeds_of_write hfile h hwrite hunit hunit' hperm
  obtain ⟨r, g', hwalk', h', hloaded, hagrees, herror⟩ :=
    outcome_walk_agrees (hshape.entry hentry) (fixedLinks_permuted hfile h hplaced hshape hneeds) g₀'
  cases r with
  | error e =>
    -- a cycle of the second walk would be one of the first
    obtain ⟨c, hc, -⟩ := herror e rfl
    obtain ⟨a, hcycle⟩ := hc.transGen (r := g.Edge t) fun a b ha hab => by
      rw [SourceFile.place, SourceFile.place, hshape.resolve]
      exact edge_of_linked hfile h ha hab
    exact absurd hcycle (acyclic_of_explores hfile h a)
  | ok =>
    refine ⟨g', hwalk', names_perm hfile h hplaced hshape hneeds hloaded hagrees h', fun x hx x' hx' hsame => ?_⟩
    exact same_imports hfile h hplaced hshape hneeds hloaded hagrees hx hx' hsame

/-! ### Two trees -/

def mainText (first second : String) : String := "import " ++ first ++ ";\nimport " ++ second ++ ";\n"

/-- An entry beside two directories, one with `x` and one with `y`, and `h` in one of them. -/
def pairTree (directory main y : String) : FileTree where
  cwd := ⟨some "", ["r"]⟩
  entries := [(["r"], .directory), (["r", "p"], .directory), (["r", "p", "x.spc"], .file "import h;\n"),
    (["r", "q"], .directory), (["r", "q", "y.spc"], .file y), (["r", directory, "h.spc"], .file ""),
    (["r", "a.spc"], .file main)]

def pairFile (parts : List String) : SourceFile := { path := ⟨some "", "r" :: parts⟩ }

def pairMain : SourceFile := pairFile ["a.spc"]

theorem exists_unit {modules : List String}
    (h : ((pairMain.unit t).toOption.map fun u => modulesOf u.program) = some modules) :
    ∃ unit, pairMain.unit t = .ok unit ∧ modulesOf unit.program = modules := by
  cases hunit : pairMain.unit t with
  | error =>
    rw [hunit] at h
    cases h
  | ok unit =>
    rw [hunit] at h
    exact ⟨unit, rfl, Option.some.inj h⟩

theorem outcome_of_toOption (h : ((walk {} t pairMain.path).outcome {}).1.toOption = some pairMain) :
    (walk {} t pairMain.path).outcome {} = (.ok pairMain, ((walk {} t pairMain.path).outcome {}).2) := by
  generalize (walk {} t pairMain.path).outcome {} = out at h
  obtain ⟨r, g⟩ := out
  cases r with
  | error => cases h
  | ok =>
    cases h
    rfl

def besideTree : FileTree := pairTree "p" (mainText "p.x" "q.y") "import p.x;\n"

def besideGraph : ImportGraph := ((walk {} besideTree pairMain.path).outcome {}).2

def besideFiles : List SourceFile := [["a.spc"], ["p", "x.spc"], ["q", "y.spc"], ["p", "h.spc"]].map pairFile

theorem placed_beside : Placed {} besideTree pairMain.path pairMain besideGraph := by
  have hstep : ∀ s ∈ besideFiles, ((SourceModule.load {} besideTree besideGraph.lookup s).toOption.map
      (·.imports.sources)).getD [] ⊆ besideFiles := by decide +kernel
  have hfiles {s : SourceFile} (hs : ReflTransGen (Linked {} besideTree besideGraph.lookup) pairMain s) :
      s ∈ besideFiles := by
    induction hs with
    | refl => decide
    | @tail a b _ hlink ih =>
      obtain ⟨m, hload, hb⟩ := hlink
      have hsubset := hstep a ih
      rw [hload] at hsubset
      exact hsubset hb
  have hplaced : ∀ s ∈ besideFiles, ∀ module ∈ ((s.unit besideTree).toOption.map ({} : Surroundings).needed).getD [],
      (∃ d ∈ searched {} besideTree pairMain.path [pairMain], (locate besideTree d module).isSome) ∨
      ∀ d ∈ besideGraph.lookup, (locate besideTree d module).isSome → d = besideTree.resolve s.path.parent := by
    decide +kernel
  intro trail s hway unit hunit module hmodule
  have hs := hfiles (hway.reached s (by simp))
  refine (hplaced s hs module (by rw [hunit]; exact hmodule)).imp_right fun hunique => ⟨s, by simp, hunique⟩

/-- A module beside the file that imports it, in either order. -/
theorem walk_permuted_beside : Placed {} besideTree pairMain.path pairMain besideGraph ∧
    ∃ t' g', besideTree.write pairMain.path (mainText "q.y" "p.x") = .ok t' ∧
      (walk {} t' pairMain.path).outcome {} = (.ok pairMain, g') ∧ g'.names.Perm besideGraph.names := by
  have hwalk : (walk {} besideTree pairMain.path).outcome {} = (.ok pairMain, besideGraph) :=
    outcome_of_toOption (by decide +kernel)
  have hwrite : besideTree.write pairMain.path (mainText "q.y" "p.x") =
      .ok (pairTree "p" (mainText "q.y" "p.x") "import p.x;\n") := rfl
  obtain ⟨unit, hunit, hmodules⟩ := @exists_unit besideTree ["p.x", "q.y"] (by decide +kernel)
  obtain ⟨unit', hunit', hmodules'⟩ :=
    @exists_unit (pairTree "p" (mainText "q.y" "p.x") "import p.x;\n") ["q.y", "p.x"] (by decide +kernel)
  have hperm : (modulesOf unit'.program).Perm (modulesOf unit.program) := by
    rw [hmodules, hmodules']
    decide
  obtain ⟨g', hwalk', hnames, -⟩ := walk_permuted hwalk placed_beside hunit hwrite hunit' hperm {}
  exact ⟨placed_beside, _, g', hwrite, hwalk', hnames⟩

/-- A module in the directory of another import is only found once that has been read. -/
theorem exists_walk_not_permuted : ∃ (t t' : FileTree) (text : String) (g : ImportGraph) (unit unit' : SourceUnit),
    (walk {} t pairMain.path).outcome {} = (.ok pairMain, g) ∧ pairMain.unit t = .ok unit ∧
      t.write pairMain.path text = .ok t' ∧ pairMain.unit t' = .ok unit' ∧
      (modulesOf unit'.program).Perm (modulesOf unit.program) ∧
      ∀ file g', (walk {} t' pairMain.path).outcome {} ≠ (.ok file, g') := by
  let t := pairTree "q" (mainText "q.y" "p.x") ""
  let t' := pairTree "q" (mainText "p.x" "q.y") ""
  obtain ⟨unit, hunit, hmodules⟩ := @exists_unit t ["q.y", "p.x"] (by decide +kernel)
  obtain ⟨unit', hunit', hmodules'⟩ := @exists_unit t' ["p.x", "q.y"] (by decide +kernel)
  refine ⟨t, t', mainText "p.x" "q.y", _, unit, unit', outcome_of_toOption (by decide +kernel), hunit, rfl,
    hunit', ?_, ?_⟩
  · rw [hmodules, hmodules']
    decide
  · intro file g' hwalk
    have hnone : ((walk {} t' pairMain.path).outcome {}).1.toOption = none := by decide +kernel
    rw [hwalk] at hnone
    cases hnone

end ImportGraph

end BraceLang
