import BraceLang.Build.Graph
import Mathlib.Data.List.Induction
import Mathlib.Data.List.Perm.Basic

/-!
# How imports are resolved

A module is resolved to the first of its candidates that is there, directory by directory (`Imports.resolution?`).
-/

namespace BraceLang

open List

namespace Imports

variable {p : Path} {text : String} {found : Imports} {ps : List Path}

/-- The candidates for a module below a directory in the order of their rank: sources, then files that are used as they
are. -/
def options (directory : Path) (module : String) : List (Path ⊕ Path) :=
  (candidates ".spc" directory module).map .inl ++ (candidates ".py" directory module).map .inr

def accepted? (tree : FileTree) : Path ⊕ Path → Option (SourceFile ⊕ Path)
  | .inl p => (SourceFile.at? tree p).map .inl
  | .inr p => if tree.isFile p then some (.inr p) else none

def resolution? (tree : FileTree) (lookup : List Path) (module : String) : Option (SourceFile ⊕ Path) :=
  (lookup.flatMap (options · module)).findSome? (accepted? tree)

/-- What a module is, if the directory with this number decides: those up to it resolve the module, those before it do
not. -/
def decidedAt (tree : FileTree) (lookup : List Path) (k : Nat) (module : String) : Option (SourceFile ⊕ Path) :=
  if (resolution? tree (lookup.take k) module).isNone then resolution? tree (lookup.take (k + 1)) module else none

/-- What modules are, in the order of the directories that decide and then of the modules. -/
def resolved (tree : FileTree) (lookup : List Path) (modules : List String) : List (SourceFile ⊕ Path) :=
  (List.range lookup.length).flatMap fun k => modules.filterMap (decidedAt tree lookup k)

/-- What a module is below a directory: a source, or a file that is used as it is. -/
def locate (tree : FileTree) (directory : Path) (module : String) : Option (SourceFile ⊕ Path) :=
  match source? tree directory module with
  | some file => some (.inl file)
  | none => (other? tree directory module).map .inr

def target? (tree : FileTree) (lookup : List Path) (module : String) : Option (SourceFile ⊕ Path) :=
  lookup.findSome? (locate tree · module)

/-- The source that a module is in the first directory that has it, if it is a source there. -/
def sourceIn? (tree : FileTree) (lookup : List Path) (module : String) : Option SourceFile :=
  (target? tree lookup module).bind Sum.getLeft?

variable {tree : FileTree} {lookup : List Path} {module : String} {modules : List String}

theorem foldl_search (directory : Path) (modules : List String) (found : Imports) :
    (modules.foldl (search tree directory) found).sources =
        (modules.filterMap (source? tree directory)).foldl (share tree) found.sources ∧
      (modules.foldl (search tree directory) found).left =
        found.left ++ modules.filter fun m => (locate tree directory m).isNone := by
  induction modules generalizing found with
  | nil => simp
  | cons m modules ih =>
    obtain ⟨hsources, hleft⟩ := ih (search tree directory found m)
    rw [foldl_cons, hsources, hleft, search]
    cases hsource : source? tree directory m with
    | some => simp [hsource, locate]
    | none =>
      cases hother : other? tree directory m with
      | some | none => simp [hsource, hother, locate]

theorem source?_eq (directory : Path) (module : String) :
    source? tree directory module = (locate tree directory module).bind Sum.getLeft? := by
  rw [locate]
  cases source? tree directory module with
  | some => rfl
  | none => cases other? tree directory module <;> rfl

theorem perm_filterMap_or {α β : Type} (f g : α → Option β) (xs : List α) :
    (xs.filterMap f ++ (xs.filter fun x => (f x).isNone).filterMap g).Perm (xs.filterMap fun x => (f x).or (g x)) := by
  induction xs with
  | nil => exact .nil
  | cons x xs ih =>
    cases hf : f x with
    | some => simpa [hf] using ih
    | none =>
      cases hg : g x with
      | none => simpa [hf, hg] using ih
      | some b =>
        simp only [filterMap_cons, filter_cons, hf, hg, Option.isNone_none, if_true, Option.none_or]
        exact List.perm_middle.trans (ih.cons b)

theorem locate_eq (directory : Path) (module : String) :
    locate tree directory module = (options directory module).findSome? (accepted? tree) := by
  have hsource : ((candidates ".spc" directory module).map .inl).findSome? (accepted? tree) =
      (source? tree directory module).map .inl := by
    rw [findSome?_map, source?, map_findSome?]
    rfl
  have hother : ((candidates ".py" directory module).map .inr).findSome? (accepted? tree) =
      (other? tree directory module).map .inr := by
    simp only [other?, candidates, map_cons, map_nil, findSome?_cons, findSome?_nil, accepted?,
      find?_cons, find?_nil]
    split <;> split <;> simp_all
  rw [options, findSome?_append, hsource, hother, locate]
  cases source? tree directory module <;> rfl

theorem target?_eq (lookup : List Path) (module : String) :
    target? tree lookup module = resolution? tree lookup module := by
  induction lookup with
  | nil => rfl
  | cons directory lookup ih =>
    rw [resolution?, flatMap_cons, findSome?_append, ← locate_eq, ← resolution?, ← ih, target?,
      findSome?_cons]
    cases locate tree directory module <;> rfl

theorem resolution?_concat (directory : Path) : resolution? tree (lookup ++ [directory]) module =
    (resolution? tree lookup module).or (locate tree directory module) := by
  rw [resolution?, flatMap_append, findSome?_append, flatMap_singleton, ← locate_eq]
  rfl

theorem resolved_concat (directory : Path) (modules : List String) : resolved tree (lookup ++ [directory]) modules =
    resolved tree lookup modules ++
      (modules.filter fun m => (resolution? tree lookup m).isNone).filterMap (locate tree directory) := by
  have hbefore : ∀ k ∈ List.range lookup.length,
      modules.filterMap (decidedAt tree (lookup ++ [directory]) k) = modules.filterMap (decidedAt tree lookup k) := by
    intro k hk
    have hk := mem_range.1 hk
    refine congrArg (modules.filterMap ·) (funext fun m => ?_)
    rw [decidedAt, decidedAt, take_append_of_le_length (by omega), take_append_of_le_length (by omega)]
  rw [resolved, length_append, length_singleton, range_succ, flatMap_append, flatMap_singleton,
    flatMap_congr hbefore, ← resolved, filterMap_filter]
  refine congrArg (_ ++ modules.filterMap ·) (funext fun m => ?_)
  rw [decidedAt, take_left, take_of_length_le (by simp), resolution?_concat]
  cases resolution? tree lookup m <;> simp

theorem others_search (directory : Path) (module : String) (found : Imports) :
    (search tree directory found module).others =
      ((locate tree directory module).bind Sum.getRight?).toList.foldl (addOther tree) found.others := by
  rw [search, locate]
  cases source? tree directory module with
  | some => rfl
  | none => cases other? tree directory module <;> rfl

theorem others_foldl_search (directory : Path) (found : Imports) :
    (modules.foldl (search tree directory) found).others =
    ((modules.filterMap (locate tree directory)).filterMap Sum.getRight?).foldl (addOther tree) found.others := by
  induction modules generalizing found with
  | nil => rfl
  | cons m modules ih =>
    rw [foldl_cons, ih, others_search, ← foldl_append, filterMap_cons]
    rcases locate tree directory m with _ | _ | p <;> rfl

theorem find_eq (lookup : List Path) (modules : List String) :
    (find tree lookup modules).left = (modules.filter fun m => (resolution? tree lookup m).isNone) ∧
      (find tree lookup modules).sources =
        ((resolved tree lookup modules).filterMap Sum.getLeft?).foldl (share tree) [] ∧
      (find tree lookup modules).others =
        ((resolved tree lookup modules).filterMap Sum.getRight?).foldl (addOther tree) [] := by
  induction lookup using reverseRecOn with
  | nil => exact ⟨by simp [find, resolution?], rfl, rfl⟩
  | append_singleton lookup directory ih =>
    obtain ⟨hleft, hsources, hothers⟩ := ih
    have hstep : find tree (lookup ++ [directory]) modules = searchAll tree (find tree lookup modules) directory := by
      rw [find, foldl_append]
      rfl
    obtain ⟨hfound, hrest⟩ := @foldl_search tree directory (find tree lookup modules).left
      { find tree lookup modules with left := [] }
    rw [hstep, searchAll, hfound, hrest, others_foldl_search, hleft, hsources, hothers, resolved_concat,
      filterMap_append, filterMap_append, foldl_append, foldl_append, filterMap_filterMap, nil_append, filter_filter]
    refine ⟨?_, by simp only [← source?_eq], rfl⟩
    congr 1
    funext m
    rw [resolution?_concat]
    cases resolution? tree lookup m <;> simp

theorem left_find (lookup : List Path) (modules : List String) :
    (find tree lookup modules).left = modules.filter fun m => (target? tree lookup m).isNone := by
  simp only [(find_eq lookup modules).1, target?_eq]

theorem perm_resolved (lookup : List Path) (modules : List String) :
    (resolved tree lookup modules).Perm (modules.filterMap (resolution? tree lookup)) := by
  induction lookup using reverseRecOn with
  | nil => simp [resolved, resolution?]
  | append_singleton lookup directory ih =>
    have hlast : resolution? tree (lookup ++ [directory]) =
        fun m => (resolution? tree lookup m).or (locate tree directory m) := funext fun m =>
          resolution?_concat directory
    rw [resolved_concat, hlast]
    exact (ih.append_right _).trans (perm_filterMap_or _ _ modules)

theorem perm_sourceIn? (lookup : List Path) (modules : List String) :
    ((resolved tree lookup modules).filterMap Sum.getLeft?).Perm (modules.filterMap (sourceIn? tree lookup)) := by
  have hperm := (@perm_resolved tree lookup modules).filterMap Sum.getLeft?
  rw [filterMap_filterMap] at hperm
  simp only [← target?_eq] at hperm
  exact hperm

/-! ### Files that are found again -/

/-- The first of the files that is known by the same key. -/
def shared (tree : FileTree) (files : List SourceFile) (f : SourceFile) : SourceFile :=
  (files.find? fun k => k.key tree = f.key tree).getD f

theorem key_shared (files : List SourceFile) (f : SourceFile) : (shared tree files f).key tree = f.key tree := by
  rw [shared]
  cases hfind : files.find? fun k => k.key tree = f.key tree with
  | none => rfl
  | some k => simpa using find?_some hfind

theorem shared_congr {f f' : SourceFile} (hf : f ∈ files) (h : f.key tree = f'.key tree) :
    shared tree files f = shared tree files f' := by
  have hsome : (files.find? fun k => k.key tree = f'.key tree).isSome :=
    find?_isSome.2 ⟨f, hf, by simpa using h⟩
  obtain ⟨k, hk⟩ := Option.isSome_iff_exists.1 hsome
  rw [shared, shared, h, hk]
  rfl

theorem foldl_share_eq (files : List SourceFile) : files.foldl (share tree) [] = files.map (shared tree files) := by
  induction files using reverseRecOn with
  | nil => rfl
  | append_singleton files f ih =>
    have hbefore : ∀ g ∈ files, shared tree files g = shared tree (files ++ [f]) g := by
      intro g hg
      have hsome : (files.find? fun k => k.key tree = g.key tree).isSome := find?_isSome.2 ⟨g, hg, by simp⟩
      obtain ⟨k, hk⟩ := Option.isSome_iff_exists.1 hsome
      rw [shared, shared, find?_append, hk]
      rfl
    have hlast : ((files.map (shared tree files)).find? fun k => k.key tree = f.key tree).getD f =
        shared tree (files ++ [f]) f := by
      rw [find?_map, shared, find?_append]
      simp only [Function.comp_def, key_shared]
      cases hfind : files.find? fun k => k.key tree = f.key tree with
      | none => simp
      | some k =>
        have hkey : k.key tree = f.key tree := by simpa using find?_some hfind
        have hfirst : shared tree files k = k := by
          rw [shared, hkey, hfind]
          rfl
        simp [hfirst]
    rw [foldl_append, ih, foldl_cons, foldl_nil, share, hlast, map_append, map_congr_left hbefore]
    rfl

theorem foldl_addOther_eq (ps : List Path) :
    ps.foldl (addOther tree) [] = ps.eraseDupsBy fun p q => tree.resolve p == tree.resolve q := by
  have hloop (ps known : List Path) : ps.foldl (addOther tree) known.reverse =
      eraseDupsBy.loop (fun p q => tree.resolve p == tree.resolve q) ps known := by
    induction ps generalizing known with
    | nil => rfl
    | cons p ps ih =>
      rw [foldl_cons, addOther, eraseDupsBy.loop]
      have hmem : tree.resolve p ∈ known.reverse.map tree.resolve ↔
          (known.any fun q => tree.resolve p == tree.resolve q) := by
        simp only [mem_map, mem_reverse, any_eq_true, beq_iff_eq]
        exact exists_congr fun q => and_congr_right fun _ => eq_comm
      cases hknown : known.any fun q => tree.resolve p == tree.resolve q with
      | true =>
        rw [if_pos (hmem.2 hknown)]
        exact ih known
      | false =>
        rw [if_neg (by rw [hmem, hknown]; exact Bool.false_ne_true), ← reverse_cons]
        exact ih (p :: known)
  exact hloop ps []

theorem nodup_foldl_addOther {ps known : List Path} (h : (known.map tree.resolve).Nodup) :
    ((ps.foldl (addOther tree) known).map tree.resolve).Nodup := by
  induction ps generalizing known with
  | nil => exact h
  | cons p ps ih =>
    refine ih ?_
    rw [addOther]
    split
    · exact h
    · next hnew => simpa [nodup_append, h] using hnew

end Imports

open Imports

/-- The imports of a file are resolved, each to the first of its candidates that is there, unless some have none: those
are reported, in the order of the file.  The sources come in the order of the directories that decide and then of the
file, one for each import, and so do the other files, each of them once.  Two sources are one just if they are the same
file and both are named by it, or both by its directory. -/
theorem SourceModule.load_resolves (around : Surroundings) {tree : FileTree} {lookup : List Path} {file : SourceFile}
    {unit : SourceUnit} (hunit : file.unit tree = .ok unit) :
    let found := resolved tree lookup (around.needed unit)
    ((∃ m, load around tree lookup file = .ok m) ↔
      ∀ module ∈ around.needed unit, (resolution? tree lookup module).isSome) ∧
    (∀ e, load around tree lookup file = .error e → e =
      .unresolved ((around.needed unit).filter fun m => (resolution? tree lookup m).isNone) lookup) ∧
    found.Perm ((around.needed unit).filterMap (resolution? tree lookup)) ∧
    ∀ m, load around tree lookup file = .ok m →
      m.imports.sources = (found.filterMap Sum.getLeft?).map (shared tree (found.filterMap Sum.getLeft?)) ∧
      (∀ f ∈ m.imports.sources, ∀ f' ∈ m.imports.sources,
        f = f' ↔ tree.resolve f.path = tree.resolve f'.path ∧ f.isDirectory = f'.isDirectory) ∧
      m.imports.others =
        (found.filterMap Sum.getRight?).eraseDupsBy (fun p q => tree.resolve p == tree.resolve q) ∧
      (m.imports.others.map tree.resolve).Nodup := by
  intro found
  obtain ⟨hleft, hsources, hothers⟩ := @find_eq tree lookup (around.needed unit)
  have hload : load around tree lookup file = if (find tree lookup (around.needed unit)).left.isEmpty then
      .ok ⟨file, unit, find tree lookup (around.needed unit)⟩ else
      .error (.unresolved (find tree lookup (around.needed unit)).left lookup) := by
    rw [load, hunit]
  rw [hleft] at hload
  refine ⟨?_, fun e he => ?_, perm_resolved lookup _, fun m hm => ?_⟩
  · rw [hload]
    split
    · next hempty =>
      refine iff_of_true ⟨_, rfl⟩ fun module hmodule => ?_
      exact Option.isSome_iff_ne_none.2 fun hnone =>
        List.filter_eq_nil_iff.1 (List.isEmpty_iff.1 hempty) module hmodule (by rw [hnone]; rfl)
    · next hempty =>
      refine iff_of_false (by rintro ⟨m, ⟨⟩⟩) fun hall => hempty ?_
      refine List.isEmpty_iff.2 (List.filter_eq_nil_iff.2 fun module hmodule hnone => ?_)
      have hsome := hall module hmodule
      rw [Option.isNone_iff_eq_none.1 hnone] at hsome
      cases hsome
  · rw [hload] at he
    split at he
    · cases he
    · exact (Except.error.inj he).symm
  · rw [hload] at hm
    split at hm
    · cases hm
      rw [foldl_share_eq] at hsources
      refine ⟨hsources, fun f hf f' hf' => ?_, hothers.trans (foldl_addOther_eq _), ?_⟩
      · rw [hsources] at hf hf'
        obtain ⟨g, hg, rfl⟩ := List.mem_map.1 hf
        obtain ⟨g', -, rfl⟩ := List.mem_map.1 hf'
        refine ⟨fun h => by rw [h]; exact ⟨rfl, rfl⟩, fun h => shared_congr hg ?_⟩
        rw [← key_shared (found.filterMap Sum.getLeft?) g, ← key_shared (found.filterMap Sum.getLeft?) g']
        exact Prod.ext h.1 h.2
      · rw [hothers]
        exact nodup_foldl_addOther List.nodup_nil
    · cases hm

/-- Of three imports one is a directory with a main file, one a source, and one is nowhere. -/
theorem SourceModule.load_resolves_missing :
    let entry (place : List String) (text : String) := (place, FileEntry.file text)
    let tree : FileTree := ⟨⟨some "", []⟩, [(["p"], .directory), (["q"], .directory), (["q", "b.spc"], .directory),
      entry ["a.spc"] "import b;\nimport c.d;\nimport c;\n", entry ["p", "b.py"] "",
      entry ["q", "b.spc", "__main__.spc"] "", entry ["q", "c.spc"] ""]⟩
    let lookup : List Path := [⟨some "", ["p"]⟩, ⟨some "", ["q"]⟩]
    ∃ unit, SourceFile.unit tree ⟨⟨some "", ["a.spc"]⟩, false⟩ = .ok unit ∧
      load {} tree lookup ⟨⟨some "", ["a.spc"]⟩, false⟩ = .error (.unresolved ["c.d"] lookup) := by
  intro entry tree lookup
  have hmodules : (SourceFile.unit tree ⟨⟨some "", ["a.spc"]⟩, false⟩).toOption.map
      (({} : Surroundings).needed ·) = some ["b", "c.d", "c"] := by decide +kernel
  have hleft : (["b", "c.d", "c"].filter fun m => (resolution? tree lookup m).isNone) = ["c.d"] := by decide +kernel
  cases hunit : SourceFile.unit tree ⟨⟨some "", ["a.spc"]⟩, false⟩ with
  | error => rw [hunit] at hmodules; cases hmodules
  | ok unit =>
    have hneeded : ({} : Surroundings).needed unit = ["b", "c.d", "c"] := by
      rw [hunit] at hmodules
      exact Option.some.inj hmodules
    obtain ⟨hsome, hreport, -⟩ := @load_resolves {} tree lookup _ _ hunit
    rw [hneeded] at hsome hreport
    refine ⟨unit, rfl, ?_⟩
    cases hload : load {} tree lookup ⟨⟨some "", ["a.spc"]⟩, false⟩ with
    | ok m => exact absurd (hsome.1 ⟨m, hload⟩ "c.d" (by simp)) (by decide +kernel)
    | error e => rw [hreport e hload, hleft]

/-- A directory and its main file are two sources of one file. -/
theorem SourceModule.exists_load_twice :
    let tree : FileTree := ⟨⟨some "", []⟩, [(["b.spc"], .directory), (["a.spc"], .file "import b;\nimport __main__;\n"),
      (["b.spc", "__main__.spc"], .file "")]⟩
    let main : Path := ⟨some "", ["b.spc", "__main__.spc"]⟩
    ∃ m, load {} tree [⟨some "", []⟩, ⟨some "", ["b.spc"]⟩] ⟨⟨some "", ["a.spc"]⟩, false⟩ = .ok m ∧
      m.imports.sources = [⟨main, true⟩, ⟨main, false⟩] := by
  intro tree main
  have hsources : (load {} tree [⟨some "", []⟩, ⟨some "", ["b.spc"]⟩] ⟨⟨some "", ["a.spc"]⟩, false⟩).toOption.map
      (·.imports.sources) = some [⟨main, true⟩, ⟨main, false⟩] := by decide +kernel
  cases hload : load {} tree [⟨some "", []⟩, ⟨some "", ["b.spc"]⟩] ⟨⟨some "", ["a.spc"]⟩, false⟩ with
  | error => rw [hload] at hsources; cases hsources
  | ok m =>
    rw [hload] at hsources
    exact ⟨m, rfl, Option.some.inj hsources⟩

end BraceLang
