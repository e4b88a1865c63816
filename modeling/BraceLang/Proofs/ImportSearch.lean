import BraceLang.Proofs.ImportResolution
import BraceLang.Proofs.PathNames

/-!
# What a search for imports finds

Two paths that are resolved to the same place lead to the same thing, and a path to a file leads through its
directory.
-/

namespace BraceLang

open List

variable {p : Path} {t : FileTree} {lookup' : List Path} {file : SourceFile}

/-! ### Places of a tree -/

namespace FileTree

variable {q : Path} {front parts : List String}

variable {module : String} {directory d : Path} {here modules last : List String} {file' s : SourceFile}

theorem follow_cons (h : t.follow p here (part :: parts) = .ok last) : t.entry? here = some .directory ∧
    t.follow p (if part = ".." then here.dropLast else here ++ [part]) parts = .ok last := by
  rw [follow] at h
  split at h
  · exact ⟨‹_›, h⟩
  · cases h
  · cases h

theorem follow_append (h : t.follow p here (front ++ back) = .ok last) :
    ∃ mid, t.follow p here front = .ok mid ∧ t.follow p mid back = .ok last := by
  induction front generalizing here with
  | nil => exact ⟨here, rfl, h⟩
  | cons part front ih =>
    obtain ⟨hdirectory, hrest⟩ := follow_cons h
    rw [follow, hdirectory]
    exact ih hrest

theorem follow_path (h : t.follow p here parts = .ok last) : t.follow q here parts = .ok last := by
  induction parts generalizing here with
  | nil => exact h
  | cons part parts ih =>
    obtain ⟨hdirectory, hrest⟩ := follow_cons h
    rw [follow, hdirectory]
    exact ih hrest

theorem follow_eq_foldl (h : t.follow p here parts = .ok last) :
    last = parts.foldl (fun up p => if p = ".." then up.dropLast else up ++ [p]) here := by
  induction parts generalizing here with
  | nil => exact (Except.ok.inj h).symm
  | cons part parts ih => exact ih (follow_cons h).2

def start (t : FileTree) (p : Path) : List String := if p.anchor.isNone then t.cwd.parts else []

theorem place_eq_ok_iff : t.place p = .ok here ↔
    (p.anchor = none ∨ p.anchor = t.cwd.anchor) ∧ t.follow p [] (t.start p ++ p.parts) = .ok here := by
  rw [place, start]
  cases hanchor : p.anchor with
  | none => simp
  | some anchor =>
    by_cases hsame : some anchor = t.cwd.anchor
    · simp [← hsame]
    · simp [hsame]

theorem resolve_of_place (h : t.place p = .ok here) : t.resolve p = { t.cwd with parts := here } := by
  obtain ⟨hanchor, hfollow⟩ := place_eq_ok_iff.1 h
  rw [follow_eq_foldl hfollow, resolve, Path.resolve, start]
  obtain ⟨anchor, parts⟩ := p
  cases anchor with
  | none => rfl
  | some anchor =>
    have hsame : some anchor = t.cwd.anchor := hanchor.resolve_left (Option.some_ne_none anchor)
    exact congrArg (Path.mk · (Path.collapse parts)) hsame

theorem resolve_eq_iff_of_place (hp : t.place p = .ok here) (hq : t.place q = .ok there) :
    t.resolve p = t.resolve q ↔ here = there := by
  rw [resolve_of_place hp, resolve_of_place hq]
  simp

theorem standsAt_of_find? (h : t.find? p = some e) :
    t.entry? (t.resolve p).parts = some e ∧ t.resolve p = { t.cwd with parts := (t.resolve p).parts } := by
  rw [find?] at h
  split at h
  · next here hplace =>
    rw [resolve_of_place hplace]
    exact ⟨h, rfl⟩
  · cases h

theorem isFile_iff : t.isFile p ↔ ∃ text, t.find? p = some (.file text) := by
  rw [isFile]
  split <;> simp_all

theorem read?_eq_of_resolve (hp : t.isFile p) (hq : t.isFile q) (h : t.resolve p = t.resolve q) :
    t.read? p = t.read? q := by
  obtain ⟨text, htext⟩ := isFile_iff.1 hp
  obtain ⟨text', htext'⟩ := isFile_iff.1 hq
  have hentry := (standsAt_of_find? htext).1
  rw [h, (standsAt_of_find? htext').1] at hentry
  rw [read?, read?, htext, htext', Option.some.inj hentry]

theorem resolve_mem_of_isFile (h : t.isFile p) :
    t.resolve p ∈ t.entries.map fun e => ({ t.cwd with parts := e.1 } : Path) := by
  obtain ⟨text, htext⟩ := isFile_iff.1 h
  obtain ⟨hentry, hresolve⟩ := standsAt_of_find? htext
  unfold FileTree.entry? at hentry
  split at hentry
  · cases hentry
  · obtain ⟨front, back, hentries, -⟩ := lookup_eq_some_iff.1 hentry
    rw [hresolve, hentries]
    exact mem_map_of_mem (mem_append_right _ mem_cons_self)

theorem contains_parent (h : t.isFile p) : t.contains p.parent := by
  obtain ⟨text, htext⟩ := isFile_iff.1 h
  rcases eq_nil_or_concat p.parts with hnil | ⟨front, part, hparts⟩
  · have hparent : p.parent = p := by
      rw [Path.parent, hnil, dropLast_nil, ← hnil]
    rw [hparent, contains, htext]
    rfl
  · have hparent : p.parent = { p with parts := front } := by
      rw [Path.parent, hparts, concat_eq_append, dropLast_concat]
    rw [find?] at htext
    split at htext
    · next here hplace =>
      obtain ⟨hanchor, hfollow⟩ := place_eq_ok_iff.1 hplace
      rw [hparts, concat_eq_append, ← List.append_assoc] at hfollow
      obtain ⟨mid, hfront, hpart⟩ := follow_append hfollow
      have hmid : t.place p.parent = .ok mid := by
        rw [hparent]
        exact place_eq_ok_iff.2 ⟨hanchor, follow_path hfront⟩
      rw [contains, find?, hmid]
      simp [(follow_cons hpart).1]
    · cases htext

theorem follow_above (h : t.follow p here parts = .ok last)
    (hhere : ∀ above, above <+: here → above ≠ here → t.entry? above = some .directory) :
    ∀ above, above <+: last → above ≠ last → t.entry? above = some .directory := by
  induction parts generalizing here with
  | nil =>
    cases h
    exact hhere
  | cons part parts ih =>
    obtain ⟨hdirectory, hrest⟩ := follow_cons h
    have hup : ∀ above, above <+: here → t.entry? above = some .directory := by
      intro above habove
      by_cases hsame : above = here
      · rw [hsame]
        exact hdirectory
      · exact hhere above habove hsame
    refine ih hrest fun above habove hne => ?_
    split at habove
    · exact hup above (habove.trans <| dropLast_prefix here)
    · next hpart =>
      rw [if_neg hpart] at hne
      exact hup above ((prefix_concat_iff.1 habove).resolve_left hne)

theorem name_ne_up (h : t.isFile p) : p.name ≠ ".." := by
  obtain ⟨text, htext⟩ := isFile_iff.1 h
  intro hname
  rcases eq_nil_or_concat p.parts with hnil | ⟨front, part, hparts⟩
  · simp [Path.name, hnil] at hname
  · obtain rfl : part = ".." := by simpa [Path.name, hparts] using hname
    rw [find?] at htext
    split at htext
    · next here hplace =>
      have hfollow := (place_eq_ok_iff.1 hplace).2
      rw [hparts, concat_eq_append, ← List.append_assoc] at hfollow
      obtain ⟨mid, hfront, hup⟩ := follow_append hfollow
      have hhere : mid.dropLast = here := Except.ok.inj (follow_cons hup).2
      have hdirectory : t.entry? here = some .directory := by
        rw [← hhere]
        rcases eq_nil_or_concat mid with rfl | ⟨init, part, rfl⟩
        · rfl
        · rw [concat_eq_append, dropLast_concat]
          exact follow_above hfront (by simp) init (by simp) (by simp)
      rw [hdirectory] at htext
      cases htext
    · cases htext

theorem resolve_parent (h : t.isFile p) (hparts : p.parts ≠ []) : t.resolve p.parent = (t.resolve p).parent := by
  rw [Path.eq_child_of_parts hparts, resolve_child t (name_ne_up h), Path.parent_child, Path.parent_child]

theorem resolve_eq_child (h : t.isFile p) (hparts : p.parts ≠ []) :
    t.resolve p = (t.resolve p).parent.child p.name := by
  rw [← resolve_parent h hparts, ← resolve_child t (name_ne_up h), ← Path.eq_child_of_parts hparts]

theorem foldl_of_notMem (h : ".." ∉ parts) (up : List String) :
    parts.foldl (fun up p => if p = ".." then up.dropLast else up ++ [p]) up = up ++ parts := by
  induction parts generalizing up with
  | nil => simp
  | cons part parts ih =>
    obtain ⟨hpart, hparts⟩ := not_or.1 (mt mem_cons.2 h)
    rw [foldl_cons, if_neg (Ne.symm hpart), ih hparts, append_assoc, singleton_append]

theorem up_notMem_collapse (parts : List String) : ".." ∉ Path.collapse parts := by
  induction parts using reverseRecOn with
  | nil => exact not_mem_nil
  | append_singleton parts part ih =>
    rw [Path.collapse, foldl_append, ← Path.collapse, foldl_cons, foldl_nil]
    split
    · exact fun hmem => ih ((dropLast_sublist _).mem hmem)
    · next hpart => simpa [ih] using Ne.symm hpart

/-- The path has no steps up, and it starts where the resolved ones do. -/
def Settled (t : FileTree) (p : Path) : Prop := ".." ∉ p.parts ∧ (p.anchor = none → t.cwd.anchor = none)

theorem settled_resolve (t : FileTree) (p : Path) : t.Settled (t.resolve p) := by
  rw [resolve, Path.resolve]
  split
  · next hanchor => exact ⟨up_notMem_collapse _, fun hnone => by simp_all⟩
  · exact ⟨up_notMem_collapse _, id⟩

theorem Settled.eq_of_resolve (hp : t.Settled p) (hq : t.Settled q) (h : t.resolve p = t.resolve q) : p = q := by
  obtain ⟨anchor, parts⟩ := p
  obtain ⟨anchor', parts'⟩ := q
  obtain ⟨hparts, hanchor⟩ := hp
  obtain ⟨hparts', hanchor'⟩ := hq
  have hcollapse {parts : List String} (hup : ".." ∉ parts) : Path.collapse (t.cwd.parts ++ parts) =
      Path.collapse t.cwd.parts ++ parts := by
    rw [Path.collapse, foldl_append, ← Path.collapse, foldl_of_notMem hup]
  simp only [resolve, Path.resolve] at h
  cases anchor <;> cases anchor' <;> simp_all [Path.collapse, foldl_of_notMem]

theorem sublist_of_mem_splitOn {l part : List Char} (h : part ∈ l.splitOn c) : part.Sublist l := by
  induction l generalizing part with
  | nil => simp_all
  | cons x xs ih =>
    rw [splitOn, splitOnP_cons_eq_if_modifyHead, ← splitOn] at h
    obtain ⟨y, ys, hsplit⟩ := exists_cons_of_ne_nil (splitOn_ne_nil c xs)
    rw [hsplit] at h ih
    split at h
    · rcases mem_cons.1 h with rfl | h
      · exact nil_sublist _
      · exact (ih h).cons x
    · rcases mem_cons.1 h with rfl | h
      · exact (ih (.head ys)).cons_cons x
      · exact (ih (.tail y h)).cons x

theorem Settled.join (hp : t.Settled p) {text : String} (h : text.toList.count '.' ≤ 1) : t.Settled (p.join text) := by
  refine ⟨fun hmem => ?_, hp.2⟩
  rcases mem_append.1 hmem with hmem | hmem
  · exact hp.1 hmem
  · obtain ⟨part, hpart, heq⟩ := mem_map.1 (mem_filter.1 hmem).1
    have hcount := (sublist_of_mem_splitOn hpart).count_le '.'
    rw [← String.toList_inj, String.toList_ofList] at heq
    rw [heq] at hcount
    exact absurd (Nat.le_trans hcount h) (by decide)

end FileTree

/-! ### The first directory decides -/

theorem SourceFile.isFile_of_at? (h : SourceFile.at? t p = some file) : t.isFile file.path := by
  rw [SourceFile.at?] at h
  split at h
  · cases h
    assumption
  · split at h
    · cases h
      assumption
    · cases h

theorem SourceFile.isFile_of_entry (h : SourceFile.entry t p = .ok file) : t.isFile file.path := by
  rw [SourceFile.entry] at h
  split at h
  · next found hfound =>
    cases h
    exact isFile_of_at? hfound
  · cases h

namespace Imports

variable {tree : FileTree} {lookup : List Path} {file : SourceFile}

theorem find_append (more : List Path) (h : (find tree lookup modules).left = []) :
    find tree (lookup ++ more) modules = find tree lookup modules := by
  rw [find, foldl_append]
  change more.foldl (searchAll tree) (find tree lookup modules) = _
  induction more with
  | nil => rfl
  | cons directory more ih =>
    have hstay : searchAll tree (find tree lookup modules) directory = find tree lookup modules := by
      rw [searchAll, h, foldl_nil, ← h]
    rw [foldl_cons, hstay, ih]

theorem exists_of_sourceIn? (h : sourceIn? tree lookup module = some file) :
    ∃ directory ∈ lookup, source? tree directory module = some file := by
  obtain ⟨found, hfound, hleft⟩ := Option.bind_eq_some_iff.1 h
  obtain ⟨directory, hdirectory, hlocate⟩ := exists_of_findSome?_eq_some hfound
  rw [locate] at hlocate
  split at hlocate
  · next source hsource =>
    cases hlocate
    cases hleft
    exact ⟨directory, hdirectory, hsource⟩
  · obtain ⟨other, -, hother⟩ := Option.map_eq_some_iff.1 hlocate
    subst hother
    cases hleft

theorem mem_of_mem_foldl_share {known files : List SourceFile} (h : file ∈ files.foldl (share tree) known) :
    file ∈ known ∨ file ∈ files := by
  induction files generalizing known with
  | nil => exact .inl h
  | cons f files ih =>
    rcases ih h with h | h
    · rcases mem_append.1 h with h | h
      · exact .inl h
      · cases hfind : known.find? fun k => k.key tree = f.key tree with
        | some k =>
          rw [hfind] at h
          exact .inl (mem_singleton.1 h ▸ mem_of_find?_eq_some hfind)
        | none =>
          rw [hfind] at h
          exact .inr (mem_singleton.1 h ▸ mem_cons_self)
    · exact .inr (mem_cons_of_mem f h)

theorem exists_of_mem_sources (h : file ∈ (find tree lookup modules).sources) :
    ∃ directory, ∃ module ∈ modules, source? tree directory module = some file := by
  rw [(find_eq lookup modules).2.1] at h
  have hfound := (mem_of_mem_foldl_share h).resolve_left not_mem_nil
  obtain ⟨m, hmem, hm⟩ := mem_filterMap.1 ((perm_sourceIn? lookup modules).mem_iff.1 hfound)
  obtain ⟨directory, -, hsource⟩ := exists_of_sourceIn? hm
  exact ⟨directory, m, hmem, hsource⟩

theorem settled_of_source? (hdirectory : tree.Settled directory) (h : source? tree directory module = some file) :
    tree.Settled file.path := by
  have hbelow : (module.toList.map fun c => if c = '.' then '/' else c).count '.' = 0 := by
    rw [count_eq_zero]
    intro hmem
    obtain ⟨c, -, hc⟩ := mem_map.1 hmem
    split at hc
    · cases hc
    · exact absurd hc ‹_›
  obtain ⟨p, hp, hfile⟩ := exists_of_findSome?_eq_some h
  have hsettled : tree.Settled p := by
    rcases mem_pair.1 hp with rfl | rfl
    · refine hdirectory.join ?_
      rw [String.toList_append, count_append, String.toList_ofList, hbelow]
      decide
    · refine (hdirectory.join ?_).join (by decide)
      rw [String.toList_ofList, hbelow]
      exact Nat.zero_le 1
  rw [SourceFile.at?] at hfile
  split at hfile
  · cases hfile
    exact hsettled
  · obtain ⟨-, hfile⟩ := Option.ite_none_right_eq_some.1 hfile
    cases hfile
    exact hsettled.join (by decide)

theorem foldl_share_of_settled {known files : List SourceFile} (h : ∀ f ∈ known ++ files, tree.Settled f.path) :
    files.foldl (share tree) known = known ++ files := by
  induction files generalizing known with
  | nil => simp
  | cons f files ih =>
    have hshare : share tree known f = known ++ [f] := by
      rw [share]
      cases hfind : known.find? fun k => k.key tree = f.key tree with
      | none => rfl
      | some k =>
        have hkey : k.key tree = f.key tree := by simpa using find?_some hfind
        obtain ⟨hplace, hdirectory⟩ := Prod.mk.inj hkey
        have hpath := (h k (mem_append_left _ (mem_of_find?_eq_some hfind))).eq_of_resolve (h f (by simp)) hplace
        obtain ⟨path, isDirectory⟩ := k
        obtain ⟨path', isDirectory'⟩ := f
        cases hpath
        cases hdirectory
        rfl
    rw [foldl_cons, hshare, ih (by simpa using h), append_assoc, singleton_append]

/-- Where no directory is named in two ways, the sources are found as they are. -/
theorem sources_find (hlookup : ∀ d ∈ lookup, tree.Settled d) (modules : List String) :
    (find tree lookup modules).sources.Perm (modules.filterMap (sourceIn? tree lookup)) := by
  have hsettled : ∀ f ∈ (resolved tree lookup modules).filterMap Sum.getLeft?, tree.Settled f.path := by
    intro f hf
    obtain ⟨m, -, hm⟩ := mem_filterMap.1 ((perm_sourceIn? lookup modules).mem_iff.1 hf)
    obtain ⟨directory, hdirectory, hsource⟩ := exists_of_sourceIn? hm
    exact settled_of_source? (hlookup directory hdirectory) hsource
  rw [(find_eq lookup modules).2.1, foldl_share_of_settled hsettled]
  exact perm_sourceIn? lookup modules

theorem isFile_of_source? (h : source? tree directory module = some file) : tree.isFile file.path := by
  obtain ⟨p, -, hp⟩ := exists_of_findSome?_eq_some h
  exact SourceFile.isFile_of_at? hp

theorem parts_ne_nil_of_source? (h : source? tree directory module = some file) : file.path.parts ≠ [] := by
  have hjoin (d : Path) {text : String} {c : Char} (hc : c ∈ text.toList) (hslash : c ≠ '/') (hpoint : c ≠ '.') :
      (d.join text).parts ≠ [] := append_ne_nil_of_right_ne_nil _ (Path.partsOf_ne_nil hc hslash hpoint)
  obtain ⟨p, hp, hfile⟩ := exists_of_findSome?_eq_some h
  have hparts : p.parts ≠ [] := by
    rcases mem_pair.1 hp with rfl | rfl
    · exact hjoin _ (c := 's') (by simp) (by decide) (by decide)
    · exact hjoin _ (c := 's') (by simp) (by decide) (by decide)
  rw [SourceFile.at?] at hfile
  split at hfile
  · cases hfile
    exact hparts
  · split at hfile
    · cases hfile
      exact hjoin _ (c := 's') (by decide) (by decide) (by decide)
    · cases hfile

theorem target?_of_unique (hmem : directory ∈ lookup)
    (hunique : ∀ d ∈ lookup, (locate tree d module).isSome → d = directory) :
    target? tree lookup module = locate tree directory module := by
  cases hlocate : locate tree directory module with
  | none =>
    refine findSome?_eq_none_iff.2 fun d hd => ?_
    by_contra hne
    rw [hunique d hd (Option.isSome_iff_ne_none.2 hne)] at hne
    exact hne hlocate
  | some =>
    have hsome : (target? tree lookup module).isSome := by
      rw [target?, findSome?_isSome_iff]
      exact ⟨directory, hmem, by rw [hlocate]; rfl⟩
    obtain ⟨found', hfound'⟩ := Option.isSome_iff_exists.1 hsome
    obtain ⟨d, hd, hlocate'⟩ := exists_of_findSome?_eq_some hfound'
    rw [hunique d hd (by rw [hlocate']; rfl), hlocate] at hlocate'
    rw [hfound', hlocate']

theorem target?_longer (hgrows : lookup <+: lookup') (h : (target? tree lookup module).isSome) :
    target? tree lookup' module = target? tree lookup module := by
  obtain ⟨more, rfl⟩ := hgrows
  obtain ⟨found, hfound⟩ := Option.isSome_iff_exists.1 h
  rw [target?, findSome?_append, ← target?, hfound]
  rfl

end Imports

/-! ### Reading one file -/

namespace SourceModule

variable {around : Surroundings} {tree : FileTree} {lookup : List Path} {file : SourceFile} {m : SourceModule}

theorem load_eq_ok_iff : load around tree lookup file = .ok m ↔
    file.unit tree = .ok m.unit ∧ m.file = file ∧ m.imports = Imports.find tree lookup (around.needed m.unit) ∧
      m.imports.left = [] := by
  rw [load]
  split
  · next e he => simp [he]
  · next unit hunit =>
    rw [hunit]
    by_cases hleft : (Imports.find tree lookup (around.needed unit)).left = []
    · simp only [hleft, isEmpty_nil, if_true, Except.ok.injEq]
      constructor
      · rintro rfl
        exact ⟨rfl, rfl, rfl, hleft⟩
      · rintro ⟨rfl, rfl, himports, -⟩
        rw [← himports]
    · simp only [List.isEmpty_iff, hleft, if_false, Except.ok.injEq, reduceCtorEq, false_iff]
      rintro ⟨rfl, -, himports, hnil⟩
      rw [himports] at hnil
      exact hleft hnil

theorem isSome_target? (h : load around tree lookup file = .ok m) (hmodule : module ∈ around.needed m.unit) :
    (Imports.target? tree lookup module).isSome := by
  obtain ⟨-, -, himports, hleft⟩ := load_eq_ok_iff.1 h
  rw [himports, Imports.left_find, filter_eq_nil_iff] at hleft
  simpa [Option.isSome_iff_ne_none] using hleft module hmodule

theorem load_longer (hgrows : lookup <+: lookup')
    (h : load around tree lookup file = .ok m) : load around tree lookup' file = .ok m := by
  obtain ⟨more, rfl⟩ := hgrows
  rw [load_eq_ok_iff] at h ⊢
  obtain ⟨hunit, hfile, himports, hleft⟩ := h
  refine ⟨hunit, hfile, ?_, hleft⟩
  rw [Imports.find_append more (himports ▸ hleft), himports]

theorem load_of_resolve (h : load around tree lookup file = .ok m) (hfile : tree.isFile file.path)
    (hfile' : tree.isFile file'.path) (hresolve : tree.resolve file.path = tree.resolve file'.path) :
    load around tree lookup file' = .ok { m with file := file' } := by
  obtain ⟨hunit, -, himports, hleft⟩ := load_eq_ok_iff.1 h
  refine load_eq_ok_iff.2 ⟨?_, rfl, himports, hleft⟩
  rw [SourceFile.unit, ← FileTree.read?_eq_of_resolve hfile hfile' hresolve]
  exact hunit

theorem imports_eq_of_resolve (h : load around tree lookup file = .ok m)
    (h' : load around tree lookup file' = .ok m') (hfile : tree.isFile file.path) (hfile' : tree.isFile file'.path)
    (hresolve : tree.resolve file.path = tree.resolve file'.path) : m.imports = m'.imports := by
  rw [load_of_resolve h hfile hfile' hresolve] at h'
  cases h'
  rfl

theorem exists_source? (h : load around tree lookup file = .ok m) (hs : s ∈ m.imports.sources) :
    ∃ directory, ∃ module ∈ around.needed m.unit, Imports.source? tree directory module = some s := by
  obtain ⟨-, -, himports, -⟩ := load_eq_ok_iff.1 h
  rw [himports] at hs
  exact Imports.exists_of_mem_sources hs

theorem isFile_of_mem_imports (h : load around tree lookup file = .ok m) (hs : s ∈ m.imports.sources) :
    tree.isFile s.path := by
  obtain ⟨directory, module, -, hsource⟩ := exists_source? h hs
  exact Imports.isFile_of_source? hsource

end SourceModule

/-! ### The directories that are searched -/

namespace ImportGraph

variable {around : Surroundings} {tree : FileTree} {entry : Path}

theorem prefix_addLookup (lookup : List Path) (p : Path) : lookup <+: addLookup tree lookup p := by
  rw [addLookup]
  split
  · exact prefix_append ..
  · exact prefix_rfl

theorem mem_addLookup {lookup : List Path} :
    d ∈ addLookup tree lookup p ↔ d ∈ lookup ∨ tree.contains p ∧ tree.resolve p = d := by
  rw [addLookup]
  split
  · next h =>
    obtain ⟨-, hcontains⟩ := Bool.and_eq_true_iff.1 h
    simp [hcontains, eq_comm]
  · next h =>
    constructor
    · exact Or.inl
    · rintro (hmem | ⟨hcontains, rfl⟩)
      · exact hmem
      · simpa [hcontains] using h

theorem prefix_foldl_addLookup (lookup ps : List Path) : lookup <+: ps.foldl (addLookup tree) lookup := by
  induction ps generalizing lookup with
  | nil => exact prefix_rfl
  | cons p ps ih => exact (prefix_addLookup lookup p).trans (ih _)

theorem mem_foldl_addLookup {lookup ps : List Path} :
    d ∈ ps.foldl (addLookup tree) lookup ↔ d ∈ lookup ∨ ∃ p ∈ ps, tree.contains p ∧ tree.resolve p = d := by
  induction ps generalizing lookup with
  | nil => simp
  | cons p ps ih => simp [ih, mem_addLookup, or_assoc]

theorem prefix_lookupWith (lookup : List Path) (file : SourceFile) :
    lookup <+: lookupWith around tree entry lookup file :=
  prefix_foldl_addLookup ..

variable (around tree entry) in
def searched (files : List SourceFile) : List Path := files.foldl (lookupWith around tree entry) []

theorem searched_concat (files : List SourceFile) (file : SourceFile) :
    searched around tree entry (files ++ [file]) =
      lookupWith around tree entry (searched around tree entry files) file := by
  rw [searched, foldl_append]
  rfl

theorem searched_longer (h : files <+: files') :
    searched around tree entry files <+: searched around tree entry files' := by
  obtain ⟨more, rfl⟩ := h
  rw [searched, searched, foldl_append]
  generalize files.foldl (lookupWith around tree entry) [] = lookup
  induction more generalizing lookup with
  | nil => exact prefix_rfl
  | cons file more ih => exact (prefix_lookupWith lookup file).trans (ih _)

theorem mem_searched : d ∈ searched around tree entry files ↔
    ∃ file ∈ files, ∃ p ∈ entry :: file.path.parent :: tree.cwd :: around.libraries, tree.contains p ∧
      tree.resolve p = d := by
  induction files using reverseRecOn with
  | nil => simp [searched]
  | append_singleton files file ih =>
    rw [searched_concat, lookupWith, mem_foldl_addLookup, ih]
    simp only [mem_append, mem_singleton, or_and_right, exists_or, exists_eq_left]

theorem settled_of_mem_searched (h : d ∈ searched around tree entry files) : tree.Settled d := by
  obtain ⟨-, -, p, -, -, rfl⟩ := mem_searched.1 h
  exact tree.settled_resolve p

end ImportGraph

end BraceLang
