import BraceLang.Proofs.ImportSearch
import Mathlib.Data.List.Chain
import Mathlib.Logic.Relation

/-!
# The walk of the imports

`ImportGraph.Explores` says what a walk does with the files that are still to be looked at: a file on the trail ends
it with a cycle, one that has been read is passed over, and any other is read and its imports are explored first.
-/

namespace BraceLang

open List Relation SourceModule

variable {α : Type} {s start : SourceFile} {g g' : ImportGraph} {todo trail : List SourceFile}
  {r : Except BuildError Unit} {l l' : List (Path × SourceModule)} {link : SourceFile → SourceFile → Prop}
  {e : BuildError} {a : α}

/-! ### Steps of a walk -/

section

variable {ε σ β : Type} {x : ExceptT ε (StateM σ) α} {f : α → ExceptT ε (StateM σ) β} {s s' : σ}

theorem run_bind_ok (h : x.run s = (.ok a, s')) : (x >>= f).run s = (f a).run s' := by
  change (ExceptT.bindCont f (x.run s).1) (x.run s).2 = _
  rw [h]
  rfl

theorem run_bind_error {e : ε} (h : x.run s = (.error e, s')) : (x >>= f).run s = (.error e, s') := by
  change (ExceptT.bindCont f (x.run s).1) (x.run s).2 = _
  rw [h]
  rfl

end

def Walk.outcome {α : Type} (x : Walk α) (g : ImportGraph) : Except BuildError α × ImportGraph := x.run g

namespace Walk

variable {β : Type} {x : Walk α} {f : α → Walk β}

theorem outcome_bind_ok (h : x.outcome g = (.ok a, g')) : (x >>= f).outcome g = (f a).outcome g' :=
  run_bind_ok h

theorem outcome_bind_error (h : x.outcome g = (.error e, g')) : (x >>= f).outcome g = (.error e, g') :=
  run_bind_error h

end Walk

abbrev SourceFile.place (tree : FileTree) (file : SourceFile) : Path := tree.resolve file.path

namespace ImportGraph

variable {around : Surroundings} {tree : FileTree} {entry : Path} {f : SourceFile} {s' : SourceFile}

def files (g : ImportGraph) : List SourceFile := g.modules.map (·.2.file)

def names (g : ImportGraph) : List (Path × Bool) := g.modules.map fun x => (x.1, x.2.file.isDirectory)

variable {file : SourceFile} {m : SourceModule} {before : Path → Prop}

theorem holds_iff : g.holds tree.resolve file ↔ (file.place tree, file.isDirectory) ∈ g.names := by
  simp [holds, names, SourceFile.place]

variable (around tree entry) in
def opened (g : ImportGraph) (file : SourceFile) (m : SourceModule) : ImportGraph where
  lookup := lookupWith around tree entry g.lookup file
  modules := g.modules ++ [(file.place tree, m)]

variable (around tree entry) in
def stuck (g : ImportGraph) (file : SourceFile) : ImportGraph :=
  { g with lookup := lookupWith around tree entry g.lookup file }

variable (around tree entry) in
def loadIn (g : ImportGraph) (file : SourceFile) : Except BuildError SourceModule :=
  load around tree (lookupWith around tree entry g.lookup file) file

def noteModule (tree : FileTree) (file : SourceFile) : Except BuildError SourceModule → Walk (List SourceFile)
  | .error e => throw e
  | .ok m => do
    modify fun g => { g with modules := g.modules ++ [(tree.resolve file.path, m)] }
    return m.imports.sources

theorem outcome_read_ok (h : loadIn around tree entry g file = .ok m) :
    (read around tree entry file).outcome g = (.ok m.imports.sources, opened around tree entry g file m) := by
  change (noteModule tree file (loadIn around tree entry g file)).outcome (stuck around tree entry g file) = _
  rw [h]
  rfl

theorem outcome_read_error (h : loadIn around tree entry g file = .error e) :
    (read around tree entry file).outcome g = (.error e, stuck around tree entry g file) := by
  change (noteModule tree file (loadIn around tree entry g file)).outcome (stuck around tree entry g file) = _
  rw [h]
  rfl

def visitImport (resolve : Path → Path) (opening : SourceFile → Walk (List SourceFile)) (fuel : Nat)
    (path : List Path) (imported : SourceFile) : Walk Unit := do
  let target := resolve imported.path
  if target ∈ path then throw (.cycle (path.drop (path.idxOf target) ++ [target]))
  if !(← get).holds resolve imported then visit resolve opening fuel path imported

theorem visit_succ (resolve : Path → Path) (opening : SourceFile → Walk (List SourceFile)) (fuel : Nat)
    (path : List Path) (file : SourceFile) :
    visit resolve opening (fuel + 1) path file =
      opening file >>= fun next => next.forM (visitImport resolve opening fuel (path ++ [resolve file.path])) :=
  rfl

theorem outcome_visitImport (resolve : Path → Path) (opening : SourceFile → Walk (List SourceFile)) (fuel : Nat)
    (path : List Path) (imported : SourceFile) (g : ImportGraph) :
    (visitImport resolve opening fuel path imported).outcome g =
      if resolve imported.path ∈ path then
        (.error (.cycle (path.drop (path.idxOf (resolve imported.path)) ++ [resolve imported.path])), g)
      else if g.holds resolve imported then (.ok (), g)
      else (visit resolve opening fuel path imported).outcome g := by
  unfold visitImport
  by_cases hpath : resolve imported.path ∈ path
  · simp only [hpath, if_true]
    rfl
  · simp only [hpath, if_false]
    change (if (!g.holds resolve imported) then visit resolve opening fuel path imported
      else pure () : Walk Unit).outcome g = _
    cases hheld : g.holds resolve imported <;> rfl

/-! ### Explorations -/

variable (around tree entry) in
/-- What comes of looking at files, where `trail` is the way to them.  A file that is read has its imports explored
before the files that come after it. -/
inductive Explores : List SourceFile → List SourceFile → ImportGraph → Except BuildError Unit → ImportGraph → Prop
  | done {trail : List SourceFile} {g : ImportGraph} : Explores trail [] g (.ok ()) g
  | cycle {trail rest : List SourceFile} {s : SourceFile} {g : ImportGraph}
      (hcycle : s.place tree ∈ trail.map (·.place tree)) :
      Explores trail (s :: rest) g
        (.error (.cycle ((trail.drop ((trail.map (·.place tree)).idxOf (s.place tree)) ++ [s]).map (·.place tree)))) g
  | known {trail rest : List SourceFile} {s : SourceFile} {g g' : ImportGraph} {r : Except BuildError Unit}
      (hfresh : s.place tree ∉ trail.map (·.place tree)) (hheld : (s.place tree, s.isDirectory) ∈ g.names)
      (hrest : Explores trail rest g r g') : Explores trail (s :: rest) g r g'
  | broken {trail rest : List SourceFile} {s : SourceFile} {g : ImportGraph} {e : BuildError}
      (hfresh : s.place tree ∉ trail.map (·.place tree)) (hheld : (s.place tree, s.isDirectory) ∉ g.names)
      (hload : loadIn around tree entry g s = .error e) :
      Explores trail (s :: rest) g (.error e) (stuck around tree entry g s)
  | stopped {trail rest : List SourceFile} {s : SourceFile} {g g' : ImportGraph} {m : SourceModule} {e : BuildError}
      (hfresh : s.place tree ∉ trail.map (·.place tree)) (hheld : (s.place tree, s.isDirectory) ∉ g.names)
      (hload : loadIn around tree entry g s = .ok m)
      (hinside : Explores (trail ++ [s]) m.imports.sources (opened around tree entry g s m) (.error e) g') :
      Explores trail (s :: rest) g (.error e) g'
  | read {trail rest : List SourceFile} {s : SourceFile} {g mid g' : ImportGraph} {m : SourceModule}
      {r : Except BuildError Unit}
      (hfresh : s.place tree ∉ trail.map (·.place tree)) (hheld : (s.place tree, s.isDirectory) ∉ g.names)
      (hload : loadIn around tree entry g s = .ok m)
      (hinside : Explores (trail ++ [s]) m.imports.sources (opened around tree entry g s m) (.ok ()) mid)
      (hrest : Explores trail rest mid r g') : Explores trail (s :: rest) g r g'

theorem length_trail_le (hfile : ∀ f ∈ trail, tree.isFile f.path)
    (hnodup : (trail.map (·.place tree)).Nodup) : trail.length ≤ tree.entries.length := by
  have hsubset : trail.map (·.place tree) ⊆ tree.entries.map fun e => ({ tree.cwd with parts := e.1 } : Path) := by
    intro place hplace
    obtain ⟨f, hf, rfl⟩ := mem_map.1 hplace
    exact FileTree.resolve_mem_of_isFile (hfile f hf)
  have hlength := (subperm_of_subset hnodup hsubset).length_le
  simpa using hlength

theorem nodup_concat (hnodup : (trail.map (·.place tree)).Nodup)
    (hfresh : s.place tree ∉ trail.map (·.place tree)) : ((trail ++ [s]).map (·.place tree)).Nodup := by
  rw [map_append, nodup_append]
  refine ⟨hnodup, by simp, ?_⟩
  rintro a ha b hb rfl
  rw [map_singleton, mem_singleton] at hb
  exact hfresh (hb ▸ ha)

variable (around tree entry) in
/-- Visiting a file explores what it imports, if the file can be read. -/
def VisitExplores (fuel : Nat) (trail : List SourceFile) (s : SourceFile) (g : ImportGraph) : Prop :=
  let out := (visit tree.resolve (ImportGraph.read around tree entry) fuel (trail.map (·.place tree)) s).outcome g
  match loadIn around tree entry g s with
  | .error e => out = (.error e, stuck around tree entry g s)
  | .ok m => Explores around tree entry (trail ++ [s]) m.imports.sources (opened around tree entry g s m) out.1 out.2

theorem explores_forM {fuel : Nat} {trail : List SourceFile} {todo : List SourceFile} (g : ImportGraph)
    (hvisit : ∀ s ∈ todo, ∀ g, s.place tree ∉ trail.map (·.place tree) →
      VisitExplores around tree entry fuel trail s g) :
    let out := (todo.forM (visitImport tree.resolve (ImportGraph.read around tree entry) fuel
      (trail.map (·.place tree)))).outcome g
    Explores around tree entry trail todo g out.1 out.2 := by
  induction todo generalizing g with
  | nil => exact .done
  | cons s rest ih =>
    intro out
    have hrest := fun g => ih g fun f hf => hvisit f (mem_cons_of_mem s hf)
    have hstep := outcome_visitImport tree.resolve (ImportGraph.read around tree entry) fuel
      (trail.map (·.place tree)) s g
    by_cases hcycle : s.place tree ∈ trail.map (·.place tree)
    · rw [if_pos hcycle] at hstep
      have hout : out = _ := Walk.outcome_bind_error hstep
      have h : Explores around tree entry trail (s :: rest) g _ g := .cycle hcycle
      rw [map_append, map_drop] at h
      rw [hout]
      exact h
    rw [if_neg hcycle] at hstep
    by_cases hheld : (s.place tree, s.isDirectory) ∈ g.names
    · rw [if_pos (holds_iff.2 hheld)] at hstep
      have hout : out = _ := Walk.outcome_bind_ok hstep
      rw [hout]
      exact .known hcycle hheld (hrest g)
    rw [if_neg (mt holds_iff.1 hheld)] at hstep
    have hs := hvisit s mem_cons_self g hcycle
    rw [VisitExplores, ← hstep] at hs
    cases hload : loadIn around tree entry g s with
    | error =>
      rw [hload] at hs
      have hout : out = _ := Walk.outcome_bind_error hs
      rw [hout]
      exact .broken hcycle hheld hload
    | ok =>
      rw [hload] at hs
      generalize hmid : Walk.outcome _ g = mid at hs
      obtain ⟨r, mid⟩ := mid
      cases r with
      | error =>
        have hout : out = _ := Walk.outcome_bind_error hmid
        rw [hout]
        exact .stopped hcycle hheld hload hs
      | ok =>
        have hout : out = _ := Walk.outcome_bind_ok hmid
        rw [hout]
        exact .read hcycle hheld hload hs (hrest mid)

theorem visitExplores (fuel : Nat) (g : ImportGraph) (htrail : ∀ f ∈ trail ++ [s], tree.isFile f.path)
    (hnodup : (trail.map (·.place tree)).Nodup) (hfresh : s.place tree ∉ trail.map (·.place tree))
    (hfuel : tree.entries.length < fuel + trail.length) : VisitExplores around tree entry fuel trail s g := by
  induction fuel generalizing trail s g with
  | zero =>
    have hlength := length_trail_le htrail (nodup_concat hnodup hfresh)
    rw [length_append] at hlength
    omega
  | succ fuel ih =>
    rw [VisitExplores, visit_succ]
    cases hload : loadIn around tree entry g s with
    | error => exact Walk.outcome_bind_error (outcome_read_error hload)
    | ok m =>
      rw [Walk.outcome_bind_ok (outcome_read_ok hload)]
      have hinside := @explores_forM around tree entry fuel (trail ++ [s]) m.imports.sources
        (opened around tree entry g s m)
      rw [map_append] at hinside
      refine hinside fun s' hs' g' hfresh' => ?_
      have hs'file := isFile_of_mem_imports hload hs'
      refine ih g' ?_ (nodup_concat hnodup hfresh) (by rwa [map_append]) ?_
      · intro f hf
        rcases mem_append.1 hf with hf | hf
        · exact htrail f hf
        · rw [mem_singleton.1 hf]
          exact hs'file
      · rw [length_append, length_singleton]
        omega

theorem outcome_walk_eq (g₀ : ImportGraph) :
    (walk around tree entry).outcome g₀ = (match SourceFile.entry tree entry with
      | .error e => throw e
      | .ok file => do
        visit tree.resolve (ImportGraph.read around tree entry) (tree.entries.length + 1) [] file
        return file : Walk SourceFile).outcome {} :=
  rfl

/-- A walk forgets what was there before and explores the imports of its entry. -/
theorem outcome_walk (hentry : SourceFile.entry tree entry = .ok file) (g₀ : ImportGraph) :
    ∃ r g, Explores around tree entry [] [file] {} r g ∧
      (walk around tree entry).outcome g₀ = (r.map fun _ => file, g) := by
  rw [outcome_walk_eq, hentry]
  have hfile := SourceFile.isFile_of_entry hentry
  have hvisit : VisitExplores around tree entry (tree.entries.length + 1) [] file {} :=
    visitExplores _ _ (by simpa using hfile) nodup_nil (by simp) (by simp)
  rw [VisitExplores, map_nil] at hvisit
  have hfresh : file.place tree ∉ ([] : List SourceFile).map (·.place tree) := by simp
  have hheld : (file.place tree, file.isDirectory) ∉ ({} : ImportGraph).names := by simp [names]
  cases hload : loadIn around tree entry {} file with
  | error =>
    rw [hload] at hvisit
    exact ⟨_, _, .broken hfresh hheld hload, Walk.outcome_bind_error hvisit⟩
  | ok =>
    rw [hload] at hvisit
    generalize hout : Walk.outcome _ _ = out at hvisit
    obtain ⟨r, g⟩ := out
    cases r with
    | error => exact ⟨_, _, .stopped hfresh hheld hload hvisit, Walk.outcome_bind_error hout⟩
    | ok => exact ⟨_, _, .read hfresh hheld hload hvisit .done, Walk.outcome_bind_ok hout⟩

theorem explores_of_outcome (h : (walk around tree entry).outcome g₀ = (.ok file, g)) :
    SourceFile.entry tree entry = .ok file ∧ Explores around tree entry [] [file] {} (.ok ()) g := by
  cases hentry : SourceFile.entry tree entry with
  | error =>
    rw [outcome_walk_eq, hentry] at h
    cases h
  | ok start =>
    obtain ⟨r, g', hexplores, hwalk⟩ := @outcome_walk around tree entry start hentry g₀
    rw [hwalk] at h
    obtain ⟨hr, rfl⟩ := Prod.mk.inj h
    cases r with
    | error => cases hr
    | ok =>
      cases hr
      exact ⟨rfl, hexplores⟩

/-! ### What an exploration leaves -/

theorem Explores.grows (h : Explores around tree entry trail todo g r g') :
    g.lookup <+: g'.lookup ∧ g.modules <+: g'.modules := by
  induction h with
  | done | cycle => exact ⟨prefix_rfl, prefix_rfl⟩
  | known hfresh hheld hrest ih => exact ih
  | broken => exact ⟨prefix_lookupWith .., prefix_rfl⟩
  | stopped hfresh hheld hload hinside ih =>
    exact ⟨(prefix_lookupWith ..).trans ih.1, (prefix_append ..).trans ih.2⟩
  | read hfresh hheld hload hinside hrest ihinside ihrest =>
    exact ⟨((prefix_lookupWith ..).trans ihinside.1).trans ihrest.1,
      ((prefix_append ..).trans ihinside.2).trans ihrest.2⟩

variable (around tree) in
/-- Every module is what its file gives with the directories that are searched by now, and stands at the place of the
file. -/
def Loaded (g : ImportGraph) : Prop :=
  ∀ x ∈ g.modules, x.1 = x.2.file.place tree ∧ tree.isFile x.2.file.path ∧
    load around tree g.lookup x.2.file = .ok x.2

theorem Loaded.of_lookup (hg : Loaded around tree g) (hlookup : g.lookup <+: g'.lookup)
    (hmodules : g'.modules = g.modules) : Loaded around tree g' := by
  intro x hx
  rw [hmodules] at hx
  obtain ⟨hplace, hfile, hload⟩ := hg x hx
  exact ⟨hplace, hfile, load_longer hlookup hload⟩

theorem Loaded.opened (hg : Loaded around tree g) (hs : tree.isFile s.path)
    (hload : loadIn around tree entry g s = .ok m) : Loaded around tree (opened around tree entry g s m) := by
  intro x hx
  rcases mem_append.1 hx with hx | hx
  · obtain ⟨hplace, hfile, hx⟩ := hg x hx
    exact ⟨hplace, hfile, load_longer (prefix_lookupWith ..) hx⟩
  · obtain ⟨-, hfile, -, -⟩ := load_eq_ok_iff.1 hload
    rw [mem_singleton.1 hx, hfile]
    exact ⟨rfl, hs, hload⟩

theorem Explores.loaded (h : Explores around tree entry trail todo g r g')
    (hg : Loaded around tree g) (htodo : ∀ s ∈ todo, tree.isFile s.path) : Loaded around tree g' := by
  induction h with
  | done => exact hg
  | cycle => exact hg
  | known hfresh hheld hrest ih => exact ih hg fun s hs => htodo s (mem_cons_of_mem _ hs)
  | broken => exact hg.of_lookup (prefix_lookupWith ..) rfl
  | stopped hfresh hheld hload hinside ih =>
    exact ih (hg.opened (htodo _ mem_cons_self) hload) fun s => isFile_of_mem_imports hload
  | read hfresh hheld hload hinside hrest ihinside ihrest =>
    have hmid := ihinside (hg.opened (htodo _ mem_cons_self) hload) fun s => isFile_of_mem_imports hload
    exact ihrest hmid fun s hs => htodo s (mem_cons_of_mem _ hs)

theorem names_opened (g : ImportGraph) (hload : loadIn around tree entry g s = .ok m) :
    (opened around tree entry g s m).names = g.names ++ [(s.place tree, s.isDirectory)] := by
  obtain ⟨-, hfile, -, -⟩ := load_eq_ok_iff.1 hload
  rw [names, opened, map_append, ← names, map_singleton, hfile]

theorem files_opened (g : ImportGraph) (hload : loadIn around tree entry g s = .ok m) :
    (opened around tree entry g s m).files = g.files ++ [s] := by
  obtain ⟨-, hfile, -, -⟩ := load_eq_ok_iff.1 hload
  rw [files, opened, map_append, ← files, map_singleton, hfile]

theorem names_mono (h : g.modules <+: g'.modules) : g.names ⊆ g'.names :=
  (h.map _).subset

theorem Explores.nodup_names (h : Explores around tree entry trail todo g r g')
    (hg : g.names.Nodup) : g'.names.Nodup := by
  have hopened {g : ImportGraph} {s : SourceFile} {m : SourceModule} (hg : g.names.Nodup)
      (hheld : (s.place tree, s.isDirectory) ∉ g.names) (hload : loadIn around tree entry g s = .ok m) :
      (opened around tree entry g s m).names.Nodup := by
    rw [names_opened g hload, nodup_append]
    refine ⟨hg, by simp, ?_⟩
    rintro a ha b hb rfl
    exact hheld (mem_singleton.1 hb ▸ ha)
  induction h with
  | done | cycle | broken => exact hg
  | known hfresh hheld hrest ih => exact ih hg
  | stopped hfresh hheld hload hinside ih => exact ih (hopened hg hheld hload)
  | read hfresh hheld hload hinside hrest ihinside ihrest => exact ihrest (ihinside (hopened hg hheld hload))

def Link (g : ImportGraph) (a b : SourceFile) : Prop := ∃ x ∈ g.modules, x.2.file = a ∧ b ∈ x.2.imports.sources

theorem Link.mono (h : g.modules <+: g'.modules) {a b : SourceFile} (hab : g.Link a b) : g'.Link a b := by
  obtain ⟨x, hx, hfile, hb⟩ := hab
  exact ⟨x, h.subset hx, hfile, hb⟩

theorem Explores.reached (h : Explores around tree entry trail todo g r g') :
    ∀ x ∈ g'.modules, x ∈ g.modules ∨ ∃ s ∈ todo, ReflTransGen g'.Link s x.2.file := by
  -- a module that is opened is reached from its own file, and what is read below it by one more step
  have hopened {g g' : ImportGraph} {s : SourceFile} {m : SourceModule} (hload : loadIn around tree entry g s = .ok m)
      (hgrows : (opened around tree entry g s m).modules <+: g'.modules) {x : Path × SourceModule}
      (hx : x ∈ (opened around tree entry g s m).modules ∨
        ∃ s' ∈ m.imports.sources, ReflTransGen g'.Link s' x.2.file) :
      x ∈ g.modules ∨ ReflTransGen g'.Link s x.2.file := by
    obtain ⟨-, hfile, -, -⟩ := load_eq_ok_iff.1 hload
    have hmem : (s.place tree, m) ∈ g'.modules := hgrows.subset (mem_append_right _ (mem_singleton_self _))
    rcases hx with hx | ⟨s', hs', hreach⟩
    · rcases mem_append.1 hx with hx | hx
      · exact .inl hx
      · rw [mem_singleton.1 hx, hfile]
        exact .inr .refl
    · exact .inr (.head ⟨_, hmem, hfile, hs'⟩ hreach)
  induction h with
  | done | cycle | broken => exact fun x hx => .inl hx
  | known hfresh hheld hrest ih =>
    intro x hx
    exact (ih x hx).imp_right fun ⟨s, hs, hreach⟩ => ⟨s, mem_cons_of_mem _ hs, hreach⟩
  | stopped hfresh hheld hload hinside ih =>
    intro x hx
    exact (hopened hload hinside.grows.2 (ih x hx)).imp_right fun hreach => ⟨_, mem_cons_self, hreach⟩
  | read hfresh hheld hload hinside hrest ihinside ihrest =>
    intro x hx
    rcases ihrest x hx with hx | ⟨s, hs, hreach⟩
    · refine (hopened hload hinside.grows.2 (ihinside x hx)).imp_right fun hreach => ⟨_, mem_cons_self, ?_⟩
      exact ReflTransGen.mono (fun a b => Link.mono hrest.grows.2) _ _ hreach
    · exact .inr ⟨s, mem_cons_of_mem _ hs, hreach⟩

/-! ### Successful explorations have no cycles -/

variable (tree) in
/-- The modules stand in an order in which each comes after the places of what it imports, where those of `before` come
first. -/
def Ordered (before : Path → Prop) : List (Path × SourceModule) → Prop
  | [] => True
  | x :: rest => (∀ s ∈ x.2.imports.sources, before (s.place tree)) ∧ Ordered (fun p => before p ∨ p = x.1) rest

theorem Ordered.mono (h : Ordered tree before l)
    (hbefore : ∀ x ∈ l, ∀ s ∈ x.2.imports.sources, before (s.place tree) → before' (s.place tree)) :
    Ordered tree before' l := by
  induction l generalizing before before' with
  | nil => trivial
  | cons x rest ih =>
    obtain ⟨hx, hrest⟩ := h
    refine ⟨fun s hs => hbefore x mem_cons_self s hs (hx s hs), ih hrest ?_⟩
    intro y hy s hs
    exact Or.imp_left (hbefore y (mem_cons_of_mem x hy) s hs)

theorem ordered_append (h : Ordered tree before l)
    (h' : Ordered tree (fun p => before p ∨ ∃ x ∈ l, x.1 = p) l') : Ordered tree before (l ++ l') := by
  induction l generalizing before with
  | nil => exact h'.mono fun x _ s _ => by simp
  | cons x rest ih =>
    refine ⟨h.1, ih h.2 (h'.mono fun y _ s _ hs => ?_)⟩
    simpa [or_assoc, eq_comm] using hs

variable (tree) in
def Settled (g : ImportGraph) (trail : List SourceFile) (s : SourceFile) : Prop :=
  (s.place tree, s.isDirectory) ∈ g.names ∧ s.place tree ∉ trail.map (·.place tree)

theorem Settled.shorter (h : Settled tree g (trail ++ [s]) s')
    (hgrows : g.modules <+: g'.modules) : Settled tree g' trail s' :=
  ⟨names_mono hgrows h.1, fun hmem => h.2 (by rw [map_append]; exact mem_append_left _ hmem)⟩

theorem Settled.place_ne (h : Settled tree g (trail ++ [s]) s') : s'.place tree ≠ s.place tree :=
  fun heq => h.2 (by simp [heq])

theorem exists_of_mem_names (h : (p, b) ∈ g.names) : ∃ x ∈ g.modules, x.1 = p := by
  obtain ⟨x, hx, heq⟩ := mem_map.1 h
  exact ⟨x, hx, congrArg Prod.fst heq⟩

/-- A successful exploration leaves every file that it was to look at settled, with all that its files import.  Its
files can be put in the order in which they were completed. -/
theorem Explores.completed (h : Explores around tree entry trail todo g (.ok ()) g') :
    (∀ s ∈ todo, Settled tree g' trail s) ∧
      ∃ new, g'.modules.Perm (g.modules ++ new) ∧ Ordered tree (fun p => ∃ x ∈ g.modules, x.1 = p) new ∧
        ∀ x ∈ new, ∀ s ∈ x.2.imports.sources, Settled tree g' trail s := by
  generalize hr : (.ok () : Except BuildError Unit) = r at h
  induction h with
  | done => exact ⟨by simp, [], by simp, trivial, by simp⟩
  | cycle | broken | stopped => cases hr
  | known hfresh hheld hrest ih =>
    obtain ⟨htodo, hnew⟩ := ih hr
    exact ⟨forall_mem_cons.2 ⟨⟨names_mono hrest.grows.2 hheld, hfresh⟩, htodo⟩, hnew⟩
  | @read trail rest s g mid g' m r hfresh hheld hload hinside hrest ihinside ihrest =>
    obtain ⟨hsources, below, hbelow, hbelowOrdered, hbelowSources⟩ := ihinside rfl
    obtain ⟨htodo, after, hafter, hafterOrdered, hafterSources⟩ := ihrest hr
    have hgrows := hrest.grows.2
    have hs : (s.place tree, s.isDirectory) ∈ mid.names :=
      names_mono hinside.grows.2 (by simp [names_opened g hload])
    have hmid : ∀ x, x ∈ mid.modules ↔ x ∈ g.modules ∨ x = (s.place tree, m) ∨ x ∈ below := by
      intro x
      rw [hbelow.mem_iff]
      simp [opened]
    refine ⟨forall_mem_cons.2 ⟨⟨names_mono hgrows hs, hfresh⟩, htodo⟩, below ++ (s.place tree, m) :: after, ?_, ?_, ?_⟩
    · refine (hafter.trans (hbelow.append_right after)).trans ?_
      rw [opened, List.append_assoc, List.append_assoc, singleton_append]
      exact Perm.append_left _ List.perm_middle.symm
    · -- what is read below a file is completed before it
      refine ordered_append (hbelowOrdered.mono fun x hx s' hs' => ?_) ⟨fun s' hs' => ?_, hafterOrdered.mono ?_⟩
      · rintro ⟨y, hy, hplace⟩
        rcases mem_append.1 hy with hy | hy
        · exact ⟨y, hy, hplace⟩
        · rw [mem_singleton.1 hy] at hplace
          exact absurd hplace.symm (hbelowSources x hx s' hs').place_ne
      · obtain ⟨x, hx, hplace⟩ := exists_of_mem_names (hsources s' hs').1
        rcases (hmid x).1 hx with hx | rfl | hx
        · exact .inl ⟨x, hx, hplace⟩
        · exact absurd hplace.symm (hsources s' hs').place_ne
        · exact .inr ⟨x, hx, hplace⟩
      · rintro x - s' - ⟨y, hy, hplace⟩
        rcases (hmid y).1 hy with hy | rfl | hy
        · exact .inl (.inl ⟨y, hy, hplace⟩)
        · exact .inr hplace.symm
        · exact .inl (.inr ⟨y, hy, hplace⟩)
    · intro x hx s' hs'
      rcases mem_append.1 hx with hx | hx
      · exact (hbelowSources x hx s' hs').shorter hgrows
      · rcases mem_cons.1 hx with rfl | hx
        · exact (hsources s' hs').shorter hgrows
        · exact hafterSources x hx s' hs'

def Edge (g : ImportGraph) (tree : FileTree) (a b : Path) : Prop :=
  ∃ x ∈ g.modules, x.1 = a ∧ ∃ s ∈ x.2.imports.sources, s.place tree = b

theorem acc_of_ordered (hg : Loaded around tree g) (hl : ∀ x ∈ l, x ∈ g.modules) (h : Ordered tree before l)
    (hbefore : ∀ p, before p → Acc (fun b a => g.Edge tree a b) p) : ∀ x ∈ l, Acc (fun b a => g.Edge tree a b) x.1 := by
  induction l generalizing before with
  | nil => simp
  | cons x rest ih =>
    have hx : Acc (fun b a => g.Edge tree a b) x.1 := by
      constructor
      rintro b ⟨y, hy, hplace, s, hs, rfl⟩
      -- another module of the same place imports the same
      obtain ⟨hyplace, hyfile, hyload⟩ := hg y hy
      obtain ⟨hxplace, hxfile, hxload⟩ := hg x (hl x mem_cons_self)
      have hsame : y.2.imports = x.2.imports :=
        imports_eq_of_resolve hyload hxload hyfile hxfile ((hyplace.symm.trans hplace).trans hxplace)
      rw [hsame] at hs
      exact hbefore _ (h.1 s hs)
    refine forall_mem_cons.2 ⟨hx, ih (fun y hy => hl y (mem_cons_of_mem x hy)) h.2 ?_⟩
    rintro p (hp | rfl)
    · exact hbefore p hp
    · exact hx

theorem not_transGen_of_acc {r : α → α → Prop} (h : Acc (fun b a => r a b) a) : ¬TransGen r a a := by
  induction h with
  | intro a _ ih =>
    intro hcycle
    obtain ⟨b, hab, hba⟩ := TransGen.head'_iff.1 hcycle
    exact ih b hab (TransGen.tail' hba hab)

theorem Explores.lookup_eq (h : Explores around tree entry trail todo g (.ok ()) g')
    (hg : g.lookup = searched around tree entry g.files) : g'.lookup = searched around tree entry g'.files := by
  generalize hr : (.ok () : Except BuildError Unit) = r at h
  induction h with
  | done => exact hg
  | cycle | broken | stopped => cases hr
  | known hfresh hheld hrest ih => exact ih hg hr
  | @read trail rest s g mid g' m r hfresh hheld hload hinside hrest ihinside ihrest =>
    refine ihrest (ihinside ?_ rfl) hr
    rw [files_opened g hload, searched_concat, ← hg]
    rfl

theorem head_files_of_explores (h : Explores around tree entry [] [file] {} (.ok ()) g) :
    g.files.head? = some file := by
  cases h with
  | known hfresh hheld => simp [names] at hheld
  | @read _ _ _ _ mid _ m _ hfresh hheld hload hinside hrest =>
    have hgrows : (opened around tree entry {} file m).files <+: g.files :=
      (hinside.grows.2.trans hrest.grows.2).map _
    rw [files_opened _ hload] at hgrows
    obtain ⟨more, hmore⟩ := hgrows
    rw [← hmore]
    rfl

theorem acyclic_of_explores (hfile : tree.isFile file.path) (h : Explores around tree entry [] [file] {} (.ok ()) g)
    (a : Path) : ¬TransGen (g.Edge tree) a a := by
  intro hcycle
  obtain ⟨-, new, hnew, hordered, -⟩ := h.completed
  have hloaded : Loaded around tree g := h.loaded (by simp [Loaded]) (by simpa using hfile)
  have hacc := acc_of_ordered hloaded (l := new) (fun x hx => by rw [hnew.mem_iff]; simpa using hx) hordered (by simp)
  obtain ⟨b, ⟨x, hx, rfl, -⟩, -⟩ := TransGen.head'_iff.1 hcycle
  rw [hnew.mem_iff] at hx
  exact not_transGen_of_acc (hacc x (by simpa using hx)) hcycle

/-! ### Imports that are always the same -/

/-- A way along links from a file to another, where `trail` are the files before the last. -/
def Way (link : SourceFile → SourceFile → Prop) (start : SourceFile) (trail : List SourceFile) (s : SourceFile) :
    Prop :=
  (trail ++ [s]).IsChain link ∧ (trail ++ [s]).head? = some start

section Way

variable {s' : SourceFile}

theorem Way.step (h : Way link start trail s) (hlink : link s s') : Way link start (trail ++ [s]) s' := by
  refine ⟨?_, by rw [head?_append_of_ne_nil _ (by simp)]; exact h.2⟩
  rw [List.append_assoc, singleton_append, isChain_append_cons_cons]
  exact ⟨h.1, hlink, isChain_singleton _⟩

theorem Way.reached (h : Way link start trail s) : ∀ f ∈ trail ++ [s], ReflTransGen link start f := by
  refine IsChain.induction _ _ h.1 (fun _ _ hlink hreached => hreached.tail hlink) fun hne => ?_
  have hhead := h.2
  rw [head?_eq_some_head hne] at hhead
  rw [Option.some.inj hhead]

theorem exists_way (h : ReflTransGen link start s) : ∃ trail, Way link start trail s := by
  induction h with
  | refl => exact ⟨[], isChain_singleton _, rfl⟩
  | tail _ hlink ih =>
    obtain ⟨trail, htrail⟩ := ih
    exact ⟨_, htrail.step hlink⟩

end Way

variable (around tree entry) in
/-- What the files reached from a file import is always the same: each of them can be read, and links to the sources
that it imports, whatever files have been read besides those on a way to it. -/
def FixedLinks (start : SourceFile) (link : SourceFile → SourceFile → Prop) : Prop :=
  ∀ (files trail : List SourceFile) (s : SourceFile), Way link start trail s → trail ++ [s] ⊆ files →
    files.head? = some start → (∀ f ∈ files, ReflTransGen link start f) →
      ∃ m, load around tree (searched around tree entry files) s = .ok m ∧
        ∀ s', s' ∈ m.imports.sources ↔ link s s'

variable (around tree entry) in
structure Agrees (start : SourceFile) (link : SourceFile → SourceFile → Prop) (g : ImportGraph) : Prop where
  lookup : g.lookup = searched around tree entry g.files
  links : ∀ x ∈ g.modules, ∀ s, s ∈ x.2.imports.sources ↔ link x.2.file s
  reached : ∀ f ∈ g.files, ReflTransGen link start f
  first : ∀ f ∈ g.files.head?, f = start

variable (tree) in
/-- Files that are reached and lead along links back to the place of the first. -/
structure Circular (start : SourceFile) (link : SourceFile → SourceFile → Prop) (c : List SourceFile) : Prop where
  chain : c.IsChain link
  length : 2 ≤ c.length
  closed : (c.map (·.place tree)).head? = (c.map (·.place tree)).getLast?
  reached : ∀ f ∈ c, ReflTransGen link start f

section Agrees

variable {c : List SourceFile}

theorem concat_subset {files : List SourceFile} (h : trail ⊆ files) (s : SourceFile) : trail ++ [s] ⊆ files ++ [s] :=
  append_subset.2 ⟨fun _ hf => mem_append_left _ (h hf), subset_append_right ..⟩

theorem Agrees.exists_load (hg : Agrees around tree entry start link g)
    (hfixed : FixedLinks around tree entry start link) (htrail : trail ⊆ g.files) (hway : Way link start trail s) :
    ∃ m, loadIn around tree entry g s = .ok m ∧ ∀ s', s' ∈ m.imports.sources ↔ link s s' := by
  have hhead : (g.files ++ [s]).head? = some start := by
    cases hfiles : g.files with
    | nil =>
      rw [hfiles, subset_nil] at htrail
      rw [← hway.2, htrail]
    | cons f =>
      have hfirst := hg.first f (by rw [hfiles]; rfl)
      rw [hfirst]
      rfl
  have hreached : ∀ f ∈ g.files ++ [s], ReflTransGen link start f := by
    intro f hf
    rcases mem_append.1 hf with hf | hf
    · exact hg.reached f hf
    · rw [mem_singleton.1 hf]
      exact hway.reached s (by simp)
  obtain ⟨m, hload, hlinks⟩ := hfixed (g.files ++ [s]) trail s hway (concat_subset htrail s) hhead hreached
  rw [searched_concat, ← hg.lookup] at hload
  exact ⟨m, hload, hlinks⟩

theorem Agrees.opened (hg : Agrees around tree entry start link g) (htrail : trail ⊆ g.files)
    (hway : Way link start trail s) (hload : loadIn around tree entry g s = .ok m)
    (hlinks : ∀ s', s' ∈ m.imports.sources ↔ link s s') :
    Agrees around tree entry start link (opened around tree entry g s m) where
  lookup := by
    rw [files_opened g hload, searched_concat, ← hg.lookup]
    rfl
  links := by
    obtain ⟨-, hfile, -, -⟩ := load_eq_ok_iff.1 hload
    intro x hx
    rcases mem_append.1 hx with hx | hx
    · exact hg.links x hx
    · rw [mem_singleton.1 hx, hfile]
      exact hlinks
  reached := by
    intro f hf
    rw [files_opened g hload] at hf
    rcases mem_append.1 hf with hf | hf
    · exact hg.reached f hf
    · rw [mem_singleton.1 hf]
      exact hway.reached s (by simp)
  first := by
    intro f hf
    rw [files_opened g hload] at hf
    cases hfiles : g.files with
    | nil =>
      rw [hfiles, subset_nil] at htrail
      rw [hfiles] at hf
      have hhead := hway.2
      rw [htrail] at hhead
      rw [hhead] at hf
      exact (Option.some.inj hf).symm
    | cons =>
      rw [hfiles] at hf
      exact hg.first f (by rw [hfiles]; exact hf)

theorem circular_of_mem (hway : Way link start trail s) (hreached : ∀ f ∈ trail, ReflTransGen link start f)
    (h : s.place tree ∈ trail.map (·.place tree)) :
    Circular tree start link (trail.drop ((trail.map (·.place tree)).idxOf (s.place tree)) ++ [s]) := by
  have hlt := idxOf_lt_length_of_mem h
  generalize hk : (trail.map (·.place tree)).idxOf (s.place tree) = k at hlt ⊢
  rw [length_map] at hlt
  refine ⟨?_, ?_, ?_, ?_⟩
  · rw [← drop_append_of_le_length hlt.le]
    exact hway.1.drop k
  · rw [length_append, length_drop, length_singleton]
    omega
  · have hplace : trail[k].place tree = s.place tree := by
      have hget := getElem_idxOf (idxOf_lt_length_of_mem h)
      simpa [hk] using hget
    rw [drop_eq_getElem_cons hlt, cons_append, map_cons, head?_cons, hplace, map_append,
      ← cons_append, map_singleton, getLast?_concat]
  · intro f hf
    rcases mem_append.1 hf with hf | hf
    · exact hreached f (mem_of_mem_drop hf)
    · rw [mem_singleton.1 hf]
      exact hway.reached s (by simp)

theorem Explores.agrees (h : Explores around tree entry trail todo g r g')
    (hfixed : FixedLinks around tree entry start link) (hg : Agrees around tree entry start link g)
    (htrail : trail ⊆ g.files) (htodo : ∀ s ∈ todo, Way link start trail s) : Agrees around tree entry start link g' ∧
      ∀ e, r = .error e → ∃ c, Circular tree start link c ∧ e = .cycle (c.map (·.place tree)) := by
  induction h with
  | done => exact ⟨hg, by simp⟩
  | cycle hcycle =>
    refine ⟨hg, fun e he => ?_⟩
    cases he
    exact ⟨_, circular_of_mem (htodo _ mem_cons_self) (fun f hf => hg.reached f (htrail hf)) hcycle, rfl⟩
  | known hfresh hheld hrest ih => exact ih hg htrail fun s hs => htodo s (mem_cons_of_mem _ hs)
  | broken hfresh hheld hload =>
    obtain ⟨m, hm, -⟩ := hg.exists_load hfixed htrail (htodo _ mem_cons_self)
    rw [hload] at hm
    cases hm
  | @stopped trail rest s g g' m e hfresh hheld hload hinside ih =>
    have hway := htodo _ mem_cons_self
    obtain ⟨m', hm, hlinks⟩ := hg.exists_load hfixed htrail hway
    rw [hload] at hm
    cases hm
    refine ih (hg.opened htrail hway hload hlinks) ?_ fun s' hs' => hway.step ((hlinks s').1 hs')
    rw [files_opened g hload]
    exact concat_subset htrail s
  | @read trail rest s g mid g' m r hfresh hheld hload hinside hrest ihinside ihrest =>
    have hway := htodo _ mem_cons_self
    obtain ⟨m', hm, hlinks⟩ := hg.exists_load hfixed htrail hway
    rw [hload] at hm
    cases hm
    have hopened : trail ++ [s] ⊆ (ImportGraph.opened around tree entry g s m).files := by
      rw [files_opened g hload]
      exact concat_subset htrail s
    obtain ⟨hmid, -⟩ := ihinside (hg.opened htrail hway hload hlinks) hopened fun s' hs' =>
      hway.step ((hlinks s').1 hs')
    refine ihrest hmid ?_ fun s' hs' => htodo s' (mem_cons_of_mem _ hs')
    have hgrows : g.files <+: mid.files := ((prefix_append ..).trans hinside.grows.2).map _
    exact fun f hf => hgrows.subset (htrail hf)

theorem Circular.transGen (h : Circular tree start link c) {r : Path → Path → Prop}
    (hedge : ∀ f s, ReflTransGen link start f → link f s → r (f.place tree) (s.place tree)) : ∃ a, TransGen r a a := by
  obtain ⟨hchain, hlength, hclosed, hreached⟩ := h
  have hplaces : (c.map (·.place tree)).IsChain r := by
    rw [isChain_map]
    exact hchain.imp_of_mem_imp fun f s hf _ => hedge f s (hreached f hf)
  match c, hlength, hclosed, hplaces with
  | f :: s :: rest, _, hclosed, hplaces =>
    rw [map_cons, map_cons, isChain_cons_cons] at hplaces
    obtain ⟨hstep, hrest⟩ := hplaces
    have hends := relationReflTransGen_of_exists_isChain _ hrest (cons_ne_nil _ _)
    rw [map_cons, map_cons, getLast?_cons_cons, getLast?_eq_some_getLast (cons_ne_nil _ _),
      head?_cons, Option.some.injEq] at hclosed
    rw [← hclosed, head_cons] at hends
    exact ⟨_, TransGen.head' hstep hends⟩

theorem Agrees.exists_files (hg : Agrees around tree entry start link g) (hfiles : g.files ≠ [])
    (hf : ReflTransGen link start f) :
    ∃ files trail, Way link start trail f ∧ trail ++ [f] ⊆ files ∧ files.head? = some start ∧
      (∀ f ∈ files, ReflTransGen link start f) ∧ g.lookup <+: searched around tree entry files := by
  obtain ⟨trail, hway⟩ := exists_way hf
  refine ⟨g.files ++ (trail ++ [f]), trail, hway, subset_append_right .., ?_, ?_, ?_⟩
  · rw [head?_append_of_ne_nil _ hfiles, head?_eq_some_head hfiles]
    exact congrArg some (hg.first _ (head_mem_head? hfiles))
  · intro f' hf'
    exact (mem_append.1 hf').elim (hg.reached f') (hway.reached f')
  · rw [hg.lookup]
    exact searched_longer (prefix_append ..)

theorem Loaded.imports_eq (hg : Loaded around tree g) {lookup : List Path} (hgrows : g.lookup <+: lookup)
    (hfile : tree.isFile f.path) (hload : load around tree lookup f = .ok m)
    (hx : x ∈ g.modules) (hplace : x.1 = f.place tree) : x.2.imports = m.imports := by
  obtain ⟨hxplace, hxfile, hxload⟩ := hg x hx
  exact imports_eq_of_resolve (load_longer hgrows hxload) hload hxfile hfile
    (hxplace.symm.trans hplace)

theorem Explores.settled (h : Explores around tree entry [] [start] {} (.ok ()) g)
    (hfixed : FixedLinks around tree entry start link) (hg : Agrees around tree entry start link g)
    (hloaded : Loaded around tree g) (hfile : tree.isFile start.path) (hf : ReflTransGen link start f) :
    tree.isFile f.path ∧ Settled tree g [] f := by
  obtain ⟨htodo, new, hnew, -, hsources⟩ := h.completed
  induction hf with
  | refl => exact ⟨hfile, htodo start mem_cons_self⟩
  | @tail f s hf hs ih =>
    obtain ⟨hffile, hsettled⟩ := ih
    obtain ⟨x, hx, hplace⟩ := exists_of_mem_names hsettled.1
    have hfiles : g.files ≠ [] := ne_nil_of_mem (mem_map_of_mem hx)
    obtain ⟨files, trail, hway, hsubset, hhead, hreached, hgrows⟩ := hg.exists_files hfiles hf
    obtain ⟨m, hload, hlinks⟩ := hfixed files trail f hway hsubset hhead hreached
    have himports := hloaded.imports_eq hgrows hffile hload hx hplace
    have hsource : s ∈ x.2.imports.sources := by
      rw [himports]
      exact (hlinks s).2 hs
    rw [hnew.mem_iff] at hx
    exact ⟨isFile_of_mem_imports hload (himports ▸ hsource), hsources x (by simpa using hx) s hsource⟩

theorem outcome_walk_agrees (hentry : SourceFile.entry tree entry = .ok start)
    (hfixed : FixedLinks around tree entry start link) (g₀ : ImportGraph) :
    ∃ r g, (walk around tree entry).outcome g₀ = (r.map fun _ => start, g) ∧
      Explores around tree entry [] [start] {} r g ∧ Loaded around tree g ∧ Agrees around tree entry start link g ∧
      ∀ e, r = .error e → ∃ c, Circular tree start link c ∧ e = .cycle (c.map (·.place tree)) := by
  obtain ⟨r, g, h, hwalk⟩ := outcome_walk hentry g₀
  have hfile := SourceFile.isFile_of_entry hentry
  have hloaded : Loaded around tree g := h.loaded (by simp [Loaded]) (by simpa using hfile)
  have hempty : Agrees around tree entry start link {} := ⟨rfl, by simp, by simp [files], by simp [files]⟩
  obtain ⟨hagrees, herror⟩ := h.agrees hfixed hempty (nil_subset _) (by simp [Way])
  exact ⟨r, g, hwalk, h, hloaded, hagrees, herror⟩

end Agrees

end ImportGraph

end BraceLang
