import BraceLang.Proofs.ImportWalk

/-!
# The order of a build

A build goes through the files of an import graph depth first: a file comes before the files that it imports, those
come before the imports that stand after it, and a place that has been gone through is left out (`DepthFirst`).
-/

namespace BraceLang.ImportGraph

open List Relation

variable {place : SourceFile → Path} {next : Path → List SourceFile} {done : List Path} {fs : List SourceFile}
  {a : Path}

/-! ### Depth first -/

section

variable (place : SourceFile → Path) (next : Path → List SourceFile)

/-- Files gone through depth first, where places that have been gone through before are left out. -/
inductive DepthFirst : List Path → List SourceFile → List SourceFile → Prop
  | nil {done : List Path} : DepthFirst done [] []
  | skip {done : List Path} {f : SourceFile} {fs order : List SourceFile} (hf : place f ∈ done)
      (hfs : DepthFirst done fs order) : DepthFirst done (f :: fs) order
  | visit {done : List Path} {f : SourceFile} {fs inner outer : List SourceFile} (hf : place f ∉ done)
      (hinner : DepthFirst (place f :: done) (next (place f)) inner)
      (houter : DepthFirst ((f :: inner).map place ++ done) fs outer) :
        DepthFirst done (f :: fs) (f :: (inner ++ outer))

end

namespace DepthFirst

variable {order : List SourceFile}

theorem nodup (h : DepthFirst place next done fs order) :
    (order.map place).Nodup ∧ ∀ a ∈ order.map place, a ∉ done := by
  induction h with
  | nil => exact ⟨nodup_nil, by simp⟩
  | skip hf hfs ih => exact ih
  | @visit done f fs inner outer hf hinner houter ihinner ihouter =>
    obtain ⟨hnodup, hinside⟩ := ihinner
    obtain ⟨hnodup', houtside⟩ := ihouter
    rw [map_cons, map_append]
    refine ⟨?_, ?_⟩
    · -- what comes after the imports of the file is neither one of them nor the file
      refine nodup_cons.2 ⟨?_, nodup_append.2 ⟨hnodup, hnodup', ?_⟩⟩ <;> grind
    · grind

theorem covers (h : DepthFirst place next done fs order) : ∀ f ∈ fs, place f ∈ order.map place ++ done := by
  induction h with
  | nil => simp
  | skip hf hfs ih => exact forall_mem_cons.2 ⟨mem_append_right _ hf, ih⟩
  | visit =>
    refine forall_mem_cons.2 ⟨by simp, fun s hs => ?_⟩
    grind

theorem closed (h : DepthFirst place next done fs order) :
    ∀ f ∈ order, ∀ s ∈ next (place f), place s ∈ order.map place ++ done := by
  induction h with
  | nil => simp
  | skip hf hfs ih => exact ih
  | @visit done f fs inner outer hf hinner houter ihinner ihouter =>
    intro g hg s hs
    rcases mem_cons.1 hg with rfl | hg
    · have hcovered := hinner.covers s hs
      grind
    · rcases mem_append.1 hg with hg | hg
      · have hclosed := ihinner g hg s hs
        grind
      · have hclosed := ihouter g hg s hs
        grind

theorem reached (h : DepthFirst place next done fs order) :
    ∀ f ∈ order, ∃ s ∈ fs, ReflTransGen (fun a b => b ∈ next (place a)) s f := by
  induction h with
  | nil => simp
  | skip hf hfs ih =>
    intro f hf
    obtain ⟨s, hs, hreached⟩ := ih f hf
    exact ⟨s, mem_cons_of_mem _ hs, hreached⟩
  | @visit done f fs inner outer hf hinner houter ihinner ihouter =>
    intro g hg
    rcases mem_cons.1 hg with rfl | hg
    · exact ⟨g, mem_cons_self, .refl⟩
    · rcases mem_append.1 hg with hg | hg
      · obtain ⟨s, hs, hreached⟩ := ihinner g hg
        exact ⟨f, mem_cons_self, .head hs hreached⟩
      · obtain ⟨s, hs, hreached⟩ := ihouter g hg
        exact ⟨s, mem_cons_of_mem _ hs, hreached⟩

variable {known : Path → Prop} {f : SourceFile}

theorem mem_of_reached (h : DepthFirst place next [] [start] order)
    (hf : ReflTransGen (fun a b => b ∈ next (place a)) start f) : place f ∈ order.map place := by
  induction hf with
  | refl => simpa using h.covers start mem_cons_self
  | tail _ hlink ih =>
    obtain ⟨g, hg, hsame⟩ := mem_map.1 ih
    rw [← hsame] at hlink
    simpa using h.closed g hg _ hlink

end DepthFirst

/-! ### The order of a graph -/

section

variable {resolve : Path → Path} {remaining : List Path} {pending pending' : List SourceFile}

theorem preorderFrom_eq_nil (h : pending.find? (fun f => remaining.contains (resolve f.path)) = none) :
    preorderFrom resolve next remaining pending = [] := by
  rw [preorderFrom]
  split
  · rfl
  · next f hf => rw [h] at hf; cases hf

theorem preorderFrom_eq_cons (h : pending.find? (fun f => remaining.contains (resolve f.path)) = some f) :
    preorderFrom resolve next remaining pending =
      f :: preorderFrom resolve next (remaining.erase (resolve f.path)) (next (resolve f.path) ++ pending) := by
  rw [preorderFrom]
  split
  · next hf => rw [h] at hf; cases hf
  · next f' hf =>
    rw [h] at hf
    cases hf
    rfl

theorem preorderFrom_congr (h : pending.filter (fun f => remaining.contains (resolve f.path)) =
      pending'.filter fun f => remaining.contains (resolve f.path)) :
    preorderFrom resolve next remaining pending = preorderFrom resolve next remaining pending' := by
  induction hn : remaining.length using Nat.strong_induction_on generalizing remaining pending pending' with
  | _ n ih =>
    have hfind := congrArg head? h
    rw [head?_filter, head?_filter] at hfind
    cases hf : pending.find? (fun f => remaining.contains (resolve f.path)) with
    | none => rw [preorderFrom_eq_nil hf, preorderFrom_eq_nil (hfind.symm.trans hf)]
    | some f =>
      have hmem : resolve f.path ∈ remaining := by simpa using find?_some hf
      have hlength := length_erase_of_mem hmem
      have hpositive := length_pos_of_mem hmem
      rw [preorderFrom_eq_cons hf, preorderFrom_eq_cons (hfind.symm.trans hf)]
      refine congrArg (f :: ·) (ih _ (by omega) ?_ rfl)
      -- what remains after the file remained before it
      have hrest (l : List SourceFile) :
          l.filter (fun s => (remaining.erase (resolve f.path)).contains (resolve s.path)) =
          (l.filter fun s => remaining.contains (resolve s.path)).filter fun s =>
            (remaining.erase (resolve f.path)).contains (resolve s.path) := by
        rw [filter_filter]
        refine filter_congr fun s _ => ?_
        grind
      rw [filter_append, filter_append, hrest pending, hrest pending', h]

theorem preorderFrom_cons_of_notMem (hf : resolve f.path ∉ remaining) :
    preorderFrom resolve next remaining (f :: pending) = preorderFrom resolve next remaining pending :=
  preorderFrom_congr (filter_cons_of_neg (by simpa using hf))

/-- The places that remain are the known ones that have not been gone through. -/
structure Remains (known : Path → Prop) (done remaining : List Path) : Prop where
  nodup : remaining.Nodup
  mem_iff : ∀ a, a ∈ remaining ↔ known a ∧ a ∉ done

theorem Remains.erase (h : Remains known done remaining) (a : Path) :
    Remains known (a :: done) (remaining.erase a) where
  nodup := h.nodup.erase a
  mem_iff b := by
    rw [h.nodup.mem_erase_iff, h.mem_iff, mem_cons, not_or]
    exact and_left_comm

theorem Remains.congr (h : Remains known done remaining) (hdone : ∀ a, a ∈ done ↔ a ∈ done') :
    Remains known done' remaining :=
  ⟨h.nodup, fun a => by rw [h.mem_iff, hdone]⟩

theorem exists_depthFirst (hnext : ∀ a, known a → ∀ s ∈ next a, known (resolve s.path))
    (hremains : Remains known done remaining) (hfs : ∀ f ∈ fs, known (resolve f.path)) (rest : List SourceFile) :
    ∃ order remaining', DepthFirst (fun f => resolve f.path) next done fs order ∧
      Remains known (order.map (fun f => resolve f.path) ++ done) remaining' ∧ remaining'.length ≤ remaining.length ∧
      preorderFrom resolve next remaining (fs ++ rest) = order ++ preorderFrom resolve next remaining' rest := by
  induction hn : remaining.length using Nat.strong_induction_on generalizing remaining done fs rest with
  | _ n ih =>
    induction fs with
    | nil => exact ⟨[], remaining, .nil, hremains, hn.le, rfl⟩
    | cons f fs ihfs =>
      obtain ⟨hf, hfs⟩ := forall_mem_cons.1 hfs
      by_cases hmem : resolve f.path ∈ remaining
      · have hfresh := ((hremains.mem_iff _).1 hmem).2
        have hlength := length_erase_of_mem hmem
        have hpositive := length_pos_of_mem hmem
        obtain ⟨inner, between, hinner, hbetween, hshorter, hbelow⟩ :=
          ih _ (by omega) (hremains.erase (resolve f.path)) (hnext _ hf) (f :: (fs ++ rest)) rfl
        -- the file itself does not remain when its imports have been gone through
        have hgone : resolve f.path ∉ between := fun h => ((hbetween.mem_iff _).1 h).2 (by simp)
        have hdone : Remains known ((f :: inner).map (fun f => resolve f.path) ++ done) between :=
          hbetween.congr (by grind)
        obtain ⟨outer, remaining', houter, hremains', hshorter', hafter⟩ :=
          ih _ (by omega) hdone hfs rest rfl
        refine ⟨f :: (inner ++ outer), remaining', .visit hfresh hinner houter, ?_, by omega, ?_⟩
        · exact hremains'.congr (by grind)
        · have hfind : (f :: fs ++ rest).find? (fun f => remaining.contains (resolve f.path)) = some f := by
            simp [hmem]
          rw [preorderFrom_eq_cons hfind, cons_append, hbelow, preorderFrom_cons_of_notMem hgone, hafter]
          simp
      · have hdone : resolve f.path ∈ done := by
          by_contra hfresh
          exact hmem ((hremains.mem_iff _).2 ⟨hf, hfresh⟩)
        obtain ⟨order, remaining', hfirst, hremains', hshorter, hafter⟩ := ihfs hfs
        refine ⟨order, remaining', .skip hdone hfirst, hremains', hshorter, ?_⟩
        rw [cons_append, preorderFrom_cons_of_notMem hmem, hafter]

end

variable {around : Surroundings} {tree : FileTree} {entry : Path} {file : SourceFile} {g₀ g : ImportGraph}

def Reaches (g : ImportGraph) (tree : FileTree) : SourceFile → SourceFile → Prop :=
  ReflTransGen fun a b => b ∈ g.sources (a.place tree)

theorem mem_of_module? (h : g.module? a = some m) : (a, m) ∈ g.modules := by
  obtain ⟨front, back, hmodules, -⟩ := lookup_eq_some_iff.1 h
  rw [hmodules]
  exact mem_append_right _ mem_cons_self

theorem exists_module_of_mem_sources (hs : s ∈ g.sources a) : ∃ m, (a, m) ∈ g.modules ∧ s ∈ m.imports.sources := by
  rw [sources] at hs
  cases hm : g.module? a with
  | none => simp [hm] at hs
  | some m => exact ⟨m, mem_of_module? hm, by simpa [hm] using hs⟩

theorem nodup_eraseDups (l : List Path) : l.eraseDups.Nodup := by
  induction hn : l.length using Nat.strong_induction_on generalizing l with
  | _ n ih =>
    cases l with
    | nil => simp
    | cons a l =>
      have hshorter := length_filter_le (fun b => !b == a) l
      rw [eraseDups_cons, nodup_cons, mem_eraseDups]
      exact ⟨by simp, ih _ (by rw [length_cons] at hn; omega) _ rfl⟩

theorem known_of_walk (h : (walk around tree entry).outcome g₀ = (.ok file, g)) :
    file.place tree ∈ g.modules.map Prod.fst ∧
      ∀ x ∈ g.modules, ∀ s ∈ x.2.imports.sources, s.place tree ∈ g.modules.map Prod.fst := by
  obtain ⟨-, hexplores⟩ := explores_of_outcome h
  obtain ⟨hstart, new, hperm, -, hsettled⟩ := hexplores.completed
  have hknown {s : SourceFile} (hs : Settled tree g [] s) : s.place tree ∈ g.modules.map Prod.fst := by
    obtain ⟨x, hx, hplace⟩ := exists_of_mem_names hs.1
    exact hplace ▸ mem_map_of_mem hx
  refine ⟨hknown (hstart file mem_cons_self), fun x hx s hs => hknown (hsettled x ?_ s hs)⟩
  simpa using hperm.mem_iff.1 hx

theorem depthFirst_preorder (h : (walk around tree entry).outcome g₀ = (.ok file, g)) :
    DepthFirst (·.place tree) g.sources [] [file] (g.preorder tree file) := by
  obtain ⟨hfile, hsources⟩ := known_of_walk h
  have hnext : ∀ a, a ∈ g.modules.map Prod.fst → ∀ s ∈ g.sources a, s.place tree ∈ g.modules.map Prod.fst := by
    intro a _ s hs
    obtain ⟨m, hm, hs⟩ := exists_module_of_mem_sources hs
    exact hsources _ hm s hs
  have hremains : Remains (· ∈ g.modules.map Prod.fst) [] (g.modules.map Prod.fst).eraseDups :=
    ⟨nodup_eraseDups _, fun a => by simp⟩
  obtain ⟨order, remaining', hfirst, -, -, horder⟩ :=
    exists_depthFirst hnext hremains (forall_mem_singleton.2 hfile) []
  have hpreorder : g.preorder tree file = order := by
    rw [preorder, show [file] = [file] ++ [] from rfl, horder, preorderFrom_eq_nil rfl, append_nil]
  exact hpreorder ▸ hfirst

theorem exists_module_of_reaches (h : (walk around tree entry).outcome g₀ = (.ok file, g))
    (hf : g.Reaches tree file f) :
    tree.isFile f.path ∧ ∃ m, g.module? (f.place tree) = some m ∧ f.unit tree = .ok m.unit := by
  obtain ⟨hentry, hexplores⟩ := explores_of_outcome h
  have hfile := SourceFile.isFile_of_entry hentry
  have hloaded : Loaded around tree g := hexplores.loaded (by simp [Loaded]) (by simpa using hfile)
  obtain ⟨hknown, hsources⟩ := known_of_walk h
  have hreached : tree.isFile f.path ∧ f.place tree ∈ g.modules.map Prod.fst := by
    cases hf with
    | refl => exact ⟨hfile, hknown⟩
    | tail _ hs =>
      obtain ⟨m, hm, hs⟩ := exists_module_of_mem_sources hs
      exact ⟨SourceModule.isFile_of_mem_imports (hloaded _ hm).2.2 hs, hsources _ hm _ hs⟩
  obtain ⟨hfile, hplace⟩ := hreached
  cases hm : g.module? (f.place tree) with
  | none =>
    obtain ⟨x, hx, hplace⟩ := mem_map.1 hplace
    exact absurd hplace.symm (by simpa using lookup_eq_none_iff.1 hm x hx)
  | some m =>
    obtain ⟨hplace, hmfile, hload⟩ := hloaded _ (mem_of_module? hm)
    obtain ⟨hunit, -⟩ := SourceModule.load_eq_ok_iff.1 (SourceModule.load_of_resolve hload hmfile hfile hplace.symm)
    exact ⟨hfile, m, rfl, hunit⟩

end BraceLang.ImportGraph
