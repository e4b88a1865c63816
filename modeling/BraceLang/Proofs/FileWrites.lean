import BraceLang.Proofs.ImportSearch

/-!
# Writing files

Writing a file changes what is at its place and nothing else.
-/

namespace BraceLang.FileTree

open List

variable {t t' : FileTree} {p : Path} {text : String}

def Writable (t : FileTree) (p : Path) : Prop := ∃ here, t.place p = .ok here ∧ t.entry? here ≠ some .directory

theorem writable_iff : t.Writable p ↔
    (t.place p).toOption.any (fun here => t.entry? here ≠ some .directory) := by
  rw [Writable]
  cases t.place p with
  | error => exact ⟨nofun, nofun⟩
  | ok => simp [Except.toOption]

instance : Decidable (t.Writable p) := decidable_of_iff _ writable_iff.symm

theorem write_eq_ok_iff : t.write p text = .ok t' ↔
    ∃ here, t.place p = .ok here ∧ t.entry? here ≠ some .directory ∧ t' = t.putEntry here (.file text) := by
  rw [write]
  cases hplace : t.place p with
  | error => exact ⟨nofun, nofun⟩
  | ok here =>
    have hfile : (.ok (t.putEntry here (.file text)) : Except FileError FileTree) = .ok t' ↔
        t' = t.putEntry here (.file text) := ⟨fun h => (Except.ok.inj h).symm, fun h => h ▸ rfl⟩
    simp only [bind, Except.bind, Except.ok.injEq, exists_eq_left']
    rcases hentry : t.entry? here with _ | _ | _
    · exact hfile.trans (by simp)
    · exact hfile.trans (by simp)
    · simp

theorem lookup_cons_ite (entries : List (List String × FileEntry)) (place q : List String) (e : FileEntry) :
    ((place, e) :: entries).lookup q = if q = place then some e else entries.lookup q := by
  by_cases hq : q = place
  · simp [hq]
  · have hne : (q == place) = false := beq_false_of_ne hq
    rw [lookup_cons, hne, if_neg hq]

theorem lookup_putEntry (entries : List (List String × FileEntry)) (here q : List String) (e : FileEntry) :
    (entries.filter (·.1 ≠ here) ++ [(here, e)]).lookup q = if q = here then some e else entries.lookup q := by
  induction entries with
  | nil => exact lookup_cons_ite [] here q e
  | cons x rest ih =>
    obtain ⟨place, old⟩ := x
    rw [lookup_cons_ite]
    by_cases hplace : place = here
    · rw [filter_cons_of_neg (by simpa using hplace), ih, hplace]
      split <;> rfl
    · rw [filter_cons_of_pos (by simpa using hplace), cons_append, lookup_cons_ite, ih]
      by_cases hq : q = place
      · rw [if_pos hq, if_neg (hq ▸ hplace), if_pos hq]
      · rw [if_neg hq, if_neg hq]

variable {outputs : List (Path × String)} {here : List String}

theorem entry?_putEntry (hne : here ≠ []) (e : FileEntry) (place : List String) :
    FileTree.entry? (t.putEntry here e) place = if place = here then some e else t.entry? place := by
  unfold FileTree.entry?
  rw [putEntry, lookup_putEntry]
  cases place with
  | nil => simp [hne.symm]
  | cons => rfl

/-! ### What stays -/

structure SameDirectories (t t' : FileTree) : Prop where
  cwd : t'.cwd = t.cwd
  directory : ∀ place, t'.entry? place = some .directory ↔ t.entry? place = some .directory

namespace SameDirectories

theorem refl (t : FileTree) : SameDirectories t t := ⟨rfl, fun _ => Iff.rfl⟩

theorem symm (h : SameDirectories t t') : SameDirectories t' t := ⟨h.cwd.symm, fun place => (h.directory place).symm⟩

theorem trans (h : SameDirectories t t') (h' : SameDirectories t' t'') : SameDirectories t t'' :=
  ⟨h'.cwd.trans h.cwd, fun place => (h'.directory place).trans (h.directory place)⟩

theorem follow (h : SameDirectories t t') (hfollow : t.follow p here parts = .ok last) :
    t'.follow p here parts = .ok last := by
  induction parts generalizing here with
  | nil => exact hfollow
  | cons part parts ih =>
    rw [FileTree.follow] at hfollow ⊢
    split at hfollow
    · next hdirectory =>
      rw [(h.directory here).2 hdirectory]
      exact ih hfollow
    · cases hfollow
    · cases hfollow

theorem place (h : SameDirectories t t') (hplace : t.place p = .ok here) : t'.place p = .ok here := by
  rw [FileTree.place] at hplace ⊢
  rw [h.cwd]
  split at hplace
  · next hnone => rw [if_pos hnone, h.follow hplace]
  · next hsome =>
    split at hplace
    · next hsame => rw [if_neg hsome, if_pos hsame, h.follow hplace]
    · cases hplace

theorem toOption_place (h : SameDirectories t t') (p : Path) : (t'.place p).toOption = (t.place p).toOption := by
  cases hplace : t.place p with
  | ok => rw [h.place hplace]
  | error =>
    cases hplace' : t'.place p with
    | error => rfl
    | ok => rw [h.symm.place hplace'] at hplace; cases hplace

theorem writable (h : SameDirectories t t') (hp : t.Writable p) : t'.Writable p := by
  obtain ⟨here, hplace, hfree⟩ := hp
  exact ⟨here, h.place hplace, (h.directory here).not.2 hfree⟩

theorem resolve (h : SameDirectories t t') (p : Path) : t'.resolve p = t.resolve p := by
  rw [FileTree.resolve, FileTree.resolve, h.cwd]

end SameDirectories

theorem exists_write (hplace : t.place p = .ok here) (hfree : t.entry? here ≠ some .directory) (text : String) :
    ∃ t', t.write p text = .ok t' ∧ SameDirectories t t' ∧
      ∀ place, t'.entry? place = if place = here then some (.file text) else t.entry? place := by
  have hne : here ≠ [] := by
    rintro rfl
    exact hfree rfl
  have hentry := entry?_putEntry (t := t) hne (.file text)
  refine ⟨_, write_eq_ok_iff.2 ⟨here, hplace, hfree, rfl⟩, ⟨rfl, fun place => ?_⟩, hentry⟩
  rw [hentry]
  by_cases hsame : place = here
  · simp [hsame, hfree]
  · rw [if_neg hsame]

/-! ### Files one after the other -/

def writeAll (t : FileTree) (outputs : List (Path × String)) : Except FileError FileTree :=
  outputs.foldlM (fun t w => t.write w.1 w.2) t

/-- What is at a place when files have been written one after the other. -/
def after (t : FileTree) (outputs : List (Path × String)) (place : List String) : Option FileEntry :=
  outputs.foldl (fun e w => if (t.place w.1).toOption = some place then some (.file w.2) else e) (t.entry? place)

theorem toOption_eq_some_iff {place : Except FileError (List String)} :
    place.toOption = some here ↔ place = .ok here := by
  cases place with
  | error => exact ⟨nofun, nofun⟩
  | ok => exact ⟨fun h => congrArg _ (Option.some.inj h), fun h => congrArg some (Except.ok.inj h)⟩

theorem after_of_ne {place : List String} (h : ∀ w ∈ outputs, t.place w.1 ≠ .ok place) :
    t.after outputs place = t.entry? place := by
  rw [after]
  induction outputs with
  | nil => rfl
  | cons w outputs ih =>
    obtain ⟨hw, houtputs⟩ := forall_mem_cons.1 h
    rw [foldl_cons, if_neg (toOption_eq_some_iff.not.2 hw), ih houtputs]

theorem exists_writeAll (h : ∀ w ∈ outputs, t.Writable w.1) :
    ∃ t', t.writeAll outputs = .ok t' ∧ SameDirectories t t' ∧ ∀ place, t'.entry? place = t.after outputs place := by
  induction outputs generalizing t with
  | nil => exact ⟨t, rfl, .refl t, fun _ => rfl⟩
  | cons w outputs ih =>
    obtain ⟨⟨here, hplace, hfree⟩, houtputs⟩ := forall_mem_cons.1 h
    obtain ⟨next, hnext, hsame, hentry⟩ := exists_write hplace hfree w.2
    obtain ⟨t', ht', hsame', hafter⟩ := ih fun w hw => hsame.writable (houtputs w hw)
    refine ⟨t', ?_, hsame.trans hsame', fun place => ?_⟩
    · rw [writeAll, foldlM_cons, hnext]
      exact ht'
    · have hfirst : (t.place w.1).toOption = some place ↔ place = here := by
        rw [toOption_eq_some_iff, hplace, Except.ok.injEq, eq_comm]
      simp only [hafter, after, foldl_cons, hentry, hsame.toOption_place, hfirst]

theorem writable_of_writeAll (h : t.writeAll outputs = .ok t') : ∀ w ∈ outputs, t.Writable w.1 := by
  induction outputs generalizing t with
  | nil => exact forall_mem_nil _
  | cons w outputs ih =>
    rw [writeAll, foldlM_cons] at h
    cases hnext : t.write w.1 w.2 with
    | error =>
      rw [hnext] at h
      cases h
    | ok =>
      rw [hnext] at h
      obtain ⟨here, hplace, hfree, -⟩ := write_eq_ok_iff.1 hnext
      obtain ⟨_, hwrite, hsame, -⟩ := exists_write hplace hfree w.2
      cases hnext.symm.trans hwrite
      exact forall_mem_cons.2 ⟨⟨here, hplace, hfree⟩, fun w hw => hsame.symm.writable (ih h w hw)⟩

theorem exists_last_write {place : List String} (h : ∃ w ∈ outputs, t.place w.1 = .ok place) :
    ∃ before w later, outputs = before ++ w :: later ∧ t.place w.1 = .ok place ∧
      (∀ w' ∈ later, t.place w'.1 ≠ .ok place) ∧ t.after outputs place = some (.file w.2) := by
  induction outputs using reverseRecOn with
  | nil => simp at h
  | append_singleton outputs last ih =>
    have hafter : t.after (outputs ++ [last]) place =
        if t.place last.1 = .ok place then some (.file last.2) else t.after outputs place := by
      simp only [after, foldl_append, foldl_cons, foldl_nil, toOption_eq_some_iff]
    by_cases hlast : t.place last.1 = .ok place
    · exact ⟨outputs, last, [], rfl, hlast, forall_mem_nil _, by rw [hafter, if_pos hlast]⟩
    · obtain ⟨w, hw, hplace⟩ := h
      have hmem : w ∈ outputs := by
        rcases mem_append.1 hw with hw | hw
        · exact hw
        · exact absurd (mem_singleton.1 hw ▸ hplace) hlast
      obtain ⟨before, w, later, rfl, hplace, hlater, hfile⟩ := ih ⟨w, hmem, hplace⟩
      refine ⟨before, w, later ++ [last], by simp, hplace, ?_, by rw [hafter, if_neg hlast, hfile]⟩
      intro w' hw'
      rcases mem_append.1 hw' with hw' | hw'
      · exact hlater w' hw'
      · exact mem_singleton.1 hw' ▸ hlast

end BraceLang.FileTree
