import BraceLang.Build.Imports

/-!
# Names of files

A path to something in a directory is resolved by resolving the directory (`FileTree.resolve_child`).
-/

namespace BraceLang

open List

namespace Path

variable {p q : Path} {c : Char} {s : String}

def IsPart (s : String) : Prop := '/' ∉ s.toList ∧ s ≠ "" ∧ s ≠ "."

instance (s : String) : Decidable (IsPart s) := inferInstanceAs (Decidable (_ ∧ _))

def child (p : Path) (name : String) : Path := { p with parts := p.parts ++ [name] }

theorem child_inj : p.child a = q.child b ↔ p = q ∧ a = b := by
  obtain ⟨anchor, parts⟩ := p
  obtain ⟨anchor', parts'⟩ := q
  simp [child, and_assoc]

@[simp]
theorem name_child (p : Path) (name : String) : (p.child name).name = name := by
  simp [child, Path.name]

@[simp]
theorem parent_child (p : Path) (name : String) : (p.child name).parent = p := by
  simp [child, parent]

theorem eq_child_of_parts (h : p.parts ≠ []) : p = p.parent.child p.name := by
  obtain ⟨front, part, hparts⟩ : ∃ front part, p.parts = front ++ [part] :=
    ⟨_, _, (dropLast_concat_getLast h).symm⟩
  rw [parent, Path.name, child, hparts, dropLast_concat, getLast?_concat, Option.getD_some, ← hparts]

theorem withSuffix_eq_child (p : Path) (suffix : String) :
    p.withSuffix suffix = p.parent.child (p.stem ++ suffix) := rfl

/-! ### Parts of a text -/

theorem exists_mem_splitOn {l : List Char} (hc : c ∈ l) (hsep : c ≠ sep) :
    ∃ part ∈ l.splitOn sep, c ∈ part := by
  induction l with
  | nil => cases hc
  | cons x xs ih =>
    rw [splitOn, splitOnP_cons_eq_if_modifyHead, ← splitOn]
    obtain ⟨y, ys, hsplit⟩ := exists_cons_of_ne_nil (splitOn_ne_nil sep xs)
    rw [hsplit] at ih ⊢
    rcases mem_cons.1 hc with rfl | hc
    · exact ⟨c :: y, by simp [hsep], mem_cons_self⟩
    · obtain ⟨part, hpart, hmem⟩ := ih hc
      split
      · exact ⟨part, mem_cons_of_mem _ hpart, hmem⟩
      · rcases mem_cons.1 hpart with rfl | hpart
        · exact ⟨x :: part, mem_cons_self, mem_cons_of_mem x hmem⟩
        · exact ⟨part, mem_cons_of_mem _ hpart, hmem⟩

theorem partsOf_ne_nil {text : String} (hc : c ∈ text.toList) (hslash : c ≠ '/') (hpoint : c ≠ '.') :
    partsOf text ≠ [] := by
  obtain ⟨part, hpart, hmem⟩ := exists_mem_splitOn hc hslash
  refine ne_nil_of_mem (mem_filter.2 ⟨mem_map_of_mem hpart, ?_⟩)
  have hempty : String.ofList part ≠ "" := by
    intro h
    rw [← String.toList_inj, String.toList_ofList] at h
    simp [h] at hmem
  have hdot : String.ofList part ≠ "." := by
    intro h
    rw [← String.toList_inj, String.toList_ofList] at h
    simp [h, hpoint] at hmem
  simp [hempty, hdot]

theorem IsPart.parts_ne_nil (h : IsPart p.name) : p.parts ≠ [] := by
  intro hnil
  exact h.2.1 (by rw [Path.name, hnil]; rfl)

theorem partsOf_of_isPart (h : IsPart s) : partsOf s = [s] := by
  obtain ⟨hslash, hempty, hpoint⟩ := h
  have hsplit : s.toList.splitOn '/' = [s.toList] := by
    refine splitOnP_eq_singleton fun c hc => ?_
    have hne : c ≠ '/' := fun heq => hslash (heq ▸ hc)
    simpa using hne
  simp [partsOf, hsplit, hempty, hpoint]

theorem join_of_isPart (h : IsPart s) (p : Path) : p.join s = p.child s := by
  rw [join, partsOf_of_isPart h, child]

theorem partsOf_append_slash (front : String) (h : IsPart s) : partsOf (front ++ "/" ++ s) = partsOf front ++ [s] := by
  have hsplit : (front ++ "/" ++ s).toList.splitOn '/' = front.toList.splitOn '/' ++ s.toList.splitOn '/' := by
    rw [splitOn, String.toList_append, String.toList_append, List.append_assoc]
    exact splitOnP_append_cons _ _ (beq_self_eq_true '/')
  have hs := partsOf_of_isPart h
  rw [partsOf] at hs
  rw [partsOf, hsplit, map_append, filter_append, hs, partsOf]

/-! ### Suffixes -/

theorem dropSuffix_source (h : s ≠ "") : dropSuffix (s ++ ".spc") = s := by
  have hstart : suffixStart (s ++ ".spc").toList = s.toList.length := by
    have hafter : ((s ++ ".spc").toList.reverse.takeWhile (· ≠ '.')) = ['c', 'p', 's'] := by
      simp
    simp only [suffixStart, hafter]
    simp
    omega
  rw [dropSuffix, hstart]
  simp

def outputName (p : Path) (form : OutputForm) : String := p.stem ++ form.suffix

theorem three_le_length_outputName (p : Path) (form : OutputForm) : 3 ≤ (p.outputName form).length := by
  have hsuffix : 3 ≤ form.suffix.length := by cases form <;> decide
  rw [outputName, String.length_append]
  omega

theorem outputName_ne_up (p : Path) (form : OutputForm) : p.outputName form ≠ ".." := by
  intro heq
  have hlength := p.three_le_length_outputName form
  rw [heq] at hlength
  exact absurd hlength (by decide)

theorem isPart_outputName (h : IsPart p.name) (form : OutputForm) : IsPart (p.outputName form) := by
  have hlength := p.three_le_length_outputName form
  refine ⟨?_, ?_, ?_⟩
  · have hstem : '/' ∉ p.stem.toList := by
      rw [stem, dropSuffix, String.toList_ofList]
      exact fun hmem => h.1 (mem_of_mem_take hmem)
    have hsuffix : '/' ∉ form.suffix.toList := by cases form <;> decide
    rw [outputName, String.toList_append, mem_append]
    exact not_or.2 ⟨hstem, hsuffix⟩
  · intro heq
    rw [heq] at hlength
    exact absurd hlength (by decide)
  · intro heq
    rw [heq] at hlength
    exact absurd hlength (by decide)

theorem outputName_inj : p.outputName form = q.outputName form ↔ p.stem = q.stem := by
  rw [outputName, outputName, ← String.toList_inj, String.toList_append, String.toList_append,
    append_left_inj, String.toList_inj]

end Path

/-! ### Resolved paths -/

namespace FileTree

theorem collapse_concat (h : part ≠ "..") : Path.collapse (parts ++ [part]) = Path.collapse parts ++ [part] := by
  rw [Path.collapse, foldl_append, ← Path.collapse]
  simp [h]

theorem resolve_child (t : FileTree) (h : name ≠ "..") (p : Path) :
    t.resolve (p.child name) = (t.resolve p).child name := by
  have hbelow : Path.collapse (t.cwd.parts ++ (p.parts ++ [name])) =
      Path.collapse (t.cwd.parts ++ p.parts) ++ [name] := by
    rw [← List.append_assoc, collapse_concat h]
  rw [resolve, resolve, Path.resolve, Path.resolve, Path.child]
  cases p.anchor <;> simp [collapse_concat h, hbelow, Path.child]

end FileTree

end BraceLang
