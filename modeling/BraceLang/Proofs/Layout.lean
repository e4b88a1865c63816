import BraceLang.Proofs.Outline

/-!
# Texts in whole lines

Statements are written in whole lines, each behind its indentation.
-/

namespace BraceLang

open List Node Render LineMark

variable {k : Nat} {o : Option String} {ms ms' : List LineMark} {P : String → Prop}

/-! ### Whole lines -/

def unlines (lines : List String) : String := String.join (lines.map (· ++ "\n"))

/-- The text consists of whole lines with the given marks. -/
def IsLaidOut (ms : List LineMark) (t : String) : Prop :=
  ∃ lines : List String, t = unlines lines ∧ (∀ l ∈ lines, OneLine l) ∧ lines.map LineMark.ofLine = ms

def EndsLine (t : String) : Prop := t.toList.getLast? = some '\n' ∧ '\n' ∉ t.toList.dropLast

instance (t : String) : Decidable (EndsLine t) := inferInstanceAs (Decidable (_ ∧ _))

def IsFullLine (o : Option String) (t : String) : Prop := ∃ u, t = u ++ "\n" ∧ IsLine o u

def indentation (k : Nat) : String := String.ofList (replicate (4 * k) ' ')

section

variable {t u : String}

theorem EndsLine.eq_append (h : EndsLine t) : ∃ u, t = u ++ "\n" ∧ OneLine u := by
  obtain ⟨cs, hcs⟩ := getLast?_eq_some_iff.1 h.1
  have hinit : '\n' ∉ cs := by simpa [hcs] using h.2
  refine ⟨String.ofList cs, String.toList_injective ?_, oneLine_ofList hinit⟩
  rw [hcs, String.toList_append, String.toList_ofList]
  rfl

theorem endsLine_append_newline (h : OneLine t) : EndsLine (t ++ "\n") := by
  have hlist : (t ++ "\n").toList = t.toList ++ ['\n'] := String.toList_append
  rw [EndsLine, hlist, getLast?_concat, dropLast_concat]
  exact ⟨rfl, h⟩

theorem EndsLine.append (ht : OneLine t) (hu : EndsLine u) : EndsLine (t ++ u) := by
  obtain ⟨v, rfl, hv⟩ := hu.eq_append
  rw [← String.append_assoc]
  exact endsLine_append_newline (oneLine_append.2 ⟨ht, hv⟩)

theorem IsLine.marked (h : IsLine o t) (hv : OneLine v) (hu : OneLine u)
    (hmark : u.toList.head?.any (!isWordChar ·)) : IsHead o (t ++ (u ++ v)) := by
  rw [← String.append_assoc]
  exact (h.mark hu hmark).append hv

theorem IsLine.full (h : IsLine o t) : IsFullLine o (t ++ "\n") := ⟨t, rfl, h⟩

theorem IsHead.full (h : IsHead o t) (hu : EndsLine u) : IsFullLine o (t ++ u) := by
  obtain ⟨v, rfl, hv⟩ := hu.eq_append
  rw [← String.append_assoc]
  exact (h.append hv).toIsLine.full

theorem ofLine_indentation (h : IsLine o t) : LineMark.ofLine (indentation k ++ t) = .line (4 * k) o := by
  obtain ⟨c, hc, hne⟩ := (Option.any_eq_true _ _).1 h.starts
  obtain ⟨cs, hcs⟩ := head?_eq_some_iff.1 hc
  have htext : (indentation k ++ t).toList.dropWhile (· = ' ') = t.toList := by
    rw [indentation, String.toList_append, String.toList_ofList, dropWhile_append_of_pos (by simp), hcs,
      dropWhile_cons_of_neg (by simpa using hne)]
  have hlength : (indentation k ++ t).toList.length = 4 * k + t.toList.length := by simp [indentation]
  rw [LineMark.ofLine, htext, hlength, Nat.add_sub_cancel, h.opens, if_neg (by simp [hcs])]

theorem isLaidOut_nil : IsLaidOut [] "" := ⟨[], rfl, forall_mem_nil _, rfl⟩

theorem IsLaidOut.append (h : IsLaidOut ms t) (h' : IsLaidOut ms' u) : IsLaidOut (ms ++ ms') (t ++ u) := by
  obtain ⟨ls, rfl, hls, rfl⟩ := h
  obtain ⟨ls', rfl, hls', rfl⟩ := h'
  refine ⟨ls ++ ls', ?_, forall_mem_append.2 ⟨hls, hls'⟩, map_append⟩
  rw [unlines, unlines, unlines, map_append, String.join_append]

theorem isLaidOut_singleton (h : OneLine t) : IsLaidOut [LineMark.ofLine t] (t ++ "\n") := by
  refine ⟨[t], ?_, forall_mem_singleton.2 h, rfl⟩
  rw [unlines, map_singleton, String.join_cons, String.join_nil, String.append_empty]

theorem isLaidOut_blank : IsLaidOut [blank] "\n" := isLaidOut_singleton (t := "") (by decide)

theorem IsFullLine.isLaidOut (h : IsFullLine o t) : IsLaidOut [.line (4 * k) o] (indentation k ++ t) := by
  obtain ⟨u, rfl, hu⟩ := h
  rw [← ofLine_indentation hu, ← String.append_assoc]
  have hblanks : OneLine (indentation k) := oneLine_ofList (by simp)
  exact isLaidOut_singleton (oneLine_append.2 ⟨hblanks, hu.oneLine⟩)

end

/-! ### Texts in whole lines -/

namespace Render

theorem append_assoc (r r' r'' : Render String) : r ++ r' ++ r'' = r ++ (r' ++ r'') :=
  funext fun _ => Prod.ext String.append_assoc rfl

theorem line_append (t u : String) : line (t ++ u) = line t ++ pure u :=
  funext fun _ => Prod.ext String.append_assoc.symm rfl

/-- `k` blocks deep the text consists of whole lines with the given marks. -/
def Lays (k : Nat) (r : Render String) (ms : List LineMark) : Prop := Tells k r (IsLaidOut ms)

section

variable {α : Type} {t u : String} {r r' : Render String}

theorem tells_line : Tells k (line t) (· = indentation k ++ t) := by
  intro s hs
  obtain rfl := hs.depth
  exact ⟨rfl, hs⟩

theorem Tells.deeper (h : Tells (k + 1) r P) : Tells k (deeper r) P := by
  intro s hs
  obtain ⟨htext, hafter⟩ := h { s with depth := s.depth + 1 } ⟨congrArg (· + 1) hs.depth, hs.finals⟩
  exact ⟨htext, congrArg (· - 1) hafter.depth, hafter.finals⟩

theorem Tells.withFinals (h : Tells k r P) : Tells k (withFinals r) P := by
  intro s hs
  obtain ⟨htext, hafter⟩ := h { s with finals := [] :: s.finals }
    ⟨hs.depth, forall_mem_cons.2 ⟨forall_mem_nil _, hs.finals⟩⟩
  -- the scope that is closed is the first one, if it is not the only one
  have hclose (t : String) (c : Context) (ht : P t) (hc : c.At k) :
      P (Render.withFinals (fun _ => (t, c)) s).1 ∧ (Render.withFinals (fun _ => (t, c)) s).2.At k := by
    obtain ⟨hdepth, hfinals⟩ := hc
    rcases c with ⟨depth, inClass, _ | ⟨scope, _ | ⟨scope', scopes⟩⟩, classNames, classStack, typeParams⟩
    · exact ⟨ht, hdepth, hfinals⟩
    · exact ⟨ht, hdepth, hfinals⟩
    · exact ⟨ht, hdepth, (forall_mem_cons.1 hfinals).2⟩
  exact hclose _ _ htext hafter

theorem Tells.withinClass (name : String) (params : Option (List String)) (h : Tells k r P) :
    Tells k (withinClass name params r) P := by
  intro s hs
  obtain ⟨htext, hafter⟩ := h { s with
    inClass := true, classStack := name :: s.classStack, typeParams := params.getD s.typeParams } ⟨hs.depth, hs.finals⟩
  exact ⟨htext, hafter.depth, hafter.finals⟩

theorem Lays.append (h : Lays k r ms) (h' : Lays k r' ms') : Lays k (r ++ r') (ms ++ ms') :=
  Tells.append h h' fun _ _ => IsLaidOut.append

theorem Lays.deeper (h : Lays (k + 1) r ms) : Lays k (deeper r) ms := Tells.deeper h

theorem lays_empty : Lays k (pure "") [] := tells_pure isLaidOut_nil

theorem lays_blank : Lays k (pure "\n") [blank] := tells_pure isLaidOut_blank

theorem lays_line (h : IsFullLine o t) : Lays k (line t) [.line (4 * k) o] :=
  tells_line.mono fun _ heq => heq ▸ h.isLaidOut

theorem lays_margin (h : IsFullLine o t) : Lays k (pure t) [.line 0 o] := by
  have hlaid : IsLaidOut [.line (4 * 0) o] (indentation 0 ++ t) := h.isLaidOut
  exact tells_pure hlaid

theorem lays_closed (h : IsLine o t) : Lays k (line t ++ pure "\n") [.line (4 * k) o] := by
  rw [← line_append]
  exact lays_line h.full

theorem lays_spaced (h : IsHead o t) (hu : EndsLine u) : Lays k (line (t ++ (u ++ "\n"))) [.line (4 * k) o, blank] := by
  rw [← String.append_assoc, line_append]
  exact (lays_line (h.full hu)).append lays_blank

theorem lays_continued (h : IsHead o t) (hr : Tells k r EndsLine) : Lays k (line t ++ r) [.line (4 * k) o] :=
  tells_line.append hr fun _ u heq hu => by
    rw [heq, String.append_assoc]
    exact (h.full hu).isLaidOut

theorem lays_block (h : IsFullLine o t) (hr : Lays (k + 1) r ms) : Lays k (block t r) (.line (4 * k) o :: ms) :=
  (lays_line h).append hr.deeper

theorem lays_loop (h : IsHead (some word) t) (hr : Tells k r EndsLine) (hr' : Lays (k + 1) r' ms) :
    Lays k (line t ++ (r ++ deeper r')) (opening k word :: ms) := by
  rw [← append_assoc]
  exact (lays_continued h hr).append hr'.deeper

theorem lays_setFinal {name value : String} (h : IsLine none value) : Lays k (setFinal name value) [] := by
  rintro ⟨depth, inClass, finals, classNames, classStack, typeParams⟩ ⟨hdepth, hfinals⟩
  unfold setFinal
  split
  · exact ⟨isLaidOut_nil, hdepth, hfinals⟩
  · cases finals with
    | nil => exact ⟨isLaidOut_nil, hdepth, forall_mem_nil _⟩
    | cons =>
      obtain ⟨hscope, hscopes⟩ := forall_mem_cons.1 hfinals
      exact ⟨isLaidOut_nil, hdepth, forall_mem_cons.2 ⟨forall_mem_cons.2 ⟨h, hscope⟩, hscopes⟩⟩

theorem lays_each {xs : List α} (h : ∀ x ∈ xs, Lays k (f x) [plain k]) :
    Lays k (each f xs) (replicate xs.length (plain k)) := by
  induction xs with
  | nil => exact lays_empty
  | cons x xs ih =>
    obtain ⟨hx, hxs⟩ := forall_mem_cons.1 h
    exact hx.append (ih hxs)

end

end Render

end BraceLang
