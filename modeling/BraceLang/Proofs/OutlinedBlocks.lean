import BraceLang.Proofs.Outline

/-!
# Well blocked outlines

An outline is well blocked if a line one level deeper stands below each line that opens a block, and if each `elif`
and each `else` goes on with an `if` or `elif` of the same indentation.
-/

namespace BraceLang

open List LineMark

variable {above ms : List LineMark} {k : Nat} {word : String} {role : Role} {n : Node} {W : TokenKind → String → Prop}

namespace LineMark

section

variable {i : Nat} {a b c : List LineMark}

theorem StartsAt.append (h : StartsAt i a) : StartsAt i (a ++ b) := by
  induction a with
  | nil => exact h.elim
  | cons m a ih =>
    cases m with
    | blank => exact ih h
    | line => exact h

theorem Continues.append (h : Continues i a) : Continues i (a ++ b) := by
  induction a with
  | nil => exact h.elim
  | cons m a ih =>
    cases m with
    | blank => exact ih h
    | line j o =>
      rw [cons_append, Continues]
      rw [Continues] at h
      split at h
      · next hlt =>
        rw [if_pos hlt]
        exact ih h
      · next hlt =>
        rw [if_neg hlt]
        exact h

theorem Continues.past (hwithin : ∀ m ∈ a, Within (i + 1) m) (h : Continues i b) : Continues i (a ++ b) := by
  induction a with
  | nil => exact h
  | cons m a ih =>
    obtain ⟨hm, ha⟩ := forall_mem_cons.1 hwithin
    cases m with
    | blank => exact ih ha
    | line j =>
      rw [cons_append, Continues, if_pos (show i < j from hm)]
      exact ih ha

theorem WellBlocked.mono (h : WellBlocked c ms) : WellBlocked (c ++ above) ms := by
  induction ms generalizing c with
  | nil => trivial
  | cons m ms ih =>
    match m, h with
    | blank, h | line _ none, h => exact ih h
    | line j (some word), ⟨hstarts, hchain, hrest⟩ => exact ⟨hstarts, fun hword => (hchain hword).append, ih hrest⟩

theorem WellBlocked.append (h : WellBlocked above a) (h' : WellBlocked (a.reverse ++ above) b) :
    WellBlocked above (a ++ b) := by
  induction a generalizing above with
  | nil => exact h'
  | cons m a ih =>
    rw [reverse_cons, List.append_assoc] at h'
    match m, h with
    | blank, h | line _ none, h => exact ih h h'
    | line j (some word), ⟨hstarts, hchain, hrest⟩ => exact ⟨hstarts.append, hchain, ih hrest h'⟩

end

/-- An outline `k` blocks deep that is well blocked by itself. -/
structure Sound (k : Nat) (ms : List LineMark) : Prop where
  closed : WellBlocked [] ms
  within : ∀ m ∈ ms, Within (4 * k) m

/-- An outline that can stand below a line `k` blocks deep that opens a block. -/
structure Filled (k : Nat) (ms : List LineMark) : Prop extends Sound (k + 1) ms where
  starts : StartsAt (4 * k + 4) ms

/-- An outline that goes on with a chain `k` blocks deep. -/
structure Links (k : Nat) (ms : List LineMark) : Prop where
  chained : ∀ above, Continues (4 * k) above → WellBlocked above ms
  within : ∀ m ∈ ms, Within (4 * k) m

section

variable {a b : List LineMark}

theorem sound_nil : Sound k [] := ⟨trivial, forall_mem_nil _⟩

theorem sound_plain : Sound k [plain k] := ⟨trivial, forall_mem_singleton.2 (Nat.le_refl _)⟩

theorem sound_blank : Sound k [blank] := ⟨trivial, forall_mem_singleton.2 trivial⟩

theorem Sound.append (ha : Sound k a) (hb : Sound k b) : Sound k (a ++ b) :=
  ⟨ha.closed.append hb.closed.mono, forall_mem_append.2 ⟨ha.within, hb.within⟩⟩

theorem Sound.cons_plain (h : Sound k a) : Sound k (plain k :: a) := sound_plain.append h

theorem Sound.cons_blank (h : Sound k a) : Sound k (blank :: a) := sound_blank.append h

theorem sound_replicate (n : Nat) : Sound k (replicate n (plain k)) := by
  induction n with
  | zero => exact sound_nil
  | succ n ih => exact ih.cons_plain

theorem Filled.within_opening (h : Filled k a) : ∀ m ∈ opening k word :: a, Within (4 * k) m := by
  refine forall_mem_cons.2 ⟨Nat.le_refl _, fun m hm => ?_⟩
  have hdeeper := h.within m hm
  cases m with
  | blank => trivial
  | line => exact Nat.le_trans (Nat.le_add_right _ 4) hdeeper

theorem Filled.sound (h : Filled k a) (hword : word ≠ "elif" ∧ word ≠ "else") : Sound k (opening k word :: a) :=
  ⟨⟨h.starts, fun hw => (hw.elim hword.1 hword.2).elim, h.closed.mono⟩, h.within_opening⟩

theorem links_nil : Links k [] := ⟨fun _ _ => trivial, forall_mem_nil _⟩

theorem Filled.links_else (h : Filled k a) : Links k (opening k "else" :: a) :=
  ⟨fun _ habove => ⟨h.starts, fun _ => habove, h.closed.mono⟩, h.within_opening⟩

theorem Filled.wellBlocked_chain (h : Filled k a) (hb : Links k b) (hword : word = "if" ∨ word = "elif")
    (habove : word = "elif" → Continues (4 * k) above) : WellBlocked above (opening k word :: (a ++ b)) := by
  have hnotElse : word ≠ "else" := by rcases hword with rfl | rfl <;> decide
  have hhere : Continues (4 * k) (opening k word :: above) := by
    rw [opening, Continues, if_neg (Nat.lt_irrefl _)]
    exact ⟨rfl, by rcases hword with rfl | rfl <;> simp⟩
  have hpast : Continues (4 * k) (a.reverse ++ opening k word :: above) := by
    refine hhere.past fun m hm => ?_
    have hdeeper := h.within m (mem_reverse.1 hm)
    cases m with
    | blank => trivial
    | line => exact Nat.le_trans (Nat.le_add_right _ 3) hdeeper
  exact ⟨h.starts.append, fun hw => habove (hw.resolve_right hnotElse), h.closed.mono.append (hb.chained _ hpast)⟩

theorem Filled.within_chain (h : Filled k a) (hb : Links k b) :
    ∀ m ∈ opening k word :: (a ++ b), Within (4 * k) m := by
  exact forall_mem_append.2 ⟨h.within_opening, hb.within⟩

theorem Filled.links_elif (h : Filled k a) (hb : Links k b) : Links k (opening k "elif" :: (a ++ b)) :=
  ⟨fun _ habove => h.wellBlocked_chain hb (.inr rfl) fun _ => habove, h.within_chain hb⟩

theorem Filled.sound_if (h : Filled k a) (hb : Links k b) : Sound k (opening k "if" :: (a ++ b)) :=
  ⟨h.wellBlocked_chain hb (.inl rfl) fun hword => absurd hword (by decide), h.within_chain hb⟩

end

end LineMark

/-! ### The outline of a suited tree -/

open Node

/-- At every depth the outline of the statement is well blocked.  If it is written it starts at its depth, and it can be
all that follows the first block of a conditional. -/
def Node.WellOutlined (n : Node) : Prop :=
  ∀ k, Sound k (n.outline k) ∧ (n.speaks = true → StartsAt (4 * k) (n.outline k) ∧ Links k (outlineElse k [n]))

def Role.Outlined : Role → Node → Prop
  | statement, n | member, n => n.isImport = false → n.WellOutlined
  | top, n => Sound 0 (n.outline 0)
  | case, .case _ body => ∀ k, Filled k (outlineAll (k + 1) body)
  | program, .module body => Sound 0 (outlineProgram body)
  | _, _ => True

section

variable {ns : List Node}

theorem sound_all (h : ∀ n ∈ ns, Sound k (n.outline k)) : Sound k (outlineAll k ns) := by
  induction ns with
  | nil => exact sound_nil
  | cons n ns ih =>
    obtain ⟨hn, hns⟩ := forall_mem_cons.1 h
    exact hn.append (ih hns)

theorem sound_following (h : ∀ n ∈ ns, Sound k (n.outline k)) : Sound k (outlineFollowing k ns) := by
  induction ns with
  | nil => exact sound_nil
  | cons n ns ih =>
    obtain ⟨hn, hns⟩ := forall_mem_cons.1 h
    exact (hn.append (ih hns)).cons_blank

theorem outline_of_silent (h : n.speaks = false) : n.outline k = [] := by
  unfold speaks at h
  split at h
  · rfl
  · cases h

theorem startsAt_all (hany : ns.any speaks)
    (h : ∀ n ∈ ns, n.speaks → StartsAt (4 * k) (n.outline k)) : StartsAt (4 * k) (outlineAll k ns) := by
  induction ns with
  | nil => cases hany
  | cons n ns ih =>
    obtain ⟨hn, hns⟩ := forall_mem_cons.1 h
    cases hspeaks : n.speaks with
    | true => exact (hn hspeaks).append
    | false =>
      rw [outlineAll, outline_of_silent hspeaks, nil_append]
      exact ih (by simpa [hspeaks] using hany) hns

theorem filled_all (hany : ns.any speaks) (h : ∀ n ∈ ns, n.WellOutlined) :
    Filled k (outlineAll (k + 1) ns) :=
  ⟨sound_all fun n hn => (h n hn _).1, show StartsAt (4 * (k + 1)) _ from
    startsAt_all hany fun n hn hspeaks => ((h n hn _).2 hspeaks).1⟩

theorem links_else (hany : ns = [] ∨ ns.any speaks) (h : ∀ n ∈ ns, n.WellOutlined) :
    Links k (outlineElse k ns) := by
  match ns, hany, h with
  | [], _, _ => exact links_nil
  | [n], hany, h =>
    have hspeaks : n.speaks := by simpa using hany
    exact ((h n mem_cons_self k).2 hspeaks).2
  | n :: m :: ns, hany, h =>
    rw [outlineElse]
    · exact (filled_all (hany.resolve_left (by simp)) h).links_else
    · simp

theorem links_default (hany : ns = [] ∨ ns.any speaks) (h : ∀ n ∈ ns, n.WellOutlined) :
    Links k (outlineDefault k ns) := by
  cases ns with
  | nil => exact links_nil
  | cons => exact (filled_all (hany.resolve_left (by simp)) h).links_else

theorem links_cases (h : ∀ n ∈ ns, Role.Outlined .case n) (hms : Links k ms) :
    Links k (outlineCases k "elif" ns ++ ms) := by
  induction ns with
  | nil => exact hms
  | cons n ns ih =>
    obtain ⟨hn, hns⟩ := forall_mem_cons.1 h
    cases n with
    | case =>
      rw [outlineCases, cons_append, List.append_assoc]
      exact (hn k).links_elif (ih hns)
    | _ => exact ih hns

theorem wellOutlined_of_startsAt (hsound : ∀ k, Sound k (n.outline k))
    (hstarts : ∀ k, StartsAt (4 * k) (n.outline k))
    (helse : ∀ k, outlineElse k [n] = opening k "else" :: outlineAll (k + 1) [n]) : n.WellOutlined := by
  refine fun k => ⟨hsound k, fun _ => ⟨hstarts k, ?_⟩⟩
  rw [helse]
  have hfilled : Filled k (n.outline (k + 1) ++ []) :=
    ⟨(hsound (k + 1)).append sound_nil, (hstarts (k + 1)).append⟩
  exact hfilled.links_else

theorem wellOutlined_of_all (himports : ns.all (!·.isImport))
    (h : ∀ n ∈ ns, n.isImport = false → n.WellOutlined) : ∀ n ∈ ns, n.WellOutlined :=
  fun n hn => h n hn (by simpa using all_eq_true.1 himports n hn)

theorem startsAt_replicate (count : Nat) :
    StartsAt (4 * k) (replicate count (plain k) ++ opening k word :: ms) := by
  cases count <;> rfl

theorem filled_members (h : Sound (k + 1) ms) : Filled k (plain (k + 1) :: ms) :=
  ⟨h.cons_plain, rfl⟩

theorem sound_signature : Sound k (signatureMarks k) :=
  (filled_members (sound_plain (k := k + 1))).sound (by decide)

theorem sound_members (bare : Bool) (h : ∀ n ∈ ns, n.WellOutlined) : Sound k (outlineMembers k bare ns) := by
  cases ns with
  | nil =>
    cases bare with
    | true => exact sound_plain
    | false => exact sound_nil
  | cons n =>
    obtain ⟨hn, hns⟩ := forall_mem_cons.1 h
    have hrest := (hn k).1.append (sound_following fun n hn => (hns n hn k).1)
    cases bare with
    | true => exact hrest
    | false => exact hrest.cons_blank

end

theorem Fits.outlined (h : Fits W role n) (hs : n.Everywhere fun m => m.isSuited = true) : role.Outlined n := by
  induction h with
  | pass | expressionStatement | declaration | returns | raises =>
    exact fun _ => wellOutlined_of_startsAt (fun _ => sound_plain) (fun _ => rfl) fun _ => rfl
  | finalDecl =>
    exact fun _ => wellOutlined_of_startsAt (fun _ => sound_plain.cons_plain) (fun _ => rfl) fun _ => rfl
  | imports => exact nofun
  | plainMember _ ih => exact ih hs
  | @plainTop n _ ih =>
    cases himport : n.isImport with
    | true =>
      cases n with
      | imports => exact sound_plain
      | _ => cases himport
    | false => exact (ih hs himport 0).1
  | @conditional _ t e _ _ _ _ iht ihe =>
    have hsuited : (t.any speaks && (e.isEmpty || e.any speaks) &&
        (t.all (!·.isImport) && e.all (!·.isImport))) := hs.here
    simp only [Bool.and_eq_true, Bool.or_eq_true, List.isEmpty_iff] at hsuited
    obtain ⟨⟨hthen, helse⟩, hthenImports, helseImports⟩ := hsuited
    have hthen (k : Nat) := filled_all (k := k) hthen
      (wellOutlined_of_all hthenImports fun n hn => iht n hn (hs.nodes 1 rfl n hn))
    have helse (k : Nat) := links_else (k := k) helse
      (wellOutlined_of_all helseImports fun n hn => ihe n hn (hs.nodes 2 rfl n hn))
    exact fun _ k => ⟨(hthen k).sound_if (helse k), fun _ => ⟨rfl, (hthen k).links_elif (helse k)⟩⟩
  | @forLoop _ body _ _ _ ih | @whileLoop _ body _ _ _ ih =>
    have hsuited : (body.any speaks && body.all (!·.isImport)) := hs.here
    obtain ⟨hany, himports⟩ := Bool.and_eq_true_iff.1 hsuited
    have hbody (k : Nat) := filled_all (k := k) hany
      (wellOutlined_of_all himports fun n hn => ih n hn (hs.nodes 1 rfl n hn))
    exact fun _ => wellOutlined_of_startsAt (fun k => (hbody k).sound (by decide)) (fun _ => rfl) fun _ => rfl
  | @case _ body _ _ _ ih =>
    have hsuited : (body.any speaks && body.all (!·.isImport)) := hs.here
    obtain ⟨hany, himports⟩ := Bool.and_eq_true_iff.1 hsuited
    exact fun k => filled_all hany (wellOutlined_of_all himports fun n hn => ih n hn (hs.nodes 1 rfl n hn))
  | @switch _ cases default _ hcases _ _ ihcases ihdefault =>
    have hsuited : ((default.isEmpty || (!cases.isEmpty && default.any speaks)) && default.all (!·.isImport)) :=
      hs.here
    simp only [Bool.and_eq_true, Bool.or_eq_true, List.isEmpty_iff, Bool.not_eq_true',
      isEmpty_eq_false_iff] at hsuited
    have hlinks (k : Nat) : Links k (outlineDefault k default) := links_default (hsuited.1.imp_right And.right)
      (wellOutlined_of_all hsuited.2 fun n hn => ihdefault n hn (hs.nodes 2 rfl n hn))
    match cases, hcases, ihcases, hs with
    | [], _, _, hs =>
      obtain rfl : default = [] := hsuited.1.resolve_right fun h => h.1 rfl
      exact fun _ k => ⟨sound_nil, nofun⟩
    | c :: cs, hcases, ihcases, hs =>
      obtain ⟨hc, hcs⟩ := forall_mem_cons.1 fun n hn => ihcases n hn (hs.nodes 1 rfl n hn)
      cases hcases c mem_cons_self with
      | @case value body =>
        have hsound (k : Nat) : Sound k (outlineCases k "if" (.case value body :: cs) ++ outlineDefault k default) := by
          rw [outlineCases, cons_append, List.append_assoc]
          exact (hc k).sound_if (links_cases hcs (hlinks k))
        exact fun _ => wellOutlined_of_startsAt hsound (fun _ => rfl) fun _ => rfl
  | @function head params body annotations _ _ _ _ _ _ _ ihbody =>
    have hbody := wellOutlined_of_all (hs.here) fun n hn => ihbody n hn (hs.nodes 2 rfl n hn)
    have hinside (k : Nat) : Sound k (if head.isAbstract then [plain k] else outlineAll k body) := by
      split
      · exact sound_plain
      · exact sound_all fun n hn => (hbody n hn k).1
    have hsound (k : Nat) := (sound_replicate (decoratorCount head annotations)).append
      (show Sound k (opening k "def" :: plain (k + 1) :: _) from (filled_members (hinside (k + 1))).sound (by decide))
    exact fun _ => wellOutlined_of_startsAt hsound (fun _ => startsAt_replicate _) fun _ => rfl
  | @classDecl head body _ _ _ _ _ _ _ _ ihbody =>
    have hbody := sound_members (k := 1) false
      (wellOutlined_of_all (hs.here) fun n hn => ihbody n hn (hs.nodes 1 rfl n hn))
    have hsound := (sound_replicate head.isFinal.toNat).append
      (show Sound 0 (opening 0 "class" :: plain 1 :: _) from (filled_members hbody).sound (by decide))
    cases body with
    | nil => exact hsound
    | cons => exact hsound
  | @dataClass _ fields body _ _ _ _ _ _ _ _ _ ihbody =>
    have hbody := (sound_replicate (k := 1) fields.length).append (sound_members fields.isEmpty
      (wellOutlined_of_all (hs.here) fun n hn => ihbody n hn (hs.nodes 2 rfl n hn)))
    exact ((filled_members hbody).sound (by decide)).cons_plain
  | @enumDecl _ members body _ _ _ _ _ _ _ ihbody =>
    have hbody := (sound_replicate (k := 1) members.length).append (sound_members members.isEmpty
      (wellOutlined_of_all (hs.here) fun n hn => ihbody n hn (hs.nodes 2 rfl n hn)))
    exact (filled_members hbody).sound (by decide)
  | @interface _ methods =>
    have hmore (ms : List Node) (k : Nat) : Sound k (ms.flatMap fun _ => blank :: signatureMarks k) := by
      induction ms with
      | nil => exact sound_nil
      | cons m ms ih => exact sound_signature.cons_blank.append ih
    cases methods with
    | nil => exact (filled_members ((sound_plain (k := 1)).append sound_blank)).sound (by decide)
    | cons m ms =>
      have hinside := ((sound_signature (k := 1)).append (hmore ms 1)).cons_blank.append sound_blank
      exact (filled_members hinside).sound (by decide)
  | @module body _ ih =>
    have hbody (n : Node) (hn : n ∈ body) : Sound 0 (n.outline 0) := ih n hn (hs.nodes 0 rfl n hn)
    cases body with
    | nil => exact sound_nil
    | cons =>
      obtain ⟨hn, hns⟩ := forall_mem_cons.1 hbody
      exact hn.append (sound_following hns)
  | _ => trivial

end BraceLang
