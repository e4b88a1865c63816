import BraceLang.Proofs.Refinement

/-!
# Written text stays in one stretch

A node may take pieces off the end of the output, and one that needs the text of a part that has written nothing takes
all of them.
-/

namespace BraceLang

open List

variable {t : String} {old new ts : List String} {e : Emitter} {m : Emit Unit} {α : Type} {g : Emit (List String)}
  {k : String → Emit Unit} {texts : α → List String} {f : α → Emit Unit}

def Stretch (t s : String) : Prop := ∃ before after, s = before ++ t ++ after

namespace Stretch

variable {s r : String}

theorem refl (t : String) : Stretch t t := ⟨"", "", by simp⟩

theorem trans (h : Stretch t s) (h' : Stretch s r) : Stretch t r := by
  obtain ⟨before, after, rfl⟩ := h
  obtain ⟨before', after', rfl⟩ := h'
  exact ⟨before' ++ before, after ++ after', by simp only [String.append_assoc]⟩

theorem append (h : Stretch t s) (r : String) : Stretch t (s ++ r) :=
  h.trans ⟨"", r, by simp⟩

theorem prepend (h : Stretch t s) (r : String) : Stretch t (r ++ s) :=
  h.trans ⟨r, "", by simp⟩

end Stretch

theorem stretch_join (h : t ∈ ts) : Stretch t (String.join ts) := by
  obtain ⟨front, back, rfl⟩ := append_of_mem h
  exact ⟨String.join front, String.join back, by simp [String.join_append, String.append_assoc]⟩

theorem stretch_intercalate (h : t ∈ ts) (separator : String) : Stretch t (String.intercalate separator ts) := by
  induction ts with
  | nil => cases h
  | cons first rest ih =>
    cases rest with
    | nil =>
      rw [mem_singleton.1 h, String.intercalate_singleton]
      exact .refl first
    | cons =>
      rw [String.intercalate_cons_cons]
      rcases mem_cons.1 h with rfl | h
      · exact ((Stretch.refl t).append separator).append _
      · exact (ih h).prepend _

/-- What has been written is still there: as the first pieces, or as a stretch of the first piece. -/
def Kept (old new : List String) : Prop := old <+: new ∨ ∃ p ps, new = p :: ps ∧ Stretch (String.join old) p

namespace Kept

variable {newer : List String}

theorem refl (old : List String) : Kept old old := .inl prefix_rfl

theorem append (old more : List String) : Kept old (old ++ more) := .inl (prefix_append ..)

theorem stretch (h : Kept old new) : Stretch (String.join old) (String.join new) := by
  rcases h with ⟨more, rfl⟩ | ⟨p, ps, rfl, hp⟩
  · exact ⟨"", String.join more, by simp [String.join_append]⟩
  · exact hp.trans (stretch_join mem_cons_self)

theorem head (h : Kept (p :: ps) new) (ht : Stretch t p) : ∃ q qs, new = q :: qs ∧ Stretch t q := by
  rcases h with ⟨more, rfl⟩ | ⟨q, qs, rfl, hq⟩
  · exact ⟨p, ps ++ more, rfl, ht⟩
  · exact ⟨q, qs, rfl, (ht.trans (stretch_join mem_cons_self)).trans hq⟩

theorem take_length (h : Kept old new) : Kept old (new.take old.length) := by
  rcases h with ⟨more, rfl⟩ | ⟨p, ps, rfl, hp⟩
  · rw [take_left]
    exact .refl old
  · cases old with
    | nil => exact .inl nil_prefix
    | cons first rest => exact .inr ⟨p, ps.take rest.length, rfl, hp⟩

theorem of_length_le (h : Kept old new) (hlength : new.length ≤ old.length) :
    new = old ∨ ∃ p ps, new = p :: ps ∧ Stretch (String.join old) p :=
  h.imp_left fun hfront => (hfront.eq_of_length_le hlength).symm

theorem trans (h : Kept old new) (h' : Kept new newer) : Kept old newer := by
  rcases h with hfront | ⟨p, ps, rfl, hp⟩
  · rcases h' with hfront' | ⟨q, qs, rfl, hq⟩
    · exact .inl (hfront.trans hfront')
    · exact .inr ⟨q, qs, rfl, (Kept.stretch (.inl hfront)).trans hq⟩
  · exact .inr (h'.head hp)

end Kept

def Emitter.pieces (e : Emitter) : List String := e.output.toList

/-- The second state is the first with another output and with finals noted in the innermost scope. -/
def Framed (e e' : Emitter) : Prop :=
  ∃ output noted, e' = { e with output := output, finals := e.finals.modifyHead (noted ++ ·) }

namespace Framed

variable {e' e'' : Emitter}

theorem of_output (e : Emitter) (output : Array String) : Framed e { e with output := output } :=
  ⟨output, [], by cases e.finals <;> rfl⟩

theorem refl (e : Emitter) : Framed e e := of_output e e.output

theorem ne_nil (h : Framed e e') (he : e.finals ≠ []) : e'.finals ≠ [] := by
  obtain ⟨output, noted, rfl⟩ := h
  simpa using he

theorem trans (h : Framed e e') (h' : Framed e' e'') : Framed e e'' := by
  obtain ⟨output, noted, rfl⟩ := h
  obtain ⟨output', noted', rfl⟩ := h'
  refine ⟨output', noted' ++ noted, ?_⟩
  cases e.finals <;> simp

end Framed

namespace Emit

/-- The action keeps what has been written; and if nothing has been, the texts that have been taken are in the first
piece after it.  It leaves the rest of the state alone, but for finals that it notes. -/
structure Settles (ts : List String) (m : Emit Unit) : Prop where
  keeps : ∀ e : Emitter, Kept e.pieces (m e).2.pieces
  placed : ∀ e : Emitter, e.pieces = [] → ∀ t ∈ ts, ∃ p ps, (m e).2.pieces = p :: ps ∧ Stretch t p
  framed : ∀ e : Emitter, e.finals ≠ [] → Framed e (m e).2

/-- The action keeps what has been written, or leaves no pieces and gives it as a stretch of one of the texts.  It
writes nothing, and leaves the rest of the state alone, but for finals that it notes. -/
structure Lifts {α : Type} (m : Emit α) (texts : α → List String) : Prop where
  keeps : ∀ e : Emitter, Kept e.pieces (m e).2.pieces ∨
    (m e).2.pieces = [] ∧ ∃ t ∈ texts (m e).1, Stretch (String.join e.pieces) t
  empty : ∀ e : Emitter, e.pieces = [] → (m e).2.pieces = []
  framed : ∀ e : Emitter, e.finals ≠ [] → Framed e (m e).2

section

variable {β : Type} {m' : Emit Unit} {s : String}

theorem settles_pure : Settles [] (pure ()) := ⟨fun e => .refl e.pieces, fun _ _ _ => nofun, fun e _ => .refl e⟩

theorem settles_write (h : ∀ t ∈ ts, Stretch t s) : Settles ts (write s) where
  keeps e := by
    have hpieces : ((write s) e).2.pieces = e.pieces ++ [s] := Array.toList_push
    rw [hpieces]
    exact .append e.pieces [s]
  placed e he t ht := by
    have hpieces : ((write s) e).2.pieces = e.pieces ++ [s] := Array.toList_push
    exact ⟨s, [], by rw [hpieces, he]; rfl, h t ht⟩
  framed e _ := .of_output e _

theorem settles_line (h : ∀ t ∈ ts, Stretch t s) : Settles ts (line s) := by
  have hwrite (e : Emitter) : Settles ts (write (e.indented s)) := settles_write fun t ht => (h t ht).prepend _
  exact ⟨fun e => (hwrite e).keeps e, fun e he t ht => (hwrite e).placed e he t ht, fun e => (hwrite e).framed e⟩

theorem Settles.anyway (h : Settles ts m) : Settles [] m := ⟨h.keeps, fun _ _ _ => nofun, h.framed⟩

theorem Settles.andThen (h : Settles ts m) (h' : Settles [] m') : Settles ts (m >>= fun _ => m') where
  keeps e := (h.keeps e).trans (h'.keeps (m e).2)
  placed e he t ht := by
    obtain ⟨p, ps, hpieces, hp⟩ := h.placed e he t ht
    have hkept := h'.keeps (m e).2
    rw [hpieces] at hkept
    exact hkept.head hp
  framed e he := (h.framed e he).trans (h'.framed _ ((h.framed e he).ne_nil he))

theorem settles_ite (p : Prop) [Decidable p] (h : Settles ts m) (h' : Settles ts m') :
    Settles ts (if p then m else m') := by
  by_cases hp : p
  · rwa [if_pos hp]
  · rwa [if_neg hp]

theorem settles_forM (h : ∀ x, Settles [] (f x)) (xs : List α) : Settles [] (xs.forM f) := by
  induction xs with
  | nil => exact settles_pure
  | cons x xs ih => exact (h x).andThen ih

variable {texts' : β → List String} {g : Emit α} {k : α → Emit β}

theorem Lifts.settles {k : α → Emit Unit} (h : Lifts g texts) (h' : ∀ a, Settles (texts a ++ ts) (k a)) :
    Settles ts (g >>= k) where
  keeps e := by
    have hk := h' (g e).1
    rcases h.keeps e with hkept | ⟨hempty, t, ht, hstretch⟩
    · exact hkept.trans (hk.keeps (g e).2)
    · obtain ⟨p, ps, hpieces, hp⟩ := hk.placed (g e).2 hempty t (mem_append_left _ ht)
      exact .inr ⟨p, ps, hpieces, hstretch.trans hp⟩
  placed e he t ht := (h' (g e).1).placed (g e).2 (h.empty e he) t (mem_append_right _ ht)
  framed e he := (h.framed e he).trans ((h' (g e).1).framed _ ((h.framed e he).ne_nil he))

theorem lifts_pure (a : α) : Lifts (pure a) texts := ⟨fun e => .inl (.refl e.pieces), fun _ => id, fun e _ => .refl e⟩

theorem settles_get {k : Emitter → Emit Unit} (h : ∀ e, Settles ts (k e)) : Settles ts (get >>= k) :=
  ⟨fun e => (h e).keeps e, fun e => (h e).placed e, fun e => (h e).framed e⟩

theorem Lifts.bind (h : Lifts g texts) (h' : ∀ a, Lifts (k a) texts')
    (hkept : ∀ a e, ∀ t ∈ texts a, t ∈ texts' (k a e).1) : Lifts (g >>= k) texts' where
  keeps e := by
    have hk := h' (g e).1
    rcases h.keeps e with hfirst | ⟨hempty, t, ht, hstretch⟩
    · rcases hk.keeps (g e).2 with hsecond | ⟨hempty, t, ht, hstretch⟩
      · exact .inl (hfirst.trans hsecond)
      · exact .inr ⟨hempty, t, ht, hfirst.stretch.trans hstretch⟩
    · exact .inr ⟨hk.empty _ hempty, t, hkept _ _ t ht, hstretch⟩
  empty e he := (h' (g e).1).empty _ (h.empty e he)
  framed e he := (h.framed e he).trans ((h' (g e).1).framed _ ((h.framed e he).ne_nil he))

theorem Lifts.before (h : Lifts g fun _ => []) (h' : ∀ a, Lifts (k a) texts') : Lifts (g >>= k) texts' :=
  h.bind h' nofun

theorem lifts_ite (p : Prop) [Decidable p] {g' : Emit α} (h : Lifts g texts) (h' : Lifts g' texts) :
    Lifts (if p then g else g') texts := by
  by_cases hp : p
  · rwa [if_pos hp]
  · rwa [if_neg hp]

/-! ### The four ways to read a text off -/

theorem Settles.freshText (h : Settles [] m) : Lifts (freshText m) fun _ => [] where
  keeps e := .inl (.refl e.pieces)
  empty _ := id
  framed e he := (h.framed { e with output := #[] } he).trans (.of_output _ e.output)

theorem takeFrom_eq (start : Nat) (e : Emitter) :
    (takeFrom start e).1 = String.join (e.pieces.drop start) ∧ (takeFrom start e).2.pieces = e.pieces.take start := by
  have hdrop : (e.output.extract start e.output.size).toList = e.pieces.drop start := by
    simp [Emitter.pieces, Array.toList_extract, take_of_length_le]
  have htake : (e.output.extract 0 start).toList = e.pieces.take start := by
    simp [Emitter.pieces, Array.toList_extract, extract_eq_take_drop]
  exact ⟨congrArg String.join hdrop, htake⟩

theorem Settles.tailText (h : Settles [] m) : Lifts (tailText m) fun _ => [] := by
  have hpieces (e : Emitter) : ((Emit.tailText m) e).2.pieces = (m e).2.pieces.take e.pieces.length :=
    (takeFrom_eq e.output.size (m e).2).2
  refine ⟨fun e => .inl ?_, fun e he => ?_, fun e he => (h.framed e he).trans (.of_output _ _)⟩
  · rw [hpieces]
    exact (h.keeps e).take_length
  · rw [hpieces, he, length_nil, take_zero]

theorem cutPoint_zero (after : Nat) : Emitter.cutPoint 0 after = 0 := by
  rw [Emitter.cutPoint]
  split <;> simp

theorem kept_take_cutPoint (h : Kept old new) : Kept old (new.take (Emitter.cutPoint old.length new.length)) ∨
      Emitter.cutPoint old.length new.length = 0 ∧ Stretch (String.join old) (String.join new) := by
  rcases Nat.lt_or_ge old.length new.length with hlt | hle
  · rw [Emitter.cutPoint, if_pos hlt]
    exact .inl h.take_length
  · cases hcut : Emitter.cutPoint old.length new.length with
    | zero => exact .inr ⟨rfl, h.stretch⟩
    | succ k =>
      rcases h.of_length_le hle with rfl | ⟨p, ps, rfl, hp⟩
      · simp [Emitter.cutPoint] at hcut
      · exact .inl (.inr ⟨p, ps.take k, rfl, hp⟩)

theorem Settles.cutText (h : Settles [] m) : Lifts (cutText m) fun text => [text] := by
  let start (e : Emitter) : Nat := Emitter.cutPoint e.pieces.length (m e).2.pieces.length
  have hcut (e : Emitter) : (Emit.cutText m e).1 = String.join ((m e).2.pieces.drop (start e)) ∧
      (Emit.cutText m e).2.pieces = (m e).2.pieces.take (start e) := takeFrom_eq (start e) (m e).2
  refine ⟨fun e => ?_, fun e he => ?_, fun e he => (h.framed e he).trans (.of_output _ _)⟩
  · obtain ⟨htext, hpieces⟩ := hcut e
    rcases kept_take_cutPoint (h.keeps e) with hkept | ⟨hzero, hstretch⟩
    · exact .inl (hpieces ▸ hkept)
    · rw [show start e = 0 from hzero] at htext hpieces
      exact .inr ⟨hpieces, _, mem_singleton_self _, htext ▸ hstretch⟩
  · rw [(hcut e).2, show start e = 0 by simp only [start, he, length_nil, cutPoint_zero], take_zero]

theorem Settles.cutTextIfAny (h : Settles [] m) : Lifts (cutTextIfAny m) fun _ => [] := by
  have hsame (e : Emitter) (hsize : e.output.size = (m e).2.output.size) :
      (Emit.cutTextIfAny m e).2.pieces = (m e).2.pieces := by
    change ((if e.output.size = (m e).2.output.size then pure "" else
      takeFrom (Emitter.cutPoint e.output.size (m e).2.output.size)) (m e).2).2.pieces = _
    rw [if_pos hsize]
    rfl
  have hcut (e : Emitter) (hsize : e.output.size ≠ (m e).2.output.size) : (Emit.cutTextIfAny m e).2.pieces =
      (m e).2.pieces.take (Emitter.cutPoint e.pieces.length (m e).2.pieces.length) := by
    change ((if e.output.size = (m e).2.output.size then pure "" else
      takeFrom (Emitter.cutPoint e.output.size (m e).2.output.size)) (m e).2).2.pieces = _
    rw [if_neg hsize]
    exact (takeFrom_eq _ _).2
  refine ⟨fun e => .inl ?_, fun e he => ?_, fun e he => (h.framed e he).trans ?_⟩
  · by_cases hsize : e.output.size = (m e).2.output.size
    · exact hsame e hsize ▸ h.keeps e
    · rw [hcut e hsize]
      rcases kept_take_cutPoint (h.keeps e) with hkept | ⟨hzero, -⟩
      · exact hkept
      · -- all pieces are taken only where there were none before
        have hnone : e.pieces = [] := by
          have hkeeps := h.keeps e
          have hsize : e.pieces.length ≠ (m e).2.pieces.length := hsize
          generalize e.pieces = old, (m e).2.pieces = new at hkeeps hsize hzero
          rcases Nat.lt_or_ge old.length new.length with hlt | hle
          · rw [Emitter.cutPoint, if_pos hlt] at hzero
            exact eq_nil_of_length_eq_zero hzero
          · rcases hkeeps.of_length_le hle with rfl | ⟨p, ps, rfl, -⟩
            · exact absurd rfl hsize
            · rw [Emitter.cutPoint, if_neg (by omega)] at hzero
              simp at hle hsize hzero
              omega
        exact hnone ▸ .inl nil_prefix
  · by_cases hsize : e.output.size = (m e).2.output.size
    · have hlength : e.pieces.length = (m e).2.pieces.length := hsize
      rw [hsame e hsize]
      exact eq_nil_of_length_eq_zero (by rw [← hlength, he, length_nil])
    · rw [hcut e hsize, he, length_nil, cutPoint_zero, take_zero]
  · change Framed (m e).2 ((if e.output.size = (m e).2.output.size then pure "" else
      takeFrom (Emitter.cutPoint e.output.size (m e).2.output.size)) (m e).2).2
    split
    · exact .refl _
    · exact .of_output _ _

/-! ### Actions around others -/

theorem Settles.deeper (h : Settles ts m) : Settles ts (deeper m) where
  keeps e := h.keeps { e with depth := e.depth + 1 }
  placed e he := h.placed { e with depth := e.depth + 1 } he
  framed e he := by
    obtain ⟨output, noted, hm⟩ := h.framed { e with depth := e.depth + 1 } he
    have hdeeper : (Emit.deeper m e).2 =
        (fun e' : Emitter => { e' with depth := e'.depth - 1 }) (m { e with depth := e.depth + 1 }).2 := rfl
    exact ⟨output, noted, by rw [hdeeper, hm]; rfl⟩

theorem Settles.withFinals_eq (h : Settles ts m) (he : e.finals ≠ []) :
    ∃ output, (withFinals m e).2 = { e with output := output } := by
  obtain ⟨scope, scopes, hfinals⟩ := exists_cons_of_ne_nil he
  obtain ⟨output, noted, hm⟩ := h.framed { e with finals := [] :: e.finals } (by simp)
  have hpopped : (withFinals m e).2 = (popFinals (m { e with finals := [] :: e.finals }).2).2 := rfl
  refine ⟨output, ?_⟩
  rw [hpopped, hm, hfinals]
  rfl

theorem Settles.withFinals (h : Settles ts m) : Settles ts (withFinals m) where
  keeps e := h.keeps { e with finals := [] :: e.finals }
  placed e he := h.placed { e with finals := [] :: e.finals } he
  framed e he := by
    obtain ⟨output, hm⟩ := h.withFinals_eq he
    exact hm ▸ .of_output e output

theorem Settles.withinClass (h : Settles ts m) (name : String) (params : Option (List String)) :
    Settles ts (withinClass name params m) := by
  let inside (e : Emitter) : Emitter :=
    { e with inClass := true, classStack := name :: e.classStack, typeParams := params.getD e.typeParams }
  refine ⟨fun e => h.keeps (inside e), fun e he => h.placed (inside e) he, fun e he => ?_⟩
  obtain ⟨output, noted, hm⟩ := h.framed (inside e) he
  have hwithin : (Emit.withinClass name params m e).2 = (fun e' : Emitter =>
      { e' with inClass := e.inClass, classStack := e'.classStack.tail, typeParams := e.typeParams })
        (m (inside e)).2 :=
    rfl
  exact ⟨output, noted, by rw [hwithin, hm]; rfl⟩

theorem Settles.block (h : Settles [] m) (head : String) : Settles [] (writeBlock head m) :=
  (settles_line (by simp)).andThen h.deeper

theorem settles_setFinal (name value : String) : Settles [] (setFinal name value) := by
  refine settles_ite _ settles_pure ⟨fun e => .refl e.pieces, fun _ _ _ => nofun, fun e he => ?_⟩
  obtain ⟨scope, scopes, hfinals⟩ := exists_cons_of_ne_nil he
  refine ⟨e.output, [(name, value)], ?_⟩
  change { e with finals := _ } = _
  rw [hfinals]
  rfl

theorem settles_piece : Settles [] (write s) := settles_write (by simp)

theorem settles_ownLine : Settles [] (line s) := settles_line (by simp)

theorem settles_writeLine (h : ∀ t ∈ ts, Stretch t s) : Settles ts (writeLine s) :=
  (settles_line h).andThen settles_piece

end

/-! ### Nodes -/

theorem settles_signature (target : Target) (s : MethodShape) : Settles [] (writeSignature target s) :=
  settles_get fun _ => settles_ownLine.andThen <| settles_piece.andThen <|
    (settles_ownLine.andThen settles_ownLine).deeper

theorem settles_signatures (target : Target) (methods : List MethodShape) :
    Settles [] (writeSignatures target methods) := by
  refine settles_forM (fun x => ?_) _
  obtain ⟨s, i⟩ := x
  exact settles_ite _ (settles_signature target s) (settles_piece.andThen (settles_signature target s))

theorem settles_cutText (h : Settles [] m)
    (h' : ∀ text, Settles (text :: ts) (k text)) : Settles ts (cutText m >>= k) :=
  h.cutText.settles h'

theorem settles_attributes (target : Target) (names : List String) : Settles [] (writeAttributes target names) :=
  settles_ite _ ((settles_forM (fun _ => settles_ownLine) _).andThen settles_piece) settles_pure

theorem settles_class (target : Target) (head : ClassHead) (params : List Node) (h : Settles [] m) :
    Settles [] (classFrame target params head m) :=
  Settles.withinClass (Settles.withFinals (settles_ite _ (settles_piece.andThen (settles_piece.andThen h.deeper))
    (settles_piece.andThen h.deeper))) _ _

theorem settles_dataClass (name : String) (fields params : List Node) (bases : List String) (h : Settles [] m) :
    Settles [] (dataClassFrame name fields params bases m) := by
  refine Settles.withinClass (settles_piece.andThen (settles_piece.andThen (Settles.deeper ?_))) _ _
  exact settles_ownLine.andThen ((settles_forM (fun _ => settles_ownLine) _).andThen h)

theorem settles_enum (name : String) (h : Settles [] m) (h' : Settles [] m') : Settles [] (enumFrame name m m') :=
  Settles.withinClass (settles_piece.andThen (Settles.deeper (settles_ownLine.andThen (h.andThen h')))) _ _

theorem settles_function (target : Target) (head : FunctionHead) (params : List Node) {f : Emitter → Emit Unit}
    (h : Lifts g fun _ => []) (h' : ∀ e, Settles [] (f e)) : Settles [] (functionFrame target params head g f) :=
  settles_get fun e => Settles.withFinals <| h.settles fun _ =>
    (settles_forM (fun _ => settles_ownLine) _).andThen (settles_ownLine.andThen (h' e).deeper)

theorem settles_functionBody (isAbstract : Bool) (h : Settles [] m) :
    Settles []
      (if isAbstract then do
        line "\"\"\"Abstract method.\"\"\"\n"
        line "pass\n"
      else m) :=
  settles_ite _ (settles_ownLine.andThen settles_ownLine) h

theorem settles_optional (keyword : String) {n : Node} (h : Settles [] m) :
    Settles [] (do if n.isPresent then line (keyword ++ " " ++ (← cutText m) ++ "\n") else line (keyword ++ "\n")) := by
  refine settles_ite _ (settles_cutText h fun text => settles_line ?_) settles_ownLine
  simpa using ((Stretch.refl text).prepend _).append "\n"

theorem settles_bracketed (opening closing : String) (h : Settles [] m) :
    Settles [] (do write opening; m; write closing) :=
  settles_piece.andThen (h.andThen settles_piece)

theorem settles_choice (p : Prop) [Decidable p] (hm : Settles [] m) {φ : String → α}
    {d : α} (h : ∀ a, Settles [] (f a)) :
    Settles [] (if p then freshText m >>= fun text => pure (φ text) >>= f else pure d >>= f) :=
  settles_ite _ (hm.freshText.settles fun _ => h _) (h d)

mutual

/-- Whatever has been written stays as one stretch of the output. -/
theorem settles_node : ∀ n : Node, Settles [] (n.emit target)
  | .missing | .module _ | .annotationUse .. | .parameter .. | .typeParameter .. | .block _ | .case .. | .lambda ..
  | .slice .. | .enumMember .. => settles_pure
  | .rawCode code _ => settles_forM (fun _ => settles_ite _ settles_piece settles_ownLine) _
  | .interface name methods bases _ _ => by
    cases target with
    | cython => exact settles_pure
    | python =>
      refine settles_piece.andThen (Settles.andThen (settles_ownLine.andThen ?_).deeper settles_piece)
      rcases methods with _ | _ | ⟨m, ms⟩
      · exact settles_ownLine
      · exact settles_ownLine
      · exact settles_piece.andThen (settles_signatures .python _)
  | .signature name params result _ _ => settles_signature target _
  | .classDecl head [] params _ => settles_class target head params settles_ownLine
  | .classDecl head (n :: ns) params _ =>
    settles_class target head params <| settles_ownLine.andThen <| (settles_attributes target _).andThen <|
      (settles_node n).andThen (settles_following "\n" ns)
  | .dataClass name fields [] params bases _ _ =>
    settles_dataClass name fields params bases (settles_ite _ settles_ownLine settles_pure)
  | .dataClass name fields (n :: ns) params bases _ _ =>
    have hbody := (settles_node n).andThen (settles_following "\n" ns)
    settles_dataClass name fields params bases (settles_ite _ hbody (settles_piece.andThen hbody))
  | .enumDecl name members [] _ _ =>
    settles_enum name (settles_members members) (settles_ite _ settles_ownLine settles_pure)
  | .enumDecl name members (n :: ns) _ _ =>
    have hbody := (settles_node n).andThen (settles_following "\n" ns)
    settles_enum name (settles_members members) (settles_ite _ hbody (settles_piece.andThen hbody))
  | .function head params none _ annotations | .function head params (some []) _ annotations =>
    settles_function target head params (lifts_decoratorTexts annotations) fun _ =>
      settles_functionBody head.isAbstract settles_ownLine
  | .function head params (some (n :: ns)) _ annotations =>
    settles_function target head params (lifts_decoratorTexts annotations) fun _ =>
      settles_functionBody head.isAbstract <| settles_ownLine.andThen <|
        (settles_node n).andThen (settles_all ns)
  | .expression value _ => by
    have hwritten (text : String) : Settles [text] (writeLine text) :=
      settles_writeLine (by simpa using Stretch.refl text)
    have hplain := settles_cutText (@settles_node target value) hwritten
    cases value with
    | missing => exact settles_get fun _ => settles_pure
    | assignment place assigned =>
      cases place with
      | identifier =>
        refine settles_get fun e => settles_ite _ hplain ?_
        exact (settles_node assigned).tailText.settles fun _ => settles_writeLine (by simp)
      | _ => exact settles_get fun _ => hplain
    | _ => exact settles_get fun _ => hplain
  | .pass _ => settles_ownLine
  | .returns value _ => settles_optional "return" (settles_node value)
  | .raises exception _ => settles_optional "raise" (settles_node exception)
  | .conditional c t e =>
    (settles_node c).freshText.settles fun _ => ((settles_all t).block _).andThen (settles_else e)
  | .forLoop clause body => by
    have hbody := (@settles_all target body).deeper
    have hplain := settles_ownLine (s := "for ").andThen <|
      ((@settles_node target clause).freshText.settles fun text => settles_piece (s := text ++ ":\n")).andThen hbody
    cases clause with
    | binary operator item source =>
      by_cases hop : operator = "in"
      · subst hop
        exact settles_ownLine.andThen ((settles_node item).freshText.settles fun _ =>
          (settles_node source).freshText.settles fun _ => settles_piece.andThen hbody)
      · rw [emit_forLoop_of_ne hop]
        exact hplain
    | _ => exact hplain
  | .whileLoop c body => by
    have hhead (text : String) : Settles [text] (write (text ++ ":\n")) :=
      settles_write (by simpa using (Stretch.refl text).append ":\n")
    exact settles_ownLine.andThen (settles_cutText (settles_node c) fun text =>
      (hhead text).andThen (settles_all body).deeper)
  | .switch subject cases [] =>
    (settles_node subject).freshText.settles fun _ => (settles_cases _ "if " cases).andThen settles_pure
  | .switch subject cases (n :: ns) =>
    (settles_node subject).freshText.settles fun _ => (settles_cases _ "if " cases).andThen <|
      ((settles_node n).andThen (settles_all ns)).block _
  | .assignment place value operator type _ => by
    have hvalue := (@settles_node target value).tailText
    refine (settles_node place).tailText.settles fun _ => ?_
    cases type with
    | none => exact hvalue.settles fun _ => settles_piece
    | some => exact settles_get fun _ => settles_ite _ (hvalue.settles fun _ => settles_piece) settles_piece
  | .identifier name => settles_get fun _ => settles_piece
  | .member object name => by
    refine settles_cutText (settles_node object) fun text => settles_write ?_
    simpa using ((Stretch.refl text).append ".").append name
  | .literal value kind => settles_forM (fun _ => settles_piece) _
  | .collection items kind => by
    have hitems := @settles_separated target items
    cases kind with
    | tuple =>
      exact settles_piece.andThen (hitems.andThen (settles_ite _ (settles_piece.andThen settles_piece) settles_piece))
    | list | dict => exact settles_bracketed _ _ hitems
    | set => exact settles_ite _ settles_piece (settles_bracketed _ _ hitems)
    | _ => exact settles_piece
  | .call callee arguments => by
    have harguments (text : String) : Settles [text] (Node.cutTexts target arguments >>= fun texts =>
        write (text ++ "(" ++ String.intercalate ", " texts ++ ")")) := by
      refine (lifts_cutTexts arguments).settles fun texts => settles_write fun t ht => ?_
      rcases mem_append.1 ht with ht | ht
      · exact ((stretch_intercalate ht ", ").prepend _).append _
      · rw [mem_singleton.1 ht, String.append_assoc, String.append_assoc]
        exact (Stretch.refl text).append _
    exact settles_ite _ (harguments "super().__init__").anyway (settles_cutText (settles_node callee) harguments)
  | .argument name value => by
    refine settles_cutText (settles_node value) fun text => ?_
    cases name with
    | none =>
      refine settles_write ?_
      simpa using Stretch.refl text
    | some name =>
      refine settles_write ?_
      simpa using (Stretch.refl text).prepend (name ++ "=")
  | .logical operator left right | .binary operator left right =>
    (settles_node left).freshText.settles fun _ => (settles_node right).freshText.settles fun _ =>
      settles_piece
  | .unary operator operand => (settles_node operand).freshText.settles fun _ => settles_piece
  | .imports head => settles_piece
  | .entry key value => by
    refine settles_cutText (settles_node key) fun keyText => ?_
    refine settles_cutText (settles_node value) fun valueText => settles_write ?_
    simpa using ⟨(Stretch.refl valueText).prepend _, ((Stretch.refl keyText).append _).append _⟩
  | .subscript object index => by
    refine settles_cutText (settles_node object) fun objectText => ?_
    refine settles_cutText (settles_node index) fun indexText => settles_write ?_
    simpa using ⟨((Stretch.refl indexText).prepend _).append _,
      (((Stretch.refl objectText).append _).append _).append _⟩
  | .comprehension element place source condition kind key => by
    refine (settles_node element).freshText.settles fun _ => settles_choice _ (settles_node key) fun _ => ?_
    refine (settles_node place).freshText.settles fun _ => (settles_node source).freshText.settles fun _ => ?_
    refine settles_choice _ (settles_node condition) fun _ => ?_
    cases kind with
    | other => exact settles_pure
    | _ => exact settles_piece
  | .finalDecl place value type => by
    refine (settles_node place).freshText.settles fun _ => (settles_node value).freshText.settles fun _ => ?_
    refine settles_ownLine.andThen (settles_ownLine.andThen ?_)
    cases place with
    | identifier name => exact settles_setFinal name _
    | _ => exact settles_pure

theorem settles_all : ∀ ns : List Node, Settles [] (Node.emitAll target ns)
  | [] => settles_pure
  | n :: ns => (settles_node n).andThen (settles_all ns)

theorem settles_following (separator : String) : ∀ ns : List Node,
    Settles [] (Node.emitFollowing target separator ns)
  | [] => settles_pure
  | n :: ns => settles_piece.andThen ((settles_node n).andThen (settles_following separator ns))

theorem settles_separated : ∀ ns : List Node, Settles [] (Node.emitSeparated target ns)
  | [] => settles_pure
  | n :: ns => (settles_node n).andThen (settles_following ", " ns)

theorem settles_else : ∀ ns : List Node, Settles [] (Node.emitElse target ns)
  | [] => settles_pure
  | n :: ns => by
    have hblock := ((@settles_node target n).andThen (@settles_all target ns)).block "else:\n"
    cases ns with
    | cons => cases n <;> exact hblock
    | nil =>
      cases n with
      | conditional c t e =>
        exact (settles_node c).freshText.settles fun _ =>
          ((settles_all t).block _).andThen (settles_else e)
      | _ => exact hblock

theorem settles_cases (subject keyword : String) : ∀ ns : List Node,
    Settles [] (Node.emitCases target subject keyword ns)
  | [] => settles_pure
  | n :: cases => by
    cases n with
    | case value body =>
      refine settles_ownLine.andThen ((settles_node value).freshText.settles fun _ => settles_piece.andThen ?_)
      have hcases := @settles_cases target subject "elif " cases
      exact settles_piece.andThen ((settles_all body).deeper.andThen hcases)
    | _ => exact settles_cases subject keyword cases

theorem settles_members : ∀ ns : List Node, Settles [] (Node.emitMembers target ns)
  | [] => settles_pure
  | n :: members => by
    cases n with
    | enumMember name args =>
      cases args with
      | nil => exact settles_ownLine.andThen (settles_members members)
      | cons arg args =>
        exact (lifts_freshTexts (arg :: args)).settles fun _ =>
          settles_ownLine.andThen (settles_members members)
    | _ => exact settles_members members

theorem lifts_cutTexts : ∀ ns : List Node, Lifts (Node.cutTexts target ns) id
  | [] => lifts_pure []
  | n :: ns => by
    refine (settles_node n).cutText.bind (fun text => ?_) fun text e t ht => ?_
    · exact (lifts_cutTexts ns).bind (fun _ => lifts_pure _) fun _ _ _ => mem_cons_of_mem _
    · rw [mem_singleton.1 ht]
      exact mem_cons_self

theorem lifts_freshTexts : ∀ ns : List Node, Lifts (Node.freshTexts target ns) fun _ => []
  | [] => lifts_pure []
  | n :: ns =>
    (settles_node n).freshText.before fun _ => (lifts_freshTexts ns).before fun _ => lifts_pure _

theorem lifts_argumentTexts : ∀ ns : List Node, Lifts (Node.argumentTexts target ns) fun _ => []
  | [] => lifts_pure []
  | n :: ns =>
    (settles_node n).cutTextIfAny.before fun _ => (lifts_argumentTexts ns).before fun _ => lifts_pure _

theorem lifts_decoratorTexts : ∀ ns : List Node, Lifts (Node.decoratorTexts target ns) fun _ => []
  | [] => lifts_pure []
  | n :: ns => by
    have hrest := @lifts_decoratorTexts target ns
    refine lifts_ite (n.isRuntime = true) ?_ hrest
    cases n with
    | annotationUse head args keys values =>
      refine Lifts.before (lifts_ite (head.isCall = true) ?_ (lifts_pure _)) fun _ => hrest.before fun _ => lifts_pure _
      exact (lifts_argumentTexts args).before fun _ =>
        (lifts_argumentTexts values).before fun _ => lifts_pure _
    | _ => exact hrest.before fun _ => lifts_pure _

end

end Emit

end BraceLang
