import BraceLang.Proofs.Appending
import BraceLang.Proofs.ExpressionText
import BraceLang.Proofs.QuotedText
import BraceLang.Proofs.TokenText
import Mathlib.Data.List.TakeWhile
import Mathlib.Tactic.MkIffOfInductiveProp

/-!
# Texts that stand on a line

A text that starts a line is told by its first word: there are seven words that open a block (`blockWords`), and no
name is one of them.
-/

namespace BraceLang

open List Node String

variable {t u : String} {k : Nat} {P : String → Prop} {cs : List Char}

/-! ### Lines -/

def blockWords : List String := ["class", "def", "if", "elif", "else", "for", "while"]

def blockWord? (cs : List Char) : Option String :=
  let word := ofList (cs.takeWhile isWordChar)
  if word ∈ blockWords then some word else none

def OneLine (t : String) : Prop := '\n' ∉ t.toList

instance (t : String) : Decidable (OneLine t) := inferInstanceAs (Decidable ('\n' ∉ t.toList))

/-- A text that can start a line, with the word by which it opens a block. -/
@[mk_iff]
structure IsLine (o : Option String) (t : String) : Prop where
  oneLine : OneLine t
  starts : t.toList.head?.any (· ≠ ' ')
  opens : blockWord? t.toList = o

/-- A text that can start a line, and in which the first word is followed by something else. -/
@[mk_iff]
structure IsHead (o : Option String) (t : String) : Prop extends IsLine o t where
  complete : t.toList.any (!isWordChar ·)

instance (o : Option String) (t : String) : Decidable (IsLine o t) := decidable_of_iff _ (isLine_iff o t).symm

instance (o : Option String) (t : String) : Decidable (IsHead o t) := decidable_of_iff _ (isHead_iff o t).symm

@[simp] theorem oneLine_append : OneLine (t ++ u) ↔ OneLine t ∧ OneLine u := by
  simp [OneLine, toList_append]

theorem oneLine_ofList (h : '\n' ∉ cs) : OneLine (ofList cs) := by
  rwa [OneLine, toList_ofList]

variable {n : Node} {s : String} {ts : List String}

theorem oneLine_join (h : ∀ t ∈ ts, OneLine t) : OneLine (join ts) := by
  rw [OneLine, toList_join, mem_flatMap]
  rintro ⟨t, ht, hmem⟩
  exact h t ht hmem

theorem oneLine_intercalate (hseparator : OneLine separator) (h : ∀ t ∈ ts, OneLine t) :
    OneLine (String.intercalate separator ts) := by
  induction ts with
  | nil => rw [String.intercalate_nil]; decide
  | cons t ts ih =>
    obtain ⟨ht, hts⟩ := forall_mem_cons.1 h
    cases ts with
    | nil => rwa [String.intercalate_singleton]
    | cons =>
      rw [String.intercalate_cons_cons, oneLine_append, oneLine_append]
      exact ⟨⟨ht, hseparator⟩, ih hts⟩

section

variable {o : Option String}

theorem takeWhile_of_complete (h : cs.any (!isWordChar ·)) :
    (cs ++ ds).takeWhile isWordChar = cs.takeWhile isWordChar := by
  induction cs with
  | nil => cases h
  | cons c cs ih =>
    by_cases hc : isWordChar c
    · simp [hc, ih (by simpa [hc] using h)]
    · simp [hc]

theorem any_head?_append (h : t.toList.head?.any p) : (t ++ u).toList.head?.any p := by
  rw [toList_append, head?_append]
  cases hhead : t.toList.head? with
  | none => rw [hhead] at h; cases h
  | some => rwa [hhead] at h

theorem IsHead.append (h : IsHead o t) (hu : OneLine u) : IsHead o (t ++ u) := by
  refine ⟨⟨oneLine_append.2 ⟨h.oneLine, hu⟩, any_head?_append h.starts, ?_⟩, ?_⟩
  · rw [← h.opens, blockWord?, toList_append, takeWhile_of_complete h.complete]
    rfl
  · rw [toList_append, any_append, h.complete]
    rfl

theorem IsLine.mark (h : IsLine o t) (hu : OneLine u)
    (hmark : u.toList.head?.any (!isWordChar ·)) :
    IsHead o (t ++ u) := by
  obtain ⟨m, hm, hword⟩ := (Option.any_eq_true _ _).1 hmark
  obtain ⟨cs, hcs⟩ := head?_eq_some_iff.1 hm
  have htake : (t.toList ++ m :: cs).takeWhile isWordChar = t.toList.takeWhile isWordChar := by
    have hstop : (m :: cs).takeWhile isWordChar = [] := takeWhile_cons_of_neg (by simpa using hword)
    by_cases hall : ∀ c ∈ t.toList, isWordChar c
    · rw [takeWhile_append_of_pos hall, hstop, append_nil, takeWhile_eq_self_iff.2 hall]
    · refine takeWhile_of_complete (any_eq_true.2 ?_)
      simpa using hall
  refine ⟨⟨oneLine_append.2 ⟨h.oneLine, hu⟩, any_head?_append h.starts, ?_⟩, ?_⟩
  · rw [← h.opens, blockWord?, toList_append, hcs, htake]
    rfl
  · rw [toList_append, hcs, any_append, any_cons, hword, Bool.true_or, Bool.or_true]

theorem IsName.isLine (h : IsName t) (ht : OneLine t) : IsLine none t := by
  obtain ⟨hword, hkind⟩ := h
  cases hcs : t.toList with
  | nil => rw [hcs] at hword; exact hword.elim
  | cons =>
    rw [hcs] at hword
    have hall := hword.isWordChar
    refine ⟨ht, ?_, ?_⟩
    · rw [hcs]
      refine decide_eq_true ?_
      rintro rfl
      cases hword.1
    · rw [blockWord?, hcs, takeWhile_eq_self_iff.2 hall, ← hcs, ofList_toList]
      exact if_neg fun hmem => (by decide : ∀ w ∈ blockWords, TokenKind.ofWord w ≠ .identifier) t hmem hkind

theorem TidyText.isLine (h : TidyText .identifier t) : IsLine none t := (h.name rfl).isLine h.oneLine

theorem isLine_of_digit (ht : OneLine t) (h : ∃ c ∈ t.toList.head?, isDecimalDigit c) : IsLine none t := by
  obtain ⟨c, hc, hdigit⟩ := h
  obtain ⟨cs, hcs⟩ := head?_eq_some_iff.1 hc
  refine ⟨ht, ?_, ?_⟩
  · rw [hcs]
    refine decide_eq_true ?_
    rintro rfl
    cases hdigit
  · -- no block word starts with a digit
    refine if_neg fun hmem => ?_
    obtain ⟨d, hd, hstart⟩ := (Option.any_eq_true _ _).1
      ((by decide : ∀ w ∈ blockWords, w.toList.head?.any isWordStart) _ hmem)
    rw [toList_ofList, hcs, takeWhile_cons] at hd
    split at hd
    · obtain rfl : c = d := Option.some.inj hd
      rw [isDecimalDigit_of_isWordStart hstart] at hdigit
      cases hdigit
    · cases hd

end

/-! ### Literals -/

theorem isLine_quoted : IsLine none (quoted s) := by
  have hkinds : quoteMark s.toList ≠ ' ' ∧ isWordChar (quoteMark s.toList) = false := by
    rcases quoteMark_cases s.toList with h | h <;> rw [h] <;> decide
  refine ⟨oneLine_ofList (notMem_quoteWith (.inl rfl) _), ?_, ?_⟩
  · rw [quoted, toList_ofList]
    exact decide_eq_true hkinds.1
  · rw [quoted, toList_ofList, blockWord?, quoteWith, takeWhile_cons_of_neg (by simp [hkinds.2])]
    decide

theorem oneLine_unquoted (hs : OneLine s) : OneLine (unquoted s) := by
  unfold unquoted
  dsimp only
  split
  · exact oneLine_ofList fun hmem => hs (mem_of_mem_drop (dropLast_subset _ hmem))
  · exact hs

/-- Whether the text of an expression is sure to start a line well: there is one, and it does not start with a literal
that is written without its quotes. -/
def Node.startsLine : Node → Bool
  | missing | literal _ .frstring | literal _ .regex => false
  | member object _ | subscript object _ => object.startsLine
  | call callee _ => callee.startsLine
  | assignment place .. => place.startsLine
  | entry key _ => key.startsLine
  | _ => true

structure Node.Shows (n : Node) (t : String) : Prop where
  oneLine : OneLine t
  isLine : n.startsLine → IsLine none t

theorem IsLine.shows (h : IsLine none t) : n.Shows t := ⟨h.oneLine, fun _ => h⟩

theorem shows_literal {k : TokenKind} (hk : (k, kind) ∈ Parse.literalKinds) (hs : TidyText k s) :
    (Node.literal (.text s) kind).Shows (join (literalPieces (.text s) kind)) := by
  simp only [Parse.literalKinds, mem_cons, Prod.mk.injEq, not_mem_nil, or_false] at hk
  have hjoin (t : String) : join [t] = t := by rw [join_cons, join_nil, append_empty]
  rcases hk with ⟨rfl, rfl⟩ | ⟨rfl, rfl⟩ | ⟨rfl, rfl⟩ | ⟨rfl, rfl⟩ | ⟨rfl, rfl⟩
  · show Node.Shows _ (join [s])
    exact (isLine_of_digit hs.oneLine (hs.number rfl)).shows
  · show Node.Shows _ (join [quoted s])
    exact isLine_quoted.shows
  · show Node.Shows _ (join ["f\"" ++ unquoted s ++ "\""])
    have hopening : IsHead none "f\"" := by decide
    exact ((hopening.append (oneLine_unquoted hs.oneLine)).append (by decide)).toIsLine.shows
  · show Node.Shows _ (join [s])
    exact ⟨hs.oneLine, nofun⟩
  · show Node.Shows _ (join [s])
    exact ⟨hs.oneLine, nofun⟩

/-! ### What a text tells -/

/-- The context is `k` blocks deep, and the finals in force have texts that can start a line. -/
structure Context.At (k : Nat) (s : Context) : Prop where
  depth : s.depth = k
  finals : ∀ scope ∈ s.finals, ∀ p ∈ scope, IsLine none p.2

theorem Context.At.isLine_name {s : Context} {name : String} (hs : s.At k)
    (hname : TidyText .identifier name) : IsLine none ((s.finals.findSome? (·.lookup name)).getD name) := by
  cases hfound : s.finals.findSome? (·.lookup name) with
  | none => exact hname.isLine
  | some t =>
    obtain ⟨scope, hscope, hlookup⟩ := exists_of_findSome?_eq_some hfound
    obtain ⟨l₁, l₂, rfl, _⟩ := lookup_eq_some_iff.1 hlookup
    exact hs.finals _ hscope (name, t) (by simp)

namespace Render

/-- `k` blocks deep the value has the property, and the context is still `k` blocks deep. -/
def Tells {α : Type} (k : Nat) (r : Render α) (P : α → Prop) : Prop := ∀ s, s.At k → P (r s).1 ∧ (r s).2.At k

section

variable {α β γ : Type} {r r' : Render α} {f : α → Render β} {P P' : α → Prop} {Q : β → Prop} {c : Prop} [Decidable c]

theorem tells_pure (h : P a) : Tells k (pure a) P := fun _ hs => ⟨h, hs⟩

theorem tells_get : Tells k (get : Render Context) (Context.At k) := fun _ hs => ⟨hs, hs⟩

theorem Tells.mono (h : Tells k r P) (hP : ∀ a, P a → P' a) : Tells k r P' :=
  fun s hs => ⟨hP _ (h s hs).1, (h s hs).2⟩

theorem Tells.bind (h : Tells k r P) (hf : ∀ a, P a → Tells k (f a) Q) : Tells k (r >>= f) Q :=
  fun s hs => hf _ (h s hs).1 _ (h s hs).2

theorem Tells.ite (h : c → Tells k r P) (h' : ¬c → Tells k r' P) : Tells k (if c then r else r') P := by
  split
  · next hc => exact h hc
  · next hc => exact h' hc

theorem Tells.choice (h : c → Tells k r P) (h' : ¬c → Tells k r' P) (hf : ∀ a, P a → Tells k (f a) Q) :
    Tells k (if c then r >>= f else r' >>= f) Q :=
  .ite (fun hc => (h hc).bind hf) fun hc => (h' hc).bind hf

theorem Tells.optional {g : γ → α} {r : Render γ} (h : c → Tells k r fun b => P (g b)) (ha : P a)
    (hf : ∀ a, P a → Tells k (f a) Q) : Tells k (if c then (do f (← pure (g (← r)))) else (do f (← pure a))) Q :=
  .ite (fun hc => (h hc).bind fun _ hb => hf _ hb) fun _ => hf a ha

theorem Tells.append {r r' : Render String} {P Q R : String → Prop} (h : Tells k r P) (h' : Tells k r' Q)
    (happend : ∀ t u, P t → Q u → R (t ++ u)) : Tells k (r ++ r') R :=
  h.bind fun t ht => h'.bind fun u hu => tells_pure (happend t u ht hu)

end

section

variable {ns : List Node}

theorem tells_list (h : ∀ n ∈ ns, Tells k (n.render .python) P) :
    Tells k (renderList .python ns) fun texts => ∀ t ∈ texts, P t := by
  induction ns with
  | nil => exact tells_pure (forall_mem_nil _)
  | cons n ns ih =>
    obtain ⟨hn, hns⟩ := forall_mem_cons.1 h
    exact hn.bind fun t ht => (ih hns).bind fun ts hts => tells_pure (forall_mem_cons.2 ⟨ht, hts⟩)

theorem tells_commas (h : ∀ n ∈ ns, Tells k (n.render .python) OneLine) :
    Tells k (renderList .python ns) fun texts => OneLine (intercalate ", " texts) :=
  (tells_list h).mono fun _ => oneLine_intercalate (by decide)

theorem tells_separated (h : ∀ n ∈ ns, Tells k (n.render .python) OneLine) :
    Tells k (renderSeparated .python ns) OneLine := by
  have hjoin (t u : String) (ht : OneLine t) (hu : OneLine u) : OneLine (t ++ u) := oneLine_append.2 ⟨ht, hu⟩
  have hfollowing (ns : List Node) (h : ∀ n ∈ ns, Tells k (n.render .python) OneLine) :
      Tells k (renderFollowing .python ", " ns) OneLine := by
    induction ns with
    | nil => exact tells_pure (by decide)
    | cons n ns ih =>
      obtain ⟨hn, hns⟩ := forall_mem_cons.1 h
      have hcomma : Tells k (pure ", ") OneLine := tells_pure (by decide)
      exact hcomma.append (hn.append (ih hns) hjoin) hjoin
  cases ns with
  | nil => exact tells_pure (by decide)
  | cons n ns =>
    obtain ⟨hn, hns⟩ := forall_mem_cons.1 h
    exact hn.append (hfollowing ns hns) hjoin

end

end Render

open Render

/-! ### The text of an expression -/

section

variable {r : Render String}

theorem oneLine_of_isOperatorText (h : IsOperatorText TidyText t) : OneLine t := by
  rcases h with ⟨_, h⟩ | h
  · exact h.oneLine
  · exact (by decide : ∀ t ∈ ["in", "not in", "is", "is not"], OneLine t) t h

theorem oneLine_of_isTypeText (h : IsTypeText TidyText t) : OneLine t := by
  obtain ⟨parts, rfl, hparts⟩ := h
  have hjoin : OneLine (join parts) := by
    refine oneLine_join fun p hp => ?_
    rcases hparts p hp with h | h
    · exact (by decide : ∀ p ∈ ["[", "]", ", ", ".", "None"], OneLine p) p h
    · exact h.oneLine
  refine oneLine_ofList fun hmem => hjoin ?_
  have hstart := mem_reverse.1 ((dropWhile_sublist _).subset (mem_reverse.1 hmem))
  exact (dropWhile_sublist _).subset hstart

theorem tells_enclosed (hopening : IsHead none opening) (h : Tells k r OneLine) :
    Tells k (pure opening ++ r) n.Shows :=
  (tells_pure (P := IsHead none) hopening).append h fun _ _ ht hu => (ht.append hu).toIsLine.shows

theorem tells_closed (h : Tells k r OneLine) (hclosing : OneLine closing) :
    Tells k (r ++ pure closing) OneLine :=
  h.append (tells_pure (P := OneLine) hclosing) fun _ _ ht hu => oneLine_append.2 ⟨ht, hu⟩

theorem Node.Shows.followed {m : Node} (h : n.Shows t) (hu : OneLine u)
    (hmark : u.toList.head?.any (!isWordChar ·)) (hv : OneLine v) (hstarts : m.startsLine = n.startsLine) :
    m.Shows (t ++ u ++ v) :=
  ⟨oneLine_append.2 ⟨oneLine_append.2 ⟨h.oneLine, hu⟩, hv⟩,
    fun hm => (((h.isLine (hstarts ▸ hm)).mark hu hmark).append hv).toIsLine⟩

end

/-- The text of an expression stands on one line, and opens no block where it can start a line. -/
theorem Fits.tells (h : Fits TidyText role n) (hrole : role.isExpression) (hs : n.SliceFree)
    (k : Nat) : Tells k (n.render .python) n.Shows := by
  have hnone : IsLine none (String.join ["None"]) := by decide
  have hparen : IsHead none "(" := by decide
  induction h with
  | identifier hname => exact tells_get.bind fun s hs => tells_pure (hs.isLine_name hname).shows
  | truth b =>
    have htruth : IsLine none (String.join [truthText b]) := by cases b <;> decide
    exact tells_pure htruth.shows
  | nothing => exact tells_pure hnone.shows
  | @literal _ kind _ hk hv =>
    rcases hv with rfl | ⟨s, rfl, hw⟩
    · exact tells_pure hnone.shows
    · exact tells_pure (shows_literal hk hw)
  | @sequence kind items hk _ ih =>
    have hitems : Tells k (renderSeparated .python items) OneLine :=
      tells_separated fun n hn => (ih n hn rfl (hs.nodes 0 rfl n hn)).mono fun _ => Node.Shows.oneLine
    rcases hk with rfl | rfl | rfl
    · exact tells_enclosed (by decide) (tells_closed hitems (by decide))
    · refine tells_enclosed (by decide) (hitems.append (tells_closed (.ite (fun _ => tells_pure (by decide)) fun _ =>
        tells_pure (by decide)) (by decide)) fun _ _ ht hu => oneLine_append.2 ⟨ht, hu⟩)
    · have hempty : IsLine none "set()" := by decide
      exact .ite (fun _ => tells_pure hempty.shows) fun _ =>
        tells_enclosed (by decide) (tells_closed hitems (by decide))
  | dictionary _ ih =>
    have hitems := tells_separated fun n hn => (ih n hn rfl (hs.nodes 0 rfl n hn)).mono fun _ => Node.Shows.oneLine
    exact tells_enclosed (by decide) (tells_closed hitems (by decide))
  | entry _ _ ihkey ihvalue =>
    refine (ihkey rfl (hs.node 0)).bind fun t ht => (ihvalue rfl (hs.node 1)).bind fun u hu => tells_pure ?_
    exact ht.followed (by decide) (by decide) hu.oneLine rfl
  | member _ hname ih =>
    refine (ih rfl (hs.node 0)).bind fun t ht => tells_pure ?_
    exact ht.followed (by decide) (by decide) hname.oneLine rfl
  | @call callee _ _ _ ihcallee ihargs =>
    have hsuper : IsLine none "super().__init__" := by decide
    refine Tells.choice (P := callee.Shows) (fun _ => tells_pure hsuper.shows) (fun _ => ihcallee rfl (hs.node 0))
      fun t ht => (tells_commas fun n hn => ?_).bind fun us hus => tells_pure ?_
    · exact (ihargs n hn rfl (hs.nodes 1 rfl n hn)).mono fun _ => Node.Shows.oneLine
    · rw [String.append_assoc]
      exact ht.followed (by decide) (by decide) (oneLine_append.2 ⟨hus, by decide⟩) rfl
  | plainArgument _ ih | plainIndex _ ih | present _ ih => exact ih rfl hs
  | missing => exact tells_pure ⟨by decide, nofun⟩
  | namedArgument hname _ ih =>
    refine (ih rfl (hs.node 1)).bind fun t ht => tells_pure ?_
    exact ((hname.isLine.mark (by decide) (by decide)).append ht.oneLine).toIsLine.shows
  | subscript _ _ ihobject ihindex =>
    refine (ihobject rfl (hs.node 0)).bind fun t ht => (ihindex rfl (hs.node 1)).bind fun u hu => tells_pure ?_
    rw [String.append_assoc]
    exact ht.followed (by decide) (by decide) (oneLine_append.2 ⟨hu.oneLine, by decide⟩) rfl
  | slice => cases hs.here
  | unary hop _ ih =>
    refine (ih rfl (hs.node 1)).bind fun t ht => tells_pure ?_
    obtain ⟨_, hop⟩ := hop
    have hoperator := (hparen.append hop.oneLine).append (u := " ") (by decide)
    exact ((hoperator.append ht.oneLine).append (by decide)).toIsLine.shows
  | binary hop _ _ ihleft ihright | logical hop _ _ ihleft ihright =>
    refine (ihleft rfl (hs.node 1)).bind fun t ht => (ihright rfl (hs.node 2)).bind fun u hu => tells_pure ?_
    have hop := oneLine_of_isOperatorText hop
    have hleft := (hparen.append ht.oneLine).append (u := " ") (by decide)
    have hoperator := (hleft.append hop).append (u := " ") (by decide)
    exact ((hoperator.append hu.oneLine).append (by decide)).toIsLine.shows
  | @comprehension kind _ _ _ _ _ hkind _ _ _ _ _ ihelement ihplace ihsource ihcondition ihkey =>
    refine (ihelement rfl (hs.node 0)).bind fun t ht => ?_
    refine Tells.optional (P := OneLine) (fun _ => (ihkey rfl (hs.node 5)).mono fun u hu =>
      oneLine_append.2 ⟨hu.oneLine, by decide⟩) (by decide) fun u hu => ?_
    refine (ihplace rfl (hs.node 1)).bind fun v hv => (ihsource rfl (hs.node 2)).bind fun w hw => ?_
    refine Tells.optional (P := OneLine) (fun _ => (ihcondition rfl (hs.node 3)).mono fun x hx =>
      oneLine_append.2 ⟨by decide, hx.oneLine⟩) (by decide) fun x hx => ?_
    have hinside : OneLine (u ++ t ++ " for " ++ v ++ " in " ++ w ++ x) := by
      simp only [oneLine_append, hu, ht.oneLine, hv.oneLine, hw.oneLine, hx]
      decide
    have hbracket {opening closing : String} (hopening : IsHead none opening) (hclosing : OneLine closing) :
        IsLine none (opening ++ (u ++ t ++ " for " ++ v ++ " in " ++ w ++ x) ++ closing) :=
      ((hopening.append hinside).append hclosing).toIsLine
    simp only [mem_cons, not_mem_nil, or_false] at hkind
    rcases hkind with rfl | rfl | rfl | rfl
    · exact tells_pure (hbracket (by decide) (by decide)).shows
    · exact tells_pure (hbracket (by decide) (by decide)).shows
    · exact tells_pure (hbracket (by decide) (by decide)).shows
    · exact tells_pure (hbracket (by decide) (by decide)).shows
  | @assignment _ _ op _ _ _ hop ihplace ihvalue =>
    have hsign : OneLine (if isGiven op then op.getD "" else "=") := by
      split
      · cases op with
        | none => decide
        | some s =>
          rcases hop s rfl with h | h
          · exact oneLine_of_isOperatorText h
          · exact (by decide : ∀ s ∈ Parse.compoundMarks.map Prod.snd, OneLine s) s h
      · decide
    refine (ihplace rfl (hs.node 0)).bind fun t ht => (ihvalue rfl (hs.node 1)).bind fun u hu => tells_pure ?_
    have hrest : OneLine ((if isGiven op then op.getD "" else "=") ++ (" " ++ u)) :=
      oneLine_append.2 ⟨hsign, oneLine_append.2 ⟨by decide, hu.oneLine⟩⟩
    rw [String.append_assoc, String.append_assoc]
    exact ht.followed (by decide) (by decide) hrest rfl
  | @declared _ _ type _ _ _ _ htype ihplace ihvalue =>
    have htype := oneLine_of_isTypeText htype
    refine (ihplace rfl (hs.node 0)).bind fun t ht => tells_get.bind fun _ _ => ?_
    refine .ite (fun _ => (ihvalue rfl (hs.node 1)).bind fun u hu => tells_pure ?_) fun _ => tells_pure ?_
    · show Node.Shows _ (t ++ ": " ++ type ++ " = " ++ u)
      have hrest : OneLine (type ++ (" = " ++ u)) := oneLine_append.2 ⟨htype, oneLine_append.2 ⟨by decide, hu.oneLine⟩⟩
      rw [String.append_assoc, String.append_assoc]
      exact ht.followed (by decide) (by decide) hrest rfl
    · exact ht.followed (by decide) (by decide) htype rfl
  | _ => cases hrole

theorem Fits.tells_oneLine (h : Fits TidyText role n) (hrole : role.isExpression)
    (hs : n.SliceFree) (k : Nat) : Tells k (n.render .python) OneLine :=
  (h.tells hrole hs k).mono fun _ => Node.Shows.oneLine

end BraceLang
